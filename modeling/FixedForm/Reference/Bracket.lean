import FixedForm.Count
import FixedForm.Text.Substitution

/-!
Subscripts in the output.  Arrays are stored by columns and counted from zero, so a reference has one
index.  The simplifier cleans an index up by local rules and leaves the rest as it is.
-/

namespace FixedForm

def vectorSubscript (index : Text) : Text := "[(" ++ index ++ ")-1]"

def matrixSubscript (row column leading : Text) : Text :=
  "[((" ++ row ++ ")-1)+((" ++ column ++ ")-1)*(" ++ leading ++ ")]"

namespace Simplify

/-- The parentheses here belong to no call and no subscript. -/
def isGroup (before : Text) : Bool := (before.head?.map fun c => !isWord c && c != ']').getD true

/-- A word in parentheses loses them. -/
def word : Rule := fun before t => do
  guard (isGroup before)
  let t ← Text.after? "(" t
  let (word, t) ← Text.word? t.trimStart
  let t ← Text.after? ")" t.trimStart
  some (word, t)

/-- The value of a sum or difference of two numbers, and what follows it. -/
def sum? (t : Text) : Option (Count × Text) := do
  let (a, t) ← t.digits?
  match t with
  | '+' :: t => (Text.digits? t).map fun (b, t) => ((Count.ofDigits a).add (.ofDigits b), t)
  | '-' :: t => (Text.digits? t).map fun (b, t) => ((Count.ofDigits a).sub (.ofDigits b), t)
  | _ => none

/-- A sum of two numbers in parentheses is worked out. -/
def groupSum : Rule := fun before t => do
  guard (isGroup before)
  let t ← Text.after? "(" t
  let (value, t) ← sum? t
  let t ← Text.after? ")" t
  some (if value.isNegative then "(" ++ value.render ++ ")" else value.render, t)

/-- A sum of two numbers that is a whole index is worked out. -/
def indexSum : Rule := fun _ t => do
  let t ← Text.after? "[" t
  let (value, t) ← sum? t
  let t ← Text.after? "]" t
  some ("[" ++ value.render ++ "]", t)

/-- A text without parentheses up to a `)`, and what follows the `)`. -/
def flatGroup? (t : Text) : Option (Text × Text) :=
  match t.span fun c => c != '(' && c != ')' with
  | (inner, ')' :: rest) => some (inner, rest)
  | _ => none

/-- `tail` at the end of a text that has more than that. -/
def beforeTail? (tail t : Text) : Option Text :=
  match Text.after? tail.reverse t.reverse with
  | some (c :: rest) => some (c :: rest).reverse
  | _ => none

/-- `(x+1)-1` or `(x-1)+1` as a whole group or index is `x`. -/
def undo (inner outer : Text) : Rule := fun _ t =>
  match t with
  | opener :: '(' :: t => do
    guard (opener == '[' || opener == '(')
    let (group, t) ← flatGroup? t
    let x ← beforeTail? inner group
    let t ← Text.after? outer t
    match t with
    | [] => none
    | closer :: t => if closer == ']' || closer == ')' then some (opener :: x ++ [closer], t) else none
  | _ => none

/-- `((x-a)-b)` is `((x)-((a)+(b)))`, and the same with `+`. -/
def collect (op : Char) : Rule := fun _ t => do
  let t ← Text.after? "((" t
  let (group, t) ← flatGroup? t
  let (lead, a) := Text.spanEnd isWord group
  guard !a.isEmpty
  let x ← beforeTail? [op] lead
  let t ← Text.after? [op] t
  let (b, t) ← Text.word? t
  let t ← Text.after? ")" t
  some ("((" ++ x ++ ")" ++ [op] ++ "((" ++ a ++ ")+(" ++ b ++ ")))", t)

def rules : List Rule :=
  [word, groupSum, indexSum, undo "+1" "-1", undo "-1" "+1", collect '-', collect '+']

/-- Applies all rules, again while they change something, `passes` times at most. -/
def iterate : (passes : Nat) → Text → Text
  | 0, t => t
  | n + 1, t =>
    let next := t.substituteAll rules
    if next == t then t else iterate n next

end Simplify

/-- A simpler form of an index in its brackets. -/
def simplifySubscript (bracket : Text) : Text := Simplify.iterate 10 bracket

end FixedForm
