import FixedForm.Count
import FixedForm.Diagnostic.Issue

/-!
Loops: `do 10 i = 1, n` and `do while (...)`.
-/

namespace FixedForm

/-- A counted loop. -/
structure CountedLoop where
  /-- The label of the statement that ends the loop, if `do` names one. -/
  label : Option Text
  counter : Text
  /-- The bounds as written. -/
  bounds : Text
  deriving DecidableEq, Repr

namespace CountedLoop

/-- What follows the blanks and the `=` after a counter, within one line. -/
def bounds? (t : Text) : Option Text := do
  let t ← Text.after? "=" t.trimStart
  guard !t.trimStart.hasLineEnd
  some t.trimStart

/-- A counter and its bounds. -/
def counter? (label : Option Text) (t : Text) : Option CountedLoop := do
  let (counter, t) ← t.word?
  let bounds ← bounds? t
  some { label, counter, bounds }

/-- What follows a label: blanks, with one comma among them at most. -/
def afterLabel (t : Text) : Text :=
  match t.trimStart with
  | ',' :: t => Text.trimStart t
  | t => t

/-- A label, and a counter with its bounds.  Where no counter follows, the last digit of a longer
label is the counter. -/
def labelled? (t : Text) : Option CountedLoop := do
  let (label, rest) ← t.digits?
  counter? (some label) (afterLabel rest) <|>
    (do
      guard (1 < label.length)
      let bounds ← bounds? rest
      some { label := some label.dropLast, counter := label.drop (label.length - 1), bounds })

def parse? (statement : Text) : Option CountedLoop := do
  let t ← Text.after? "do" statement
  let t ← t.blanks?
  labelled? t <|> counter? none t

end CountedLoop

/-- A loop with a condition: the label that ends it, and the text from the opening parenthesis. -/
structure WhileLoop where
  label : Option Text
  condition : Text
  deriving DecidableEq, Repr

namespace WhileLoop

def parse? (statement : Text) : Option WhileLoop := do
  let t ← Text.after? "do" statement
  let (label, t) := match Text.digits? t.trimStart with
    | some (label, t) => (some label, CountedLoop.afterLabel t)
    | none => (none, t.trimStart)
  let t ← Text.after? "while" t
  guard (Text.startsWith "(" t.trimStart)
  some { label, condition := t.trimStart }

end WhileLoop

/-- The label of the statement that ends a loop. -/
def loopLabel? (statement : Text) : Option Text :=
  (CountedLoop.parse? statement).bind (·.label) <|> (WhileLoop.parse? statement).bind (·.label)

/-- A step that is a number with an optional sign. -/
def literalStep? (t : Text) : Option Count :=
  let value? := fun (digits : Text) =>
    if digits.isDigits then some (Count.ofDigits digits) else none
  match t with
  | '-' :: t => (value? (Text.trimStart t)).map Count.neg
  | '+' :: t => value? (Text.trimStart t)
  | t => value? t.trimStart

/-- The header of a `for` loop.  The direction of a step that is no number is tested at each turn. -/
def renderCountedLoop (counter : Text) (bounds : List Text) : Option Text :=
  let head := fun (start : Text) => "for(" ++ counter ++ " = " ++ start ++ "; "
  let upTo := fun (stop : Text) => counter ++ " <= " ++ stop
  let downTo := fun (stop : Text) => counter ++ " >= " ++ stop
  match bounds.map Text.trim with
  | [start, stop] => some (head start ++ upTo stop ++ "; ++" ++ counter ++ ")\x7b")
  | [start, stop, step] =>
    match literalStep? step with
    | some n =>
      if n.isNegative then
        some (head start ++ downTo stop ++ "; " ++ counter ++ " -= " ++ n.abs.render ++ ")\x7b")
      else some (head start ++ upTo stop ++ "; " ++ counter ++ " += " ++ n.render ++ ")\x7b")
    | none =>
      some (head start ++ "((" ++ step ++ " < 0) ? (" ++ downTo stop ++ ") : (" ++ upTo stop ++
        ")); " ++ counter ++ " += " ++ step ++ ")\x7b")
  | _ => none

/-- A loop statement in the output.  What cannot be read stays as it is. -/
def renderLoop (statement : Text) : Text × List Issue :=
  match WhileLoop.parse? statement with
  | some w =>
    match w.condition.closing? with
    | none => (statement, [.unclosedWhile])
    | some closing => ("while" ++ w.condition.take (closing + 1) ++ "\x7b", [])
  | none =>
    match CountedLoop.parse? statement with
    | none => (statement, [.unknownLoop])
    | some c =>
      let (bounds, faults) := c.bounds.splitCommas
      let issues := faults.map (Issue.mismatchInBounds · c.counter)
      match renderCountedLoop c.counter bounds with
      | some text => (text, issues)
      | none => (statement, issues ++ [.boundCount c.counter bounds.length])

end FixedForm
