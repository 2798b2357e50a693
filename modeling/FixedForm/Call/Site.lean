import FixedForm.Call.Argument
import FixedForm.Call.Quote
import FixedForm.Line.Basic

/-!
Places where a procedure is called: CALL statements, and callable scalars before a parenthesis.
-/

namespace FixedForm

structure CallSite where
  name : Text
  /-- The arguments as written. -/
  args : List Text
  /-- The line of the call. -/
  line : Nat
  deriving DecidableEq, Repr

namespace CallSite

/-- The arguments in a text that starts with a parenthesis, up to its partner or to the end. -/
def arguments (group : Text) : List Text :=
  let inner := match group.closing? with
    | some closing => (group.take closing).drop 1
    | none => group.drop 1
  Argument.split (Quote.toDouble inner)

/-- The first `call name` of a text: what is before it, the name, and what follows the blanks after
it.  `before` is the text in front, last character first. -/
def findCall? (before : Text) : Text → Option (Text × Text × Text)
  | [] => none
  | c :: t =>
    let here : Option (Text × Text × Text) := do
      guard before.wordEnds
      let rest ← Text.after? "call" (c :: t)
      let rest ← rest.blanks?
      let (name, rest) ← Text.word? rest
      some (before.reverse, name, rest.trimStart)
    here <|> findCall? (c :: before) t

/-- A line without the word `call`, and the call it names. -/
def dropCall? (line : Nat) (t : Text) : Option (Text × CallSite) :=
  (findCall? [] t).map fun (before, name, after) =>
    if Text.startsWith "(" after then
      (before ++ name ++ after, { name, args := arguments after, line })
    else (before ++ name ++ "()" ++ after, { name, args := [], line })

/-- The words before a parenthesis, each with the text from the parenthesis on. -/
def parenWords : Text → List (Text × Text)
  | [] => []
  | c :: t =>
    if isWord c then
      let after := t.dropWhile isWord
      let group := Text.trimStart after
      let rest := parenWords after
      if Text.startsWith "(" group then (c :: t.takeWhile isWord, group) :: rest else rest
    else parenWords t
termination_by t => t.length
decreasing_by
  · have := Text.length_dropWhile_le isWord t
    simp only [List.length_cons]
    omega
  · simp

/-- The references to callable scalars in a text. -/
def references (symbols : SymbolTable) (line : Nat) (t : Text) : List CallSite :=
  ((parenWords t).filter fun (name, _) => symbols.isCallable name).map fun (name, group) =>
    { name, args := arguments group, line }

end CallSite

end FixedForm
