import FixedForm.Block.Jump
import FixedForm.Diagnostic.Issue

/-!
Conditions: block IF, ELSE and the IF with one statement.
-/

namespace FixedForm.Condition

/-- `end if`, with or without blanks between. -/
def isEndIf (statement : Text) : Bool :=
  ((Text.after? "end" statement).bind fun t => Text.after? "if" t.trimStart) == some []

/-- `else`, perhaps after a brace. -/
def isElse (statement : Text) : Bool :=
  let t := match statement with
    | '\x7d' :: t => Text.trimStart t
    | t => t
  t == "else".toList

/-- What follows `else if`, when that is a parenthesis. -/
def elseIf? (statement : Text) : Option Text := do
  let t ← Text.after? "else" statement
  let t ← Text.after? "if" t.trimStart
  guard (Text.startsWith "(" t.trimStart)
  some t.trimStart

/-- What follows `if`. -/
def afterIf (statement : Text) : Text :=
  ((Text.after? "if" statement).map Text.trimStart).getD statement

/-- Three labels, for a negative, zero and positive value. -/
def isLabelTriple (t : Text) : Bool :=
  match t.splitCommas.1 with
  | [a, b, c] =>
    (a.trimEnd).isDigits && b.trim.isDigits && (c.trimStart).isDigits
  | _ => false

/-- A conditional statement in the output, or none when it becomes a comment. -/
def render (unit statement : Text) : Option Text × List Issue :=
  if isEndIf statement then (some "\x7d", [])
  else if isElse statement then (some "\x7delse\x7b", [])
  else
    let elseIf := elseIf? statement
    let head := elseIf.getD (afterIf statement)
    match head.closing? with
    | none => (some statement, [.unclosedCondition])
    | some closing =>
      let condition := (head.take closing).drop 1
      let rest := Text.trim (head.drop (closing + 1))
      if rest == "then".toList then
        (some ((if elseIf.isSome then "\x7delse if(" else "if(") ++ condition ++ ")\x7b"), [])
      else if isLabelTriple rest then (none, [.arithmeticIf])
      else if elseIf.isSome then (some statement, [.elseIfWithoutThen])
      else (some ("if(" ++ condition ++ ") " ++ renameGotos unit rest), [])

end FixedForm.Condition
