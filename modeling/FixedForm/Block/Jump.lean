import FixedForm.Statement.Shape
import FixedForm.Text.Substitution

/-!
Jumps: `go to 10` becomes `goto unit_L10`.
-/

namespace FixedForm

/-- `go to` and a label. -/
def gotoRule (unit : Text) : Rule := fun before t => do
  guard (wordStarts before)
  let t ← Statement.afterGoto? t
  let (label, t) ← Text.digits? t.trimStart
  guard t.wordEnds
  some ("goto " ++ labelName unit label, t)

/-- Every jump of a text goes to a label of the output. -/
def renameGotos (unit t : Text) : Text := t.substitute (gotoRule unit)

/-- The forms of a jump statement. -/
inductive JumpForm where
  | simple | computed | assigned
  deriving DecidableEq, Repr

/-- A jump goes to one label, to one of a list of labels, or to the label in a variable. -/
def jumpForm (statement : Text) : JumpForm :=
  match Statement.afterGoto? statement with
  | none => .assigned
  | some t =>
    if Text.startsWith "(" t.trimStart then .computed
    else
      match Text.digits? t.trimStart with
      | some (_, rest) => if rest.allBlank then .simple else .assigned
      | none => .assigned

end FixedForm
