import FixedForm.Text.Basic

/-!
Statement labels: up to five columns at the start of a line.
-/

namespace FixedForm

/-- A line taken apart into its label, the columns the label takes, and the statement. -/
structure Labelled where
  label : Option Text
  statement : Text
  /-- The blanks and digits before the statement; empty without a label. -/
  columns : Text
  deriving DecidableEq, Repr

namespace Labelled

def split (t : Text) : Labelled :=
  let blanks := t.takeWhile isBlank
  let digits := (t.dropWhile isBlank).takeWhile Char.isDigit
  let rest := (t.dropWhile isBlank).dropWhile Char.isDigit
  if !digits.isEmpty && blanks.length + digits.length ≤ 5 && (rest.head?.map isBlank).getD true then
    { label := some digits, statement := Text.trim rest,
      columns := blanks ++ digits ++ rest.takeWhile isBlank }
  else { label := none, statement := t.trim, columns := [] }

end Labelled

/-- The statement of a line without its label. -/
def statementOf (t : Text) : Text := (Labelled.split t).statement

/-- The name of a statement label in the output. -/
def labelName (unit label : Text) : Text := unit ++ "_L" ++ label

end FixedForm
