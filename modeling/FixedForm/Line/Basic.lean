import FixedForm.Text.Basic

/-!
Lines: the records between the deck and the output.  A line has an identity that its text does not
give, so that a diagnostic stays with its line while the text changes.
-/

namespace FixedForm

/-- What a line is, by its form. -/
inductive Shape where
  | blank | comment | header | unitEnd | declaration | parameter | external | intrinsic | implicit
  | loop | loopEnd | conditional | goto | call | returns | assignment | label | other
  deriving DecidableEq, Repr

namespace Shape

def all : List Shape :=
  [.blank, .comment, .header, .unitEnd, .declaration, .parameter, .external, .intrinsic, .implicit,
    .loop, .loopEnd, .conditional, .goto, .call, .returns, .assignment, .label, .other]

def name : Shape → Text
  | .blank => "blank"
  | .comment => "comment"
  | .header => "header"
  | .unitEnd => "end"
  | .declaration => "declaration"
  | .parameter => "parameter"
  | .external => "external"
  | .intrinsic => "intrinsic"
  | .implicit => "implicit"
  | .loop => "loop"
  | .loopEnd => "loopEnd"
  | .conditional => "conditional"
  | .goto => "goto"
  | .call => "call"
  | .returns => "return"
  | .assignment => "assignment"
  | .label => "label"
  | .other => "other"

def ofName? (name : Text) : Option Shape := all.find? fun s => s.name == name

/-- A comment or a blank line. -/
def isSilent : Shape → Bool
  | .comment | .blank => true
  | _ => false

end Shape

/-- What a line holds. -/
structure Draft where
  text : Text
  shape : Shape
  /-- The statement label. -/
  label : Option Text := none
  /-- The remark after the statement. -/
  remark : Option Text := none
  /-- The local variable that the line declares. -/
  declares : Option Text := none
  deriving DecidableEq, Repr

/-- A line, with its identity and the number of the card it comes from. -/
structure Line extends Draft where
  id : Nat
  origin : Nat
  deriving DecidableEq, Repr

end FixedForm
