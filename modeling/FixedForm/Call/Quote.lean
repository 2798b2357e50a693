import FixedForm.Text.Literal
import FixedForm.Text.Substitution

/-!
String literals of the output: between double quotes, with a double quote inside escaped.
-/

namespace FixedForm.Quote

/-- Each pair of single quotes as one. -/
def undouble : Text → Text
  | '\x27' :: '\x27' :: t => '\x27' :: undouble t
  | c :: t => c :: undouble t
  | [] => []

def escape (t : Text) : Text := t.flatMap fun c => if c == '"' then ['\\', '"'] else [c]

/-- A single-quoted literal becomes a double-quoted one. -/
def requote : Rule := fun _ t =>
  match t with
  | '\x27' :: t => (Text.quotedBody? t).map fun (body, rest) =>
    ('"' :: escape (undouble body) ++ ['"'], rest)
  | _ => none

/-- Every single-quoted literal of a text becomes a double-quoted one. -/
def toDouble (t : Text) : Text := t.substitute requote

end FixedForm.Quote
