import FixedForm.Text.Literal
import FixedForm.Text.Substitution
import FixedForm.Text.Words

/-!
The names that a statement uses as variables.
-/

namespace FixedForm.Names

/-- A literal becomes a pair of quotes. -/
def emptyLiteral : Rule := fun _ t =>
  match t with
  | '\x27' :: body => (Text.quotedBody? body).map fun (_, rest) => ("''", rest)
  | '"' :: body =>
    match body.dropWhile (· != '"') with
    | [] => none
    | _ :: rest => some ("''", rest)
  | _ => none

/-- A name starts with a small letter or an underscore. -/
def startsName : Text → Bool
  | [] => false
  | c :: _ => c.isLower || c == '_'

/-- A parenthesis comes next, after blanks at most. -/
def opensParen (ps : List Piece) : Bool := (Text.skipBlanks ps).head? == some (.mark '(')

/-- The word `call` and at least one blank come right before, nearest piece first. -/
def afterCall (before : List Piece) : Bool :=
  match before with
  | .mark c :: _ => isBlank c && (Text.skipBlanks before).head? == some (.word "call")
  | _ => false

/-- The names among `ps` that are no member, no call and no reference with parentheses. -/
def plainFrom (before : List Piece) : List Piece → List Text
  | [] => []
  | .mark c :: ps => plainFrom (.mark c :: before) ps
  | .word w :: ps =>
    let rest := plainFrom (.word w :: before) ps
    if startsName w && before.head? != some (.mark '.') && !opensParen ps && !afterCall before then
      w :: rest
    else rest

/-- The names that a statement uses as variables, in order. -/
def plain (statement : Text) : List Text :=
  plainFrom [] (statement.substitute emptyLiteral).pieces

end FixedForm.Names
