import FixedForm.Analysis
import FixedForm.Statement.Shape
import FixedForm.Text.Substitution
import FixedForm.Text.Words
import FixedForm.Vocabulary

/-!
The text of a converted unit: a preamble, the unit with its diagnostics, the declarations, and a
trailer.
-/

namespace FixedForm.Output

def preamble (includes : List Text) : List Text :=
  "#define NOMINMAX" :: includes.map fun h => "#include <" ++ h ++ ">"

/-- `if` and blanks before a parenthesis. -/
def closeIf : Rule := fun before t => do
  guard (wordStarts before)
  let t ← Text.after? "if" t
  let t ← t.blanks?
  let t ← Text.after? "(" t
  some ("if(", t)

/-- No blanks between a parenthesis and a brace that ends the line. -/
def closeBrace (t : Text) : Text :=
  match t.trimEnd.reverse with
  | '\x7b' :: before =>
    match Text.blanks? before with
    | some (')' :: rest) => rest.reverse ++ ")\x7b"
    | _ => t
  | _ => t

def prettify (t : Text) : Text := closeBrace (t.substitute closeIf)

def needsSemicolon (t : Text) : Bool :=
  match t.trimEnd.getLast? with
  | none => false
  | some c => c != '\x7b' && c != '\x7d' && !Statement.isSlashComment t

/-- A line of the output, with its semicolon and its remark. -/
def finish (d : Draft) : Text :=
  let text := prettify d.text
  let text := if needsSemicolon text then text ++ ";" else text
  match d.remark with
  | none | some [] => text
  | some remark => text ++ " // " ++ remark

set_option linter.unusedVariables false in
/-- The texts between `[` and the next `]`, unless that is nothing. -/
def brackets : Text → List Text
  | [] => []
  | c :: t =>
    if c == '[' then
      match h : t.dropWhile (· != ']'), t.takeWhile (· != ']') with
      | _ :: rest, a :: inner => (a :: inner) :: brackets rest
      | _, _ => brackets t
    else brackets t
termination_by t => t.length
decreasing_by
  · have := Text.length_dropWhile_le (· != ']') t
    rw [h] at this
    simp only [List.length_cons] at this ⊢
    omega
  · simp
  · simp

/-- The words in the extents of arrays. -/
def extentWords (symbols : SymbolTable) : List Text :=
  (symbols.entries.filter (·.kind.isArray)).flatMap fun s => s.dimensions.flatMap Text.words

/-- A word that is neither a number, nor reserved, nor an array, nor an extent. -/
def isIndexVariable (symbols : SymbolTable) (word : Text) : Bool :=
  !((word.head?.map Char.isDigit).getD false) && !(extentWords symbols).contains word &&
    !isReserved word && !symbols.isArray word

/-- The variables in subscripts, in the order of their first use. -/
def indexVariables (symbols : SymbolTable) (lines : List Line) : List Text :=
  let words := (lines.filter fun l => !l.shape.isSilent).flatMap fun l =>
    (brackets l.text).flatMap Text.words
  (words.filter (isIndexVariable symbols)).foldl addOnce []

/-- A line of the unit below the diagnostics that belong to it. -/
def unitLines (diagnostics : List Diagnostic) (l : Line) : List Text :=
  (Diagnostic.forLine diagnostics (some l.id)).map (fun d => l.text.indent ++ d.render) ++
    [finish l.toDraft]

def advisory : Text := "// Declarations need repairing; reference/pointers need to be replaced."

/-- Advice, the index variables and the references to review. -/
def advice (a : Analysis) (indices : List Text) : List Text :=
  [advisory] ++
  (if a.options.emitIndexReport then
    [Text.trimEnd ("// Detected the following indicial variables: " ++ Text.join ", " indices)]
  else []) ++
  (if a.review.isEmpty then [] else ["// Subscripts to review: " ++ Text.join ", " a.review])

/-- What follows the unit: advice, and the diagnostics whose line is gone. -/
def trailer (a : Analysis) (lines : List Line) (indices : List Text) : List Text :=
  advice a indices ++ (Diagnostic.detached a.diagnostics (lines.map (·.id))).map Diagnostic.render

/-- The sections in order.  Empty ones are left out. -/
def sections (a : Analysis) (lines : List Line) : List (List Text) :=
  let unit := lines.flatMap (unitLines a.diagnostics)
  let body := match a.options.declarationPlacement with
    | .leading => [a.declarations, unit]
    | .trailing => [unit, a.declarations]
  let all := (if a.options.emitPreamble then [preamble a.options.includes] else []) ++ body ++
    [trailer a lines (indexVariables a.symbols lines)]
  all.filter fun s => !s.isEmpty

/-- The whole text. -/
def render (a : Analysis) (lines : List Line) : Text :=
  Text.join "\n\n" ((sections a lines).map (Text.join "\n")) ++ "\n"

end FixedForm.Output
