import FixedForm.Line.Buffer
import FixedForm.Statement.Shape

/-!
Remarks: the comment cards, set in the columns of the statements around them.
-/

namespace FixedForm.Remark

def mark : Text := "// "

/-- The least number of columns that a mark is set into. -/
def leastIndent : Nat := 3

/-- What stands before a remark, given the indents of the statements before and after it.  Between
two statements the deeper one counts; next to one, the mark takes its last columns. -/
def lead (before after : Option Text) : Option Text :=
  match before, after with
  | some p, some n =>
    let indent := if n.length > p.length then n else p
    some (if indent.length < leastIndent then mark else indent ++ mark)
  | none, none => none
  | some indent, none | none, some indent =>
    some (if indent.length < leastIndent then mark
      else indent.take (indent.length - leastIndent) ++ mark)

/-- A comment card with its first character replaced. -/
def reflow (t : Text) (lead : Option Text) : Text :=
  match lead with
  | none => Text.trimEnd ("//" ++ t.drop 1)
  | some lead => Text.trimEnd (lead ++ Text.trimStart (t.drop 1))

/-- A comment card that is not yet a comment of the output. -/
def isRaw (l : Line) : Bool := l.shape == .comment && !Statement.isSlashComment l.text

/-- The indent of the first statement. -/
def firstIndent (lines : List Line) : Option Text :=
  (lines.find? fun l => !l.shape.isSilent).map (·.text.indent)

/-- Reflows the comments of a list of lines that follows a statement with the given indent. -/
def reflowLines (before : Option Text) : List Line → List Line
  | [] => []
  | l :: ls =>
    if isRaw l then
      { l with text := reflow l.text (lead before (firstIndent ls)) } :: reflowLines before ls
    else l :: reflowLines (if l.shape.isSilent then before else some l.text.indent) ls

/-- The whole stage. -/
def run (b : Buffer) : Buffer := { b with lines := reflowLines none b.lines }

end FixedForm.Remark
