import FixedForm.Line.Basic
import FixedForm.Statement.Header
import FixedForm.Statement.Label

/-!
The shape of a statement.  The forms are tried in a fixed order, and the first that fits decides.
-/

namespace FixedForm

namespace Statement

/-- A statement that starts with a whole word. -/
def hasKeyword (word t : Text) : Bool := ((Text.after? word t).map Text.wordEnds).getD false

def isEnd (t : Text) : Bool :=
  match Text.after? "end" t with
  | none => false
  | some t =>
    t.allBlank ||
    match t.blanks?.bind UnitKind.lead? with
    | none => false
    | some (_, t) =>
      t.allBlank ||
      match t.blanks?.bind Text.word? with
      | none => false
      | some (_, t) => t.allBlank

def isParameter (t : Text) : Bool :=
  ((Text.after? "parameter" t).map fun t => Text.startsWith "(" t.trimStart).getD false

/-- `function` comes next, after what a type word may be followed by. -/
def functionFollows (t : Text) : Bool :=
  ((Header.afterType? t).map (hasKeyword "function")).getD false

def isDeclaration (t : Text) : Bool :=
  match BaseType.lead? t with
  | none => false
  | some (_, t) => t.wordEnds && !functionFollows t

/-- `end` and a second word, and what follows them. -/
def endOf? (word t : Text) : Option Text := do
  let t ← Text.after? "end" t
  let t ← t.blanks?
  Text.after? word t

def isLoopEnd (t : Text) : Bool :=
  [Text.after? "enddo" t, endOf? "do" t, Text.after? "continue" t].any fun rest =>
    (rest.map Text.allBlank).getD false

def isLoop (t : Text) : Bool :=
  match Text.after? "do" t with
  | none => false
  | some t => t.wordEnds && !Text.startsWith "=" t.trimStart

def isConditional (t : Text) : Bool :=
  ((Text.after? "if" t).map fun t => Text.startsWith "(" t.trimStart).getD false ||
  hasKeyword "else" t || hasKeyword "elseif" t || hasKeyword "endif" t ||
  ((endOf? "if" t).map Text.wordEnds).getD false ||
  ((Text.after? "\x7d" t).map fun t => Text.startsWith "else" t.trimStart).getD false

/-- `go to`, with or without blanks between, and what follows it. -/
def afterGoto? (t : Text) : Option Text := do
  let t ← Text.after? "go" t
  Text.after? "to" t.trimStart

def isGoto (t : Text) : Bool := ((afterGoto? t).map Text.wordEnds).getD false

def isCall (t : Text) : Bool :=
  (((Text.after? "call" t).bind Text.blanks?).bind Text.word?).isSome

/-- An `=` that is no comparison. -/
def startsAssign : Text → Bool
  | '=' :: t => !Text.startsWith "=" t
  | _ => false

def isAssignment (t : Text) : Bool :=
  match t.word? with
  | none => false
  | some (_, t) =>
    match t.trimStart with
    | '(' :: t =>
      let (index, rest) := t.span (· != '=')
      (Text.trimEnd index).getLast? == some ')' && startsAssign rest
    | t => startsAssign t

/-- The forms of statements, in the order in which they are tried. -/
def forms : List (Shape × (Text → Bool)) := [
  (.header, fun t => (Header.parse? t).isSome),
  (.unitEnd, isEnd),
  (.parameter, isParameter),
  (.external, hasKeyword "external"),
  (.intrinsic, hasKeyword "intrinsic"),
  (.implicit, hasKeyword "implicit"),
  (.declaration, isDeclaration),
  (.loopEnd, isLoopEnd),
  (.loop, isLoop),
  (.conditional, isConditional),
  (.goto, isGoto),
  (.call, isCall),
  (.returns, hasKeyword "return"),
  (.assignment, isAssignment)]

def shape (statement : Text) : Shape :=
  ((forms.find? fun (_, fits) => fits statement).map Prod.fst).getD .other

/-- Statements with no counterpart in the output, but `block data`. -/
def unsupportedWords : List Text := [
  "common", "equivalence", "data", "save", "dimension", "read", "write", "print", "format", "open",
  "close", "inquire", "rewind", "backspace", "endfile", "stop", "pause", "entry", "namelist",
  "include", "program", "assign"]

/-- `block data`, with or without blanks between. -/
def blockData? (t : Text) : Option Text := do
  let t ← Text.after? "block" t
  guard (hasKeyword "data" t.trimStart)
  some ("block" ++ t.takeWhile isBlank ++ "data")

/-- The word or words that mark a statement as one with no counterpart. -/
def unsupported? (t : Text) : Option Text :=
  unsupportedWords.find? (hasKeyword · t) <|> blockData? t

/-- A label of the output on a line of its own. -/
def isLabelLine (t : Text) : Bool :=
  match t.word? with
  | some (w, ':' :: rest) =>
    let (unit, digits) := w.spanEnd Char.isDigit
    Text.allBlank rest && !digits.isEmpty && 2 < unit.length &&
      (Text.afterFold? "l_" unit.reverse).isSome
  | _ => false

/-- A comment of the output. -/
def isSlashComment (t : Text) : Bool := Text.startsWith "//" t.trimStart

/-- The shape of a line, and its statement label. -/
def classify (t : Text) : Shape × Option Text :=
  if t.allBlank then (.blank, none)
  else if isSlashComment t then (.comment, none)
  else if isLabelLine t.trim then (.label, none)
  else
    let line := Labelled.split t
    (shape line.statement, line.label)

end Statement

/-- The line with the shape and the label that its text gives it.  Comments stay comments. -/
def Draft.classify (d : Draft) : Draft :=
  if d.shape == .comment then d
  else
    let (shape, label) := Statement.classify d.text
    { d with shape, label }

end FixedForm
