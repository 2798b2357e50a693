import FixedForm.Declaration.Constant
import FixedForm.Declaration.Names
import FixedForm.Declaration.Record
import FixedForm.Statement.Shape
import FixedForm.Vocabulary

/-!
Inference: what the statements of a unit say about its names.  The header opens the unit,
declarations fill the symbol table, and `end` closes it.
-/

namespace FixedForm.Inference

/-- The column where statements of a body start. -/
def bodyIndent : Text := "      "

/-- The line as a comment of the output. -/
def commentOut (line : Line) : Entry :=
  .fresh { text := line.text.indent ++ "// " ++ line.text.trim, shape := .comment }

/-- Takes the values of a PARAMETER statement, which becomes a comment. -/
def collectConstants (a : Analysis) (line : Line) : Analysis × List Entry :=
  if line.shape != .parameter then (a, [.kept line.toDraft])
  else
    match Constants.statement? line.text with
    | none => (a.report line.id .unclosedConstants, [.kept line.toDraft])
    | some (indent, list) =>
      ({ a with constants := a.constants.putAll (Constants.parse list) },
        [.kept { line.toDraft with
          text := indent ++ "// " ++ line.text.trim, shape := .comment }])

/-- The arguments of a header, without empty ones. -/
def arguments (h : Header) : List Text :=
  (Text.listItems (h.arguments.getD [])).filter fun arg => !arg.isEmpty

/-- The parenthesis of a header that has one is not closed. -/
def isUnclosed (h : Header) (statement : Text) : Bool :=
  h.arguments.isSome && statement.closing?.isNone

/-- The symbols that a header declares: the unit's own name and its arguments. -/
def headerSymbols (h : Header) : List Symbol :=
  { name := h.name
    kind := match h.kind with
      | .function => .function
      | .subroutine => .subroutine
    baseType := h.baseType } ::
  (arguments h).map fun arg => { name := arg, kind := .unknown, isArgument := true }

/-- The first header opens the unit. -/
def openUnit (a : Analysis) (line : Line) : Analysis :=
  let statement := statementOf line.text
  match Header.parse? statement with
  | none => a
  | some h =>
    if a.procedure.isSome then a.report line.id .laterUnit
    else
      let a := if isUnclosed h statement then a.report line.id (.unclosedHeader h.name) else a
      { a with
        procedure := some {
          name := h.name, kind := h.kind, arguments := arguments h, anchor := line.id
          origin := line.origin, returnType := h.baseType }
        symbols := (headerSymbols h).foldl SymbolTable.declare a.symbols }

def isFunctionUnit (a : Analysis) : Bool :=
  (a.procedure.map (·.kind == .function)).getD false

/-- The lines in place of `end`: the closing brace, and before it in a function the return of its
result, unless the statement before returns already.  A label goes to the first of them. -/
def endLines (a : Analysis) (previous : Option Shape) (text : Text) : List Draft :=
  let line := Labelled.split text
  let indent := if line.label.isSome then Text.spaces line.columns.length else text.indent
  let returns :=
    if isFunctionUnit a && (line.label.isSome || previous != some .returns) then
      [{ text := indent ++ "return " ++ a.unitName, shape := .returns : Draft }]
    else []
  let drafts := returns ++ [{ text := indent ++ "\x7d", shape := .other }]
  if line.label.isSome then
    match drafts with
    | [] => []
    | d :: ds => { d with text := line.columns ++ d.text.trimStart } :: ds
  else drafts

/-- A `return` at the end of a line returns the result of the function. -/
def returnResult (name text : Text) : Text :=
  let t := text.trimEnd
  match Text.after? "nruter" t.reverse with
  | some before => if before.wordEnds then before.reverse ++ "return " ++ name else text
  | none => text

/-- `external` with its names: the blanks before it, and the names. -/
def externalNames? (text : Text) : Option (Text × List Text) := do
  let rest ← Text.after? "external" text.trimStart
  let list ← rest.blanks?
  guard !list.hasLineEnd
  some (text.takeWhile isBlank, (Text.listItems list).filter Text.isWordText)

/-- A statement function: a callable scalar with parameters, an `=` and a body. -/
def statementFunction? (a : Analysis) (text : Text) : Option StatementFunction := do
  let (name, rest) ← Text.word? text.trimStart
  let rest := rest.trimStart
  guard (a.procedure.isSome && Text.startsWith "(" rest && a.symbols.isCallable name)
  let closing ← rest.closing?
  let assign := Text.trimStart (rest.drop (closing + 1))
  guard (Statement.startsAssign assign)
  some { name, params := Text.listItems ((rest.take closing).drop 1)
         body := Text.trim (assign.drop 1) }

def addFunction (p : Procedure) (f : StatementFunction) : Procedure :=
  { p with functions := p.functions.put f.name f }

def closeUnit (p : Procedure) : Procedure := { p with active := false }

def isImplicitNone (statement : Text) : Bool :=
  (((Text.after? "implicit" statement).bind Text.blanks?).bind (Text.after? "none")).any
    Text.allBlank

/-- What a line says, and the lines in its place.  `previous` is the shape of the last statement. -/
def inferLine (a : Analysis) (previous : Option Shape) (line : Line) : Analysis × List Entry :=
  let keep := [Entry.kept line.toDraft]
  match line.shape with
  | .header => (openUnit a line, keep)
  | .unitEnd =>
    ({ a with procedure := a.procedure.map closeUnit },
      (endLines a previous line.text).map .fresh)
  | .declaration =>
    match Declaration.parse? line.text with
    | none => (a, keep)
    | some d =>
      let (a, drafts) := a.declare line.id d
      (a, drafts.map .fresh)
  | .external =>
    match externalNames? line.text with
    | none => (a, keep)
    | some (indent, names) =>
      ({ a with externals := names.foldl addOnce a.externals },
        names.map fun n => .fresh { text := indent ++ "extern " ++ n, shape := .external })
  | .intrinsic => (a, [])
  | .implicit =>
    if isImplicitNone (statementOf line.text) then (a, [])
    else (a.report line.id .implicitRules, [commentOut line])
  | .assignment =>
    match statementFunction? a line.text with
    | none => (a, keep)
    | some f =>
      ({ a with procedure := a.procedure.map (addFunction · f) }, [commentOut line])
  | .returns | .conditional =>
    if isFunctionUnit a then
      (a, [.kept { line.toDraft with text := returnResult a.unitName line.text }])
    else (a, keep)
  | .other =>
    match Statement.unsupported? (statementOf line.text) with
    | none => (a, keep)
    | some words =>
      (a.report line.id (.unsupported (words.map Char.toUpper)), [commentOut line])
  | _ => (a, keep)

/-- `inferLine`, carrying the shape of the last statement along. -/
def step (s : Analysis × Option Shape) (line : Line) : (Analysis × Option Shape) × List Entry :=
  let (a, entries) := inferLine s.1 s.2 line
  ((a, if line.shape.isSilent then s.2 else some line.shape), entries)

/-- Lines whose names are looked up. -/
def usesNames : Shape → Bool
  | .loop | .conditional | .goto | .call | .returns | .assignment | .other => true
  | _ => false

def isKnown (a : Analysis) (name : Text) : Bool :=
  a.symbols.has name || isReserved name || a.externals.contains name || a.constants.has name

/-- Reports each of the names at its first use only. -/
def reportNames (line : Nat) (s : Analysis × List Text) (names : List Text) :
    Analysis × List Text :=
  names.foldl (fun (a, seen) name =>
    if seen.contains name || isKnown a name then (a, seen)
    else (a.report line (.undeclaredName name), seen ++ [name])) s

/-- Reports the names that are used and never declared. -/
def reportUndeclared (a : Analysis) (lines : List Line) : Analysis :=
  (lines.foldl (fun s line =>
    if usesNames line.shape then reportNames line.id s (Names.plain (statementOf line.text))
    else s) (a, [])).1

/-- Settles how the arguments are written. -/
def settleArgument (a : Analysis) (p : Procedure) (arg : Text) : Analysis × Procedure :=
  let symbol := a.symbols.lookup? arg
  let undeclared := (symbol.map (·.kind == .unknown)).getD true && !a.externals.contains arg
  (if undeclared then a.report p.anchor (.undeclaredArgument arg) else a,
    { p with renderings := p.renderings.put arg (renderParameter symbol arg) })

/-- The type of a function is that of its header or else that of its own declaration. -/
def settleResult (a : Analysis) (p : Procedure) : Analysis × Procedure :=
  match p.kind with
  | .subroutine => (a, p)
  | .function =>
    let returnType := p.returnType <|> (a.symbols.lookup? p.name).bind (·.baseType)
    (if returnType.isNone then a.report p.anchor (.untypedFunction p.name) else a,
      { p with returnType })

/-- The lines that follow the header. -/
def openingLines (p : Procedure) : List Draft :=
  { text := bodyIndent ++ "using namespace std", shape := .other } ::
  match p.kind with
  | .subroutine => []
  | .function =>
    [{ text := bodyIndent ++ targetType p.returnType ++ " " ++ p.name, shape := .declaration }]

def unitLine (p : Procedure) : Line :=
  { text := p.header, shape := .header, id := p.anchor, origin := p.origin }

/-- Writes the header when all declarations are known. -/
def finishUnit (a : Analysis) (b : Buffer) : Analysis × Buffer :=
  match a.procedure with
  | none => (a, b)
  | some p =>
    let a := if p.active then a.report p.anchor (.noEnd p.name) else a
    let p := closeUnit p
    let (a, p) := p.arguments.foldl (fun (a, p) arg => settleArgument a p arg) (a, p)
    let (a, p) := settleResult a p
    let b := b.modify p.anchor fun d => { d with text := p.header }
    ({ a with procedure := some p }, b.insertAfter (unitLine p) (openingLines p))

/-- Constants that no declaration gives a type. -/
def reportUntyped (a : Analysis) : Analysis :=
  a.reportAll none
    ((a.constants.names.filter fun n => !a.symbols.has n).map Issue.untypedConstant)

/-- The whole stage. -/
def run (a : Analysis) (b : Buffer) : Analysis × Buffer :=
  let (a, b) := b.edit collectConstants a
  let ((a, _), b) := b.edit step (a, none)
  let a := reportUndeclared a b.lines
  let (a, b) := finishUnit a b
  (reportUntyped a, b)

end FixedForm.Inference
