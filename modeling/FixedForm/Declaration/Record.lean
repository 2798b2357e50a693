import FixedForm.Analysis
import FixedForm.Declaration.Entry

/-!
Declarations of types: what an entry adds to the symbol table, and the line that declares a local
variable in the output.
-/

namespace FixedForm

/-- A type declaration, taken apart. -/
structure Declaration where
  indent : Text
  baseType : BaseType
  /-- The length that the type word gives to texts. -/
  length : Option Text
  /-- The entries. -/
  list : Text
  deriving DecidableEq, Repr

namespace Declaration

/-- A word in parentheses, without the blanks inside, and what follows it. -/
def wordInParens? (t : Text) : Option (Text × Text) := do
  let t ← Text.after? "(" t
  let (word, t) ← Text.word? t.trimStart
  let t ← Text.after? ")" t.trimStart
  some ("(" ++ word ++ ")", t)

/-- The length after a type word, and what follows it. -/
def length? (t : Text) : Option (Text × Text) := do
  let t ← Text.after? "*" t.trimStart
  let t := t.trimStart
  ((Text.after? "(*)" t).map fun rest => (("(*)" : Text), rest)) <|> wordInParens? t <|> t.digits?

def parse? (t : Text) : Option Declaration := do
  let (word, rest) ← Text.word? t.trimStart
  let baseType ← BaseType.ofName? word
  let (length, list) := match length? rest with
    | some (length, rest) => (some length, rest.trimStart)
    | none => (none, rest.trimStart)
  guard !list.hasLineEnd
  some { indent := t.takeWhile isBlank, baseType, length, list }

end Declaration

namespace DeclaredEntry

/-- The kind of a name with so many extents. -/
def kind (e : DeclaredEntry) : Kind :=
  match e.dimensions.length with
  | 0 => .scalar
  | 1 => .vector
  | 2 => .matrix
  | _ => .unknown

def rankIssues (e : DeclaredEntry) : List Issue :=
  if 2 < e.dimensions.length then [.rank e.name e.dimensions.length] else []

/-- The symbol that an entry declares, given the named constants. -/
def symbol (e : DeclaredEntry) (baseType : BaseType) (constants : Assoc Text) : Symbol :=
  let constant := if e.kind == .scalar then constants.get? e.name else none
  { name := e.name
    kind := if constant.isSome then .parameter else e.kind
    baseType := some baseType
    dimensions := e.dimensions
    constant
    storage :=
      if baseType == .character && e.kind != .unknown then characterStorage e.length else none }

end DeclaredEntry

namespace Symbol

/-- The number of elements of an array with literal extents. -/
def size? (s : Symbol) : Option Count :=
  if s.dimensions.all Text.isDigits then
    some (s.dimensions.foldl (fun n d => n.mul (.ofDigits d)) (.finite 1))
  else none

/-- The length of a text that has no place in a pointer. -/
def storageIssues (s : Symbol) : List Issue := s.storage.toList.map (Issue.droppedStorage s.name)

/-- The declaration of a local variable in the output. -/
def localDeclaration (s : Symbol) : Text × List Issue :=
  let type := targetType s.baseType
  let extent : Text := (s.storage.map fun (n : Text) => "[" ++ n ++ "]").getD []
  match s.kind with
  | .parameter => ("const " ++ type ++ " " ++ s.name ++ " = " ++ s.constant.getD [], [])
  | .vector | .matrix =>
    match s.size? with
    | some n => (type ++ " " ++ s.name ++ "[" ++ n.render ++ "]" ++ extent, [])
    | none =>
      (type ++ " *" ++ s.name, .openExtents s.name s.dimensions :: s.storageIssues)
  | _ => (type ++ " " ++ s.name ++ extent, [])

end Symbol

namespace Analysis

/-- The name of the unit, when it is a function, gets its type from a declaration. -/
def isOwnFunction (a : Analysis) (name : Text) : Bool :=
  ((a.symbols.lookup? name).map (·.kind == .function)).getD false &&
    (a.procedure.map (·.name)) == some name

/-- Takes a declared entry into the symbol table, and gives the declaration that a local variable
needs. -/
def record (a : Analysis) (line : Nat) (baseType : BaseType) (e : DeclaredEntry) :
    Analysis × Option Text :=
  let a := a.reportAll line e.rankIssues
  let s := e.symbol baseType a.constants
  if a.isOwnFunction e.name then
    ({ a with symbols := a.symbols.modify e.name fun f => { f with baseType := some baseType } },
      none)
  else if a.symbols.isUnknown e.name then
    let a := { a with symbols := a.symbols.classify e.name s.kind s.baseType s.dimensions }
    (if s.kind == .scalar then a else a.reportAll line s.storageIssues, none)
  else if a.symbols.has e.name then (a.report line (.redeclared e.name), none)
  else
    let (text, issues) := s.localDeclaration
    ({ a with symbols := a.symbols.declare s }.reportAll line issues, some text)

/-- The entries of a declaration, one after the other, with the lines for local variables. -/
def recordAll (a : Analysis) (line : Nat) (d : Declaration) : List Text → Analysis × List Draft
  | [] => (a, [])
  | piece :: pieces =>
    let (entry, issues) := DeclaredEntry.parse piece
    let a := a.reportAll line issues
    match entry with
    | none => recordAll a line d pieces
    | some e =>
      let length := if d.baseType == .character then e.length <|> d.length else e.length
      let (a, text) := a.record line d.baseType { e with length }
      let (a, drafts) := recordAll a line d pieces
      (a, (text.map fun t =>
        { text := d.indent ++ t, shape := .declaration, declares := some e.name }).toList ++ drafts)

/-- A whole declaration. -/
def declare (a : Analysis) (line : Nat) (d : Declaration) : Analysis × List Draft :=
  let (pieces, faults) := d.list.splitCommas
  (a.reportAll line (faults.map .mismatch)).recordAll line d pieces

end Analysis

end FixedForm
