import FixedForm.Call.Site
import FixedForm.Intrinsic
import FixedForm.Reference.Linearize

/-!
Resolution of calls.  Each called name is resolved once, from its first site: a procedure argument
becomes a pointer to a function in the header, a statement function becomes an inline function, and
any other name gets a forward declaration.
-/

namespace FixedForm.Resolution

/-- The first site of each called name, for subroutines and for functions. -/
structure Sites where
  subroutines : Assoc CallSite := []
  functions : Assoc CallSite := []
  deriving DecidableEq, Repr

def addFirst (sites : Assoc CallSite) (site : CallSite) : Assoc CallSite :=
  if sites.has site.name then sites else sites.put site.name site

/-- Lines that may hold calls. -/
def holdsCalls : Shape → Bool
  | .loop | .conditional | .call | .returns | .assignment | .other => true
  | _ => false

/-- Takes the calls of a line.  The literals of a line with calls become double-quoted. -/
def collect (symbols : SymbolTable) (sites : Sites) (line : Line) : Sites × List Entry :=
  if holdsCalls line.shape then
    let call := CallSite.dropCall? line.id line.text
    let text := (call.map Prod.fst).getD line.text
    let references := CallSite.references symbols line.id text
    let sites : Sites :=
      { subroutines := (call.map Prod.snd).toList.foldl addFirst sites.subroutines
        functions := references.foldl addFirst sites.functions }
    let text := if call.isSome || !references.isEmpty then Quote.toDouble text else text
    (sites, [.kept { line.toDraft with text }])
  else (sites, [.kept line.toDraft])

/-- The inline definition of a statement function. -/
def inlineFunction (a : Analysis) (f : StatementFunction) (types : List Text) (result : Text)
    (line : Nat) : Analysis :=
  if types.length != f.params.length then
    a.report line (.arity f.name f.params.length types.length)
  else
    let params := (types.zip f.params).map fun (type, name) => Argument.named type name
    let (a, body) := a.linearize none f.body
    { a with
      declarations := a.declarations ++ ["static inline " ++ result ++ " " ++ f.name ++ "(" ++
        Text.join ", " params ++ ")\x7b return " ++ Intrinsic.replace body ++ "; \x7d"] }

/-- `extern name` alone on a line. -/
def isExternOf (name t : Text) : Bool :=
  (((Text.after? "extern" t.trimStart).bind Text.blanks?).map Text.trimEnd) == some name

/-- An argument of the unit that is called becomes a pointer to a function. -/
def pointTo (p : Procedure) (name result : Text) (types : List Text) : Procedure :=
  { p with
    renderings := p.renderings.put name
      (result ++ " (*" ++ name ++ ")(" ++ Text.join ", " types ++ ")") }

/-- Resolves the name of a site. -/
def resolve (a : Analysis) (b : Buffer) (site : CallSite) (result : Text) : Analysis × Buffer :=
  let types := site.args.map (Argument.type a.symbols)
  let b := b.remove fun l => l.shape == .external && isExternOf site.name l.text
  match a.procedure.filter (·.arguments.contains site.name) with
  | some p =>
    let p := pointTo p site.name result types
    ({ a with procedure := some p }, b.modify p.anchor fun d => { d with text := p.header })
  | none =>
    match a.procedure.bind (·.functions.get? site.name) with
    | some f => (inlineFunction a f types result site.line, b)
    | none =>
      ({ a with
        declarations := a.declarations ++
          [result ++ " " ++ site.name ++ "(" ++ Text.join ", " types ++ ");"] }, b)

/-- Resolves a function, whose local declaration goes away. -/
def resolveFunction (a : Analysis) (b : Buffer) (site : CallSite) : Analysis × Buffer :=
  let result := targetType ((a.symbols.lookup? site.name).bind (·.baseType))
  let (a, b) := resolve a b site result
  (a, b.remove fun l => l.shape == .declaration && l.declares == some site.name)

/-- A called name is a subroutine, unless more is known of it. -/
def markSubroutine (symbols : SymbolTable) (name : Text) : SymbolTable :=
  if symbols.has name then symbols.classify name .subroutine none []
  else symbols.declare { name, kind := .subroutine }

def markFunction (symbols : SymbolTable) (name : Text) : SymbolTable :=
  symbols.modify name fun s => { s with kind := .function }

/-- The table after all calls are known. -/
def mark (symbols : SymbolTable) (sites : Sites) : SymbolTable :=
  sites.functions.names.foldl markFunction (sites.subroutines.names.foldl markSubroutine symbols)

/-- The functions that are not called as subroutines too. -/
def functionSites (sites : Sites) : List CallSite :=
  (sites.functions.filter fun (name, _) => !sites.subroutines.has name).map Prod.snd

/-- The whole stage. -/
def run (a : Analysis) (b : Buffer) : Analysis × Buffer :=
  let (sites, b) := b.edit (collect a.symbols) {}
  let (a, b) := (sites.subroutines.map Prod.snd).foldl
    (fun (a, b) site => resolve a b site "void") (a, b)
  let (a, b) := (functionSites sites).foldl (fun (a, b) site => resolveFunction a b site) (a, b)
  ({ a with symbols := mark a.symbols sites }, b)

end FixedForm.Resolution
