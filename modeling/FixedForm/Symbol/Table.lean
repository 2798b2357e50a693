import FixedForm.Symbol.Basic
import FixedForm.Text.Case

/-!
The symbol table of a unit.  Names are held in lower case, and the first declaration of a name stays.
-/

namespace FixedForm

/-- The symbols in the order in which they were declared. -/
structure SymbolTable where
  entries : List Symbol := []
  deriving DecidableEq, Repr

namespace SymbolTable

def lookup? (table : SymbolTable) (name : Text) : Option Symbol :=
  table.entries.find? fun s => s.name == name.lower

def has (table : SymbolTable) (name : Text) : Bool := (table.lookup? name).isSome

/-- Adds a symbol unless its name is taken. -/
def declare (table : SymbolTable) (symbol : Symbol) : SymbolTable :=
  if table.has symbol.name then table
  else ⟨table.entries ++ [{ symbol with name := symbol.name.lower }]⟩

def isArray (table : SymbolTable) (name : Text) : Bool :=
  ((table.lookup? name).map (·.kind.isArray)).getD false

/-- The symbol of an array. -/
def array? (table : SymbolTable) (name : Text) : Option Symbol :=
  (table.lookup? name).filter (·.kind.isArray)

/-- A scalar that may be called.  Before a parenthesis, a character scalar is a substring. -/
def isCallable (table : SymbolTable) (name : Text) : Bool :=
  ((table.lookup? name).map fun s => s.kind == .scalar && s.baseType != some .character).getD false

/-- Changes the symbol of a name. -/
def modify (table : SymbolTable) (name : Text) (f : Symbol → Symbol) : SymbolTable :=
  ⟨table.entries.map fun s => if s.name == name.lower then f s else s⟩

def isUnknown (table : SymbolTable) (name : Text) : Bool :=
  ((table.lookup? name).map (·.kind == .unknown)).getD false

/-- Gives a symbol of unknown kind its kind, type and extents.  Other symbols stay. -/
def classify (table : SymbolTable) (name : Text) (kind : Kind) (baseType : Option BaseType)
    (dimensions : List Text) : SymbolTable :=
  if table.isUnknown name then table.modify name fun s => { s with kind, baseType, dimensions }
  else table

end SymbolTable

end FixedForm
