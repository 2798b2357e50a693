import FixedForm.Text.Basic

/-!
Symbols: what a unit says about its names.
-/

namespace FixedForm

inductive Kind where
  | scalar | vector | matrix | parameter | subroutine | function | unknown
  deriving DecidableEq, Repr

namespace Kind

def all : List Kind := [.scalar, .vector, .matrix, .parameter, .subroutine, .function, .unknown]

def name : Kind → Text
  | .scalar => "scalar"
  | .vector => "vector"
  | .matrix => "matrix"
  | .parameter => "parameter"
  | .subroutine => "subroutine"
  | .function => "function"
  | .unknown => "unknown"

def ofName? (name : Text) : Option Kind := all.find? fun k => k.name == name

def isArray : Kind → Bool
  | .vector | .matrix => true
  | _ => false

end Kind

/-- The types of the language, each under its one-word name. -/
inductive BaseType where
  | logical | character | integer | ftnlen | doubleprecision | doublecomplex
  deriving DecidableEq, Repr

namespace BaseType

def all : List BaseType :=
  [.logical, .character, .integer, .ftnlen, .doubleprecision, .doublecomplex]

def name : BaseType → Text
  | .logical => "logical"
  | .character => "character"
  | .integer => "integer"
  | .ftnlen => "ftnlen"
  | .doubleprecision => "doubleprecision"
  | .doublecomplex => "doublecomplex"

def ofName? (name : Text) : Option BaseType := all.find? fun b => b.name == name

/-- The type in the output. -/
def target : BaseType → Text
  | .logical => "bool"
  | .character => "char"
  | .integer => "int"
  | .ftnlen => "size_t"
  | .doubleprecision => "double"
  | .doublecomplex => "std::complex<double>"

/-- The type word that a text starts with, and what follows it. -/
def lead? (t : Text) : Option (BaseType × Text) :=
  all.findSome? fun b => (Text.after? b.name t).map fun rest => (b, rest)

end BaseType

/-- Stands for a type that nothing declares. -/
def unknownType : Text := "unknown_type"

def targetType (base : Option BaseType) : Text := (base.map BaseType.target).getD unknownType

structure Symbol where
  name : Text
  kind : Kind
  baseType : Option BaseType := none
  /-- The extents of an array, as written. -/
  dimensions : List Text := []
  isArgument : Bool := false
  /-- The value of a named constant. -/
  constant : Option Text := none
  /-- The number of characters that a text takes, with its terminator. -/
  storage : Option Text := none
  deriving DecidableEq, Repr

end FixedForm
