import FixedForm.Assoc
import FixedForm.Statement.Header

/-!
The procedure that a unit defines, and its first line in the output.
-/

namespace FixedForm

/-- A function defined by one statement `name(params) = body`. -/
structure StatementFunction where
  name : Text
  params : List Text
  body : Text
  deriving DecidableEq, Repr

structure Procedure where
  name : Text
  kind : UnitKind
  arguments : List Text
  /-- How each argument is written in the output. -/
  renderings : Assoc Text := []
  /-- The line of the header. -/
  anchor : Nat
  /-- The card of that line. -/
  origin : Nat := 0
  /-- The end of the unit was not seen yet. -/
  active : Bool := true
  returnType : Option BaseType := none
  functions : Assoc StatementFunction := []
  deriving DecidableEq, Repr

/-- An argument in the output: arrays are pointers, all else is passed by value. -/
def renderParameter (symbol : Option Symbol) (name : Text) : Text :=
  match symbol with
  | none => unknownType ++ " " ++ name
  | some s =>
    match s.kind with
    | .unknown => unknownType ++ " " ++ name
    | .vector | .matrix => targetType s.baseType ++ " *" ++ name
    | _ => targetType s.baseType ++ " " ++ name

namespace Procedure

def parameter (p : Procedure) (argument : Text) : Text :=
  (p.renderings.get? argument).getD (unknownType ++ " " ++ argument)

def result (p : Procedure) : Text :=
  match p.kind with
  | .function => targetType p.returnType
  | .subroutine => "void"

/-- The first line of the procedure. -/
def header (p : Procedure) : Text :=
  p.result ++ " " ++ p.name ++ "(" ++ Text.join ", " (p.arguments.map p.parameter) ++ ")\x7b"

end Procedure

end FixedForm
