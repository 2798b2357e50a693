import FixedForm.Diagnostic.Basic
import FixedForm.Line.Buffer
import FixedForm.Options
import FixedForm.Procedure
import FixedForm.Symbol.Table

/-!
What is known about a unit while it is converted.
-/

namespace FixedForm

structure Analysis where
  options : Options := {}
  symbols : SymbolTable := {}
  diagnostics : List Diagnostic := []
  /-- The values of named constants. -/
  constants : Assoc Text := []
  /-- Forward declarations and inline functions, in the order in which they were settled. -/
  declarations : List Text := []
  /-- References that need a second look. -/
  review : List Text := []
  /-- Names from EXTERNAL statements. -/
  externals : List Text := []
  procedure : Option Procedure := none
  deriving DecidableEq, Repr

namespace Analysis

/-- The name in generated labels. -/
def unitName (a : Analysis) : Text := (a.procedure.map (·.name)).getD "unit"

/-- Notes an issue at a line.  An ambiguous reference is also put up for review. -/
def report (a : Analysis) (line : Option Nat) (issue : Issue) : Analysis :=
  { a with
    diagnostics := Diagnostic.add a.diagnostics (.ofIssue line issue)
    review := match issue with
      | .ambiguous reference _ => addOnce a.review reference
      | _ => a.review }

def reportAll (a : Analysis) (line : Option Nat) (issues : List Issue) : Analysis :=
  issues.foldl (fun a issue => a.report line issue) a

end Analysis

end FixedForm
