import FixedForm.Text.Basic

/-!
Options of a conversion.  They change what is written and not what is found out about a unit.
-/

namespace FixedForm

/-- Where forward declarations stand. -/
inductive Placement where
  | trailing | leading
  deriving DecidableEq, Repr

namespace Placement

def name : Placement → Text
  | .trailing => "trailing"
  | .leading => "leading"

def ofName? (name : Text) : Option Placement :=
  [Placement.trailing, .leading].find? fun p => p.name == name

end Placement

structure Options where
  simplifySubscripts : Bool := true
  emitPreamble : Bool := true
  emitIndexReport : Bool := true
  declarationPlacement : Placement := .trailing
  includes : List Text := ["cstddef", "algorithm", "cmath", "complex"]
  deriving DecidableEq, Repr

/-- Options that are given, from one source. -/
structure GivenOptions where
  simplifySubscripts : Option Bool := none
  emitPreamble : Option Bool := none
  emitIndexReport : Option Bool := none
  declarationPlacement : Option Placement := none
  includes : Option (List Text) := none
  deriving DecidableEq, Repr

namespace Options

def override (o : Options) (given : GivenOptions) : Options where
  simplifySubscripts := given.simplifySubscripts.getD o.simplifySubscripts
  emitPreamble := given.emitPreamble.getD o.emitPreamble
  emitIndexReport := given.emitIndexReport.getD o.emitIndexReport
  declarationPlacement := given.declarationPlacement.getD o.declarationPlacement
  includes := given.includes.getD o.includes

/-- The defaults, overridden by each source in turn. -/
def resolve (sources : List GivenOptions) : Options := sources.foldl override {}

end Options

end FixedForm
