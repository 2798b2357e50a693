import FixedForm.Card
import FixedForm.Output
import FixedForm.Stage

/-!
Conversion of one unit: cards in, the text of a C++ procedure out.  Nothing in a source is an error;
what cannot be converted is reported in the output.
-/

namespace FixedForm

structure Conversion where
  text : Text
  diagnostics : List Diagnostic
  indexVariables : List Text
  /-- The name of the procedure, when there is a header. -/
  unitName : Option Text
  /-- The unit at the end of the last stage. -/
  final : Progress

namespace Conversion

def ofProgress (p : Progress) : Conversion where
  text := Output.render p.analysis p.buffer.lines
  diagnostics := p.analysis.diagnostics
  indexVariables := Output.indexVariables p.analysis.symbols p.buffer.lines
  unitName := p.analysis.procedure.map (·.name)
  final := p

def ofSource (options : Options) (source : Text) : Conversion :=
  ofProgress ((Progress.start options (Card.read source)).runAll Stage.all)

def warnings (c : Conversion) : Nat := c.diagnostics.countP fun d => d.severity == .warning

end Conversion

end FixedForm
