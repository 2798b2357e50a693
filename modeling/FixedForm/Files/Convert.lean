import FixedForm.Conversion
import FixedForm.Files.Tree

/-!
Conversion of files.
-/

namespace FixedForm

/-- Converts the file at a path; the one error is that it cannot be read. -/
def Conversion.ofFile (t : Tree) (options : Options) (p : Text) : Except Text Conversion :=
  match t.read p with
  | .ok source => .ok (.ofSource options source)
  | .error reason => .error ("Could not open " ++ p ++ ": " ++ reason)

end FixedForm
