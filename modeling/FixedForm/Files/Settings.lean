import FixedForm.Files.Tree
import FixedForm.Settings

/-!
Settings files.
-/

namespace FixedForm

/-- What a settings file gives. -/
structure LoadedSettings where
  options : GivenOptions := {}
  problems : List Text := []
  /-- The path of the file, if there is one. -/
  source : Option Text := none
  deriving DecidableEq, Repr

namespace LoadedSettings

def defaultName : Text := "f77cpp.json"

/-- Stands for the place and kind of a fault in a document. -/
def faultyDocument : Text := "<json error>"

/-- Reads the settings file at a path.  A missing file gives nothing. -/
def load (t : Tree) (p : Text) : LoadedSettings :=
  if t.holds p then
    match t.read p with
    | .error reason => { problems := [p ++ ": " ++ reason], source := some p }
    | .ok content =>
      match Json.parse? content with
      | none => { problems := [p ++ ": " ++ faultyDocument], source := some p }
      | some document =>
        let (options, problems) := Settings.ofJson document
        { options, problems := problems.map fun problem => p ++ ": " ++ problem.message
          source := some p }
  else {}

/-- Reads the settings file of a folder. -/
def find (t : Tree) (folder : Text) : LoadedSettings := load t (Path.join folder defaultName)

end LoadedSettings

end FixedForm
