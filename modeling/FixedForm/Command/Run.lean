import FixedForm.Command.Arguments
import FixedForm.Files.Convert
import FixedForm.Files.Harvest
import FixedForm.Files.Settings

/-!
The command: converts one file, or every source below a folder.  Only files that cannot be read or
written make it fail; what is wrong with a source is written into the output.
-/

namespace FixedForm

/-- What a command has done so far. -/
structure Outcome where
  tree : Tree
  stdout : Text := []
  stderr : Text := []
  exit : Nat := 0

namespace Outcome

def say (o : Outcome) (message : Text) : Outcome :=
  { o with stdout := o.stdout ++ message ++ "\n" }

def warn (o : Outcome) (message : Text) : Outcome :=
  { o with stderr := o.stderr ++ message ++ "\n" }

/-- Progress, unless the command is quiet. -/
def log (o : Outcome) (quiet : Bool) (message : Text) : Outcome :=
  if quiet then o else o.say message

def fail (o : Outcome) (message : Text) : Outcome :=
  { o.warn ("❌ f77cpp failed: " ++ message) with exit := 1 }

end Outcome

namespace Command

/-- One line about a conversion. -/
def summarize (o : Outcome) (quiet : Bool) (c : Conversion) (label : Text) : Outcome :=
  let notes := c.diagnostics.length - c.warnings
  if 0 < c.warnings then
    o.warn ("⚠️  " ++ label ++ ": " ++ Issue.number c.warnings ++ " warning(s), " ++
      Issue.number notes ++ " note(s) written into the output")
  else
    o.log quiet ("✅ " ++ label ++ ": translated " ++ c.unitName.getD "unit" ++ " (" ++
      Issue.number notes ++ " note(s))")

/-- Converts one file to a second one, or to the standard output. -/
def single (o : Outcome) (cwd : Text) (quiet : Bool) (options : Options) (file : Text)
    (out : Option Given) : Outcome :=
  let input := Path.resolve cwd file
  match Conversion.ofFile o.tree options input with
  | .error message => o.fail message
  | .ok c =>
    match out.map Given.path with
    | none => { o with stdout := o.stdout ++ c.text }
    | some (.error message) => o.fail message
    | some (.ok out) =>
      let target := Path.resolve cwd out
      match o.tree.write target c.text with
      | .error message => o.fail message
      | .ok tree =>
        (summarize { o with tree } quiet c (Path.fileName input)).log quiet
          ("   ↳ File path: " ++ target)

/-- Where the conversion of a source below `root` is written. -/
def target (root : Text) (outDir : Option Text) (file : Text) : Text :=
  Path.join (outDir.getD root) (Path.withExtension "cpp" (Path.relative root file))

/-- Converts one source of a folder.  The number counts failures. -/
def batchFile (root : Text) (outDir : Option Text) (quiet : Bool) (options : Options)
    (s : Outcome × Nat) (file : Text) : Outcome × Nat :=
  let (o, failures) := s
  let relative := Path.relative root file
  let converted : Except Text (Conversion × Tree) := do
    let c ← Conversion.ofFile o.tree options file
    let tree ← o.tree.write (target root outDir file) c.text
    return (c, tree)
  match converted with
  | .ok (c, tree) => (summarize { o with tree } quiet c relative, failures)
  | .error message => (o.warn ("⚠️  " ++ relative ++ ": " ++ message ++ ". Skipping."), failures + 1)

/-- Converts every source below a folder. -/
def batch (reader : Harvest.PatternReader) (o : Outcome) (quiet : Bool) (options : Options)
    (root : Text) (outDir : Option Text) (extensions : List Text) : Outcome :=
  let o := o.log quiet (Text.ofString "🔍 Collecting sources under " ++ root ++ "…")
  match Harvest.collectBy reader o.tree root { extensions } with
  | .error fault => o.fail fault.message
  | .ok [] =>
    o.fail ("No sources with extension " ++ Text.join ", " extensions ++ " found under " ++ root)
  | .ok files =>
    let o := o.log quiet ("➡️  Translating " ++ Issue.number files.length ++ " file(s)")
    let (o, failures) := files.foldl (batchFile root outDir quiet options) (o, 0)
    let o := o.log quiet ("✅ Done: " ++ Issue.number (files.length - failures) ++ " of " ++
      Issue.number files.length ++ " file(s) written.")
    if 0 < failures then { o with exit := 1 } else o

/-- The extensions in a comma-separated list, in lower case and with their points. -/
def extensionList (t : Text) : List Text :=
  (((t.splitOn ',').map fun e => e.trim.lower).filter fun e => !e.isEmpty).map fun e =>
    if Text.startsWith "." e then e else "." ++ e

/-- The path that is given for an option. -/
def path (a : Arguments) (cwd : Text) (s : Setting) : Except Text (Option Text) :=
  match a.counting? s with
  | none => .ok none
  | some given => given.path.map fun p => some (Path.resolve cwd p)

/-- The settings that the arguments ask for, in a folder. -/
def settings (a : Arguments) (t : Tree) (cwd folder : Text) : Except Text LoadedSettings := do
  match ← path a cwd .config with
  | some p => if t.holds p then return .load t p else throw ("Config file not found: " ++ p)
  | none => return .find t folder

def givenOptions (a : Arguments) : GivenOptions where
  simplifySubscripts := (a.value? .simplify).map Given.counts
  declarationPlacement := (a.counting? .leadingDeclarations).map fun _ => .leading

/-- What a batch needs besides its top folder: the extensions, and the folder for the output. -/
def batchArguments (a : Arguments) (cwd : Text) : Except Text (List Text × Option Text) := do
  let extensions ← match a.counting? .extensions with
    | some given => given.list.map extensionList
    | none => .ok ({} : HarvestOptions).extensions
  return (extensions, ← path a cwd .outDir)

/-- Runs the command in a working folder. -/
def run (tree : Tree) (cwd : Text) (args : List Text) : Outcome :=
  let a := Arguments.parse args
  let o : Outcome := { tree }
  match path a cwd .root with
  | .error message => o.fail message
  | .ok root =>
    let out := a.counting? .out
    let quiet := a.value? .quiet == some (.switch true) || (root.isNone && out.isNone)
    match settings a tree cwd (root.getD cwd) with
    | .error message => o.fail message
    | .ok loaded =>
      let o := loaded.problems.foldl (fun o problem => o.warn ("⚠️  " ++ problem)) o
      let options := Options.resolve [loaded.options, givenOptions a]
      match root, a.files.head?.filter fun file => !file.isEmpty with
      | some root, _ =>
        match batchArguments a cwd with
        | .error message => o.fail message
        | .ok (extensions, outDir) => batch IgnoreRule.reader o quiet options root outDir extensions
      | none, none =>
        { o.warn "❌ No input file given. Pass a source file or --root <dir>." with exit := 1 }
      | none, some file => single o cwd quiet options file out

/-- The paths that a command looks at. -/
structure Reads where
  files : List Text
  /-- Folders of which all entries count. -/
  folders : List Text

def reads (cwd : Text) (args : List Text) : Reads :=
  let a := Arguments.parse args
  let path := fun s => (path a cwd s).toOption.join
  let settingsFile := (path .config).getD
    (Path.join ((path .root).getD cwd) LoadedSettings.defaultName)
  { files := settingsFile :: [a.files.head?.map (Path.resolve cwd), path .out].filterMap id
    folders := [path .root, path .outDir].filterMap id }

end Command

end FixedForm
