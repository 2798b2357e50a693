import FixedForm.Files.Ignore
import FixedForm.Files.Tree

/-!
The sources below a folder: all files with one of the given extensions that no ignore rule leaves out.
-/

namespace FixedForm

structure HarvestOptions where
  /-- Files of the top folder that hold ignore patterns. -/
  ignoreFiles : List Text := [".gitignore", ".ignore"]
  /-- Patterns after those of the files. -/
  patterns : List Text :=
    ["dist/", "build/", "node_modules/", ".git/", ".github/", "**/*.log"]
  extensions : List Text := [".f", ".for", ".f77"]
  deriving DecidableEq, Repr

namespace Harvest

/-- The lines of an ignore file that hold a pattern. -/
def patternLines (content : Text) : List Text :=
  ((content.splitOn '\n').map Text.trim).filter fun l => !l.isEmpty && !Text.startsWith "#" l

/-- The patterns for a top folder. -/
def patterns (t : Tree) (top : Text) (o : HarvestOptions) : List Text :=
  let fromFiles := o.ignoreFiles.flatMap fun f =>
    match t.find (Path.join top f) with
    | .file content => patternLines content
    | _ => []
  fromFiles ++ o.patterns

/-- A name of points only is no path from the top folder. -/
def isOnlyPoints (name : Text) : Bool := name.all (· == '.')

/-- The path of an entry from the top folder.  That of a folder ends with a slash. -/
def entryPath (above : List Text) : Tree → Text
  | .file name _ => Path.ofNames (above ++ [name])
  | .folder name _ => Path.ofNames (above ++ [name]) ++ "/"

mutual

/-- The files to keep of an entry in the folder with the given names.  `ignored` says which paths from the
top folder are left out. -/
def entry (ignored : Text → Bool) (keep : Text → Bool) (above : List Text) :
    Tree → List (List Text)
  | .file name content =>
    if !ignored (entryPath above (.file name content)) && keep name then
      [above ++ [name]]
    else []
  | .folder name es =>
    if ignored (entryPath above (.folder name es)) then []
    else entries ignored keep (above ++ [name]) es

def entries (ignored : Text → Bool) (keep : Text → Bool) (above : List Text) :
    List Tree → List (List Text)
  | [] => []
  | e :: es => entry ignored keep above e ++ entries ignored keep above es

end

/-- Why the sources below a folder cannot be collected. -/
inductive Fault where
  | pattern (message : Text)
  | unreadable (top reason : Text)
  /-- The path of an entry that is no path from the top folder. -/
  | path (p : Text)
  deriving DecidableEq, Repr

def Fault.message : Fault → Text
  | .pattern message => message
  | .unreadable top reason => "Cannot read directory " ++ top ++ ": " ++ reason
  | .path p => "path should be a `path.relative()`d string, but got \"" ++ p ++ "\""

/-- The paths of the sources below a top folder, in order, but for those that `ignored` leaves out. -/
def gather (ignored : Text → Bool) (t : Tree) (top : Text) (extensions : List Text) :
    Except Fault (List Text) :=
  match t.list top with
  | .error reason => .error (.unreadable top reason)
  | .ok es =>
    let keep := fun name => extensions.contains (Path.extension name).lower
    let found := entries ignored keep [] es
    .ok ((found.map fun names => Path.join top (Path.ofNames names)).mergeSort Text.le)

/-- The first entry of the top folder that has no path from it. -/
def pathless? (t : Tree) (top : Text) : Option Tree :=
  match t.list top with
  | .error _ => none
  | .ok es => es.find? fun e => isOnlyPoints e.name

/-- How patterns are read: the paths that they leave out, or the message of a fault. -/
abbrev PatternReader := List Text → Except Text (Text → Bool)

/-- The paths of the sources below a top folder, in order, by the patterns for that folder. -/
def collectBy (reader : PatternReader) (t : Tree) (top : Text) (o : HarvestOptions) :
    Except Fault (List Text) :=
  match reader (patterns t top o) with
  | .error message => .error (.pattern message)
  | .ok ignored =>
    match pathless? t top with
    | some e => .error (.path (entryPath [] e))
    | none => gather ignored t top o.extensions

/-- The same by the ignore rules. -/
def collect : Tree → Text → HarvestOptions → Except Fault (List Text) := collectBy IgnoreRule.reader

end Harvest

end FixedForm
