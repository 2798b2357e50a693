import FixedForm.Files.Path
import FixedForm.Text.Units

/-!
Folder trees: named files with their contents, and named folders.  A tree holds the entries that paths
start with, but not the working folder itself.
-/

namespace FixedForm

inductive Tree where
  | file (name content : Text)
  | folder (name : Text) (entries : List Tree)
  deriving Repr, Inhabited

/-- Why a file or folder cannot be used. -/
inductive FileFault where
  | missing | notFolder | isFolder | taken
  deriving DecidableEq, Repr

def FileFault.message : FileFault → Text
  | .missing => "ENOENT: no such file or directory"
  | .notFolder => "ENOTDIR: not a directory"
  | .isFolder => "EISDIR: illegal operation on a directory"
  | .taken => "EEXIST: file already exists"

/-- A fault in an operation on a path. -/
def FileFault.at (fault : FileFault) (operation p : Text) : Text :=
  fault.message ++ ", " ++ operation ++ " '" ++ p ++ "'"

/-- What stands at a path. -/
inductive Found where
  | missing
  /-- A file stands where the path needs a folder. -/
  | notFolder
  | file (content : Text)
  | folder (entries : List Tree)

namespace Tree

def name : Tree → Text
  | .file name _ => name
  | .folder name _ => name

def look : List Text → Tree → Found
  | [], .file _ content => .file content
  | [], .folder _ entries => .folder entries
  | _ :: _, .file _ _ => .notFolder
  | n :: ns, .folder _ entries =>
    match entries.find? fun e => e.name == n with
    | none => .missing
    | some e => look ns e

/-- What stands at a path.  A slash at its end asks for a folder. -/
def find (t : Tree) (p : Text) : Found :=
  match t.look (Path.absolute p) with
  | .file content => if p.getLast? == some '/' then .notFolder else .file content
  | found => found

def holds (t : Tree) (p : Text) : Bool :=
  match t.find p with
  | .file _ | .folder _ => true
  | _ => false

/-- The content of a file. -/
def read (t : Tree) (p : Text) : Except Text Text :=
  match t.find p with
  | .file content => .ok content
  | .folder _ => .error (FileFault.isFolder.message ++ ", read")
  | .missing => .error (FileFault.missing.at "open" p)
  | .notFolder => .error (FileFault.notFolder.at "open" p)

/-- The entries of a folder. -/
def list (t : Tree) (p : Text) : Except Text (List Tree) :=
  match t.find p with
  | .folder entries =>
    if (Path.absolute p).isEmpty then .error (FileFault.missing.at "scandir" p) else .ok entries
  | .missing => .error (FileFault.missing.at "scandir" p)
  | .file _ | .notFolder => .error (FileFault.notFolder.at "scandir" p)

/-- A file in folders that are new. -/
def grow (content : Text) : Text → List Text → Tree
  | name, [] => .file name content
  | name, n :: ns => .folder name [grow content n ns]

/-- Puts a file at a path, with the folders it needs.  What is no file or folder of that path
stays. -/
def put (content : Text) : List Text → Tree → Tree
  | [], .file name _ => .file name content
  | [], t => t
  | _ :: _, .file name old => .file name old
  | n :: ns, .folder name entries =>
    if entries.any fun e => e.name == n then
      .folder name (entries.map fun e => if e.name == n then put content ns e else e)
    else .folder name (entries ++ [grow content n ns])

/-- An empty folder at a path. -/
def putFolder : List Text → Tree → Tree
  | [], t => t
  | _ :: _, .file name old => .file name old
  | n :: ns, .folder name entries =>
    if entries.any fun e => e.name == n then
      .folder name (entries.map fun e => if e.name == n then putFolder ns e else e)
    else .folder name (entries ++ [putFolder ns (.folder n [])])

/-- Writes a file; the folders above it are made where they are missing. -/
def write (t : Tree) (p content : Text) : Except Text Tree :=
  let folder := Path.folderOf p
  match t.find folder with
  | .notFolder => .error (FileFault.notFolder.at "mkdir" folder)
  | .file _ => .error (FileFault.taken.at "mkdir" folder)
  | _ =>
    match t.find p with
    | .folder _ => .error (FileFault.isFolder.at "open" p)
    | .notFolder => .error (FileFault.notFolder.at "open" p)
    | _ => .ok (t.put content (Path.absolute p))

mutual

/-- The files of a tree, each with its names from the top. -/
def files : Tree → List (List Text × Text)
  | .file name content => [([name], content)]
  | .folder name entries => (filesOf entries).map fun (ns, content) => (name :: ns, content)

def filesOf : List Tree → List (List Text × Text)
  | [] => []
  | e :: es => files e ++ filesOf es

end

/-- The files of a folder that another tree does not hold with the same content, by path below the
folder and in order. -/
def changes (before after : Tree) (folder : Text) : List (Text × Text) :=
  match after.find folder with
  | .folder entries =>
    let changed := (filesOf entries).filter fun (ns, content) =>
      match before.look (Path.absolute folder ++ ns) with
      | .file old => old != content
      | _ => true
    (changed.map fun (ns, content) => (Path.ofNames ns, content)).mergeSort fun a b =>
      Text.le a.1 b.1
  | _ => []

end Tree

end FixedForm
