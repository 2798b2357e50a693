import FixedForm.Text.Basic

/-!
Paths.  A path is a text with `/` between its names.  The first name of an absolute path is empty;
all other paths start from the working folder.
-/

namespace FixedForm.Path

def names (p : Text) : List Text := p.splitOn '/'

/-- The folder above; the root is above itself. -/
def up (folder : List Text) : List Text :=
  if folder == [[]] then folder
  else if folder.isEmpty || folder.getLast? == some "..".toList then folder ++ ["..".toList]
  else folder.dropLast

/-- Follows names from a folder. -/
def follow : (folder : List Text) → List Text → List Text
  | folder, [] => folder
  | folder, name :: rest =>
    if name.isEmpty || name == ".".toList then follow folder rest
    else if name == "..".toList then follow (up folder) rest
    else follow (folder ++ [name]) rest

def ofNames (names : List Text) : Text := if names == [[]] then "/" else Text.join "/" names

/-- The names of a path, with `.` and `..` worked out. -/
def absolute (p : Text) : List Text :=
  follow (if Text.startsWith "/" p then [[]] else []) (names p)

/-- The absolute path that `p` stands for in a folder. -/
def resolve (folder p : Text) : Text :=
  ofNames (if Text.startsWith "/" p then absolute p else follow (absolute folder) (names p))

/-- The path `p` below a folder.  A slash at its end stays. -/
def join (folder p : Text) : Text :=
  let joined := ofNames (if folder.isEmpty then absolute p else follow (absolute folder) (names p))
  let joined := if joined.isEmpty then ".".toList else joined
  let last := (if p.isEmpty then folder else p).getLast?
  if last == some '/' && joined != "/".toList then joined ++ "/" else joined

def folderOf (p : Text) : Text := ofNames (up (absolute p))

def fileName (p : Text) : Text := (absolute p).getLast?.getD []

/-- From the last point of a name on.  A point at the start of a name does not count. -/
def extension (name : Text) : Text :=
  let (upToPoint, letters) := name.spanEnd (· != '.')
  if upToPoint.length ≤ 1 || name == "..".toList then [] else '.' :: letters

/-- The path of `p` from a folder that it lies in. -/
def relative (folder p : Text) : Text := ofNames ((absolute p).drop (absolute folder).length)

/-- `p` with the letters after its last point replaced. -/
def withExtension (new p : Text) : Text :=
  let (before, letters) := p.spanEnd fun c => c != '.' && c != '/' && c != '\\'
  if before.getLast? == some '.' && !letters.isEmpty then before.dropLast ++ "." ++ new else p

end FixedForm.Path
