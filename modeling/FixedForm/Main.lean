import FixedForm.Command.Run

/-!
The command line.  It reads the files that a command looks at into a tree, runs the command on the
tree, and writes the files that have changed.
-/

namespace FixedForm.Shell

/-- The text of a file.  In bytes that are no UTF-8, each byte outside ASCII is a replacement
character. -/
def decode (bytes : ByteArray) : Text :=
  match String.fromUTF8? bytes with
  | some s => Text.ofString s
  | none => bytes.toList.map fun b => if b < 0x80 then Char.ofNat b.toNat else '\ufffd'

/-- Adds to a tree what stands at an absolute path, or else the nearest that stands above it. -/
partial def loadOne (t : Tree) (p : Text) : IO Tree := do
  let place := (← IO.currentDir) / p.toString
  if ← place.isDir then
    return t.putFolder (Path.absolute p)
  else if ← place.pathExists then
    return t.put (decode (← IO.FS.readBinFile place)) (Path.absolute p)
  else
    loadOne t (Path.folderOf p)

/-- Adds the folder at an absolute path with all that it holds.  Links are left out. -/
partial def loadAll (t : Tree) (p : Text) : IO Tree := do
  let mut t ← loadOne t p
  let place := (← IO.currentDir) / p.toString
  if ← place.isDir then
    for e in ← place.readDir do
      let inner := Path.join p (Text.ofString e.fileName)
      match (← e.path.symlinkMetadata).type with
      | .dir => t ← loadAll t inner
      | .file => t ← loadOne t inner
      | _ => pure ()
  return t

def save (path content : Text) : IO Unit := do
  let place := (← IO.currentDir) / path.toString
  if let some folder := place.parent then
    IO.FS.createDirAll folder
  IO.FS.writeFile place content.toString

def run (args : List Text) : IO UInt32 := do
  let cwd := Text.ofString (← IO.currentDir).toString
  let reads := Command.reads cwd args
  let before : Tree := .folder [] [.folder [] []]
  let before ← reads.folders.foldlM loadAll before
  let before ← reads.files.foldlM loadOne before
  let outcome := Command.run before cwd args
  for (path, content) in before.changes outcome.tree "/" do
    save ("/" ++ path) content
  IO.print outcome.stdout.toString
  IO.eprint outcome.stderr.toString
  return outcome.exit.toUInt32

end FixedForm.Shell

def main (args : List String) : IO UInt32 :=
  FixedForm.Shell.run (args.map FixedForm.Text.ofString)
