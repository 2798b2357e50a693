import FixedForm.Block.Structure
import FixedForm.Call.Resolution
import FixedForm.Inference
import FixedForm.Remark
import FixedForm.Spelling

/-!
The stages of a conversion, in the one order that is right: references and calls read what inference
found out, and labels are named after the unit that the header opened.
-/

namespace FixedForm

inductive Stage where
  | spelling | shapes | inference | references | blocks | calls | intrinsics | remarks
  deriving DecidableEq, Repr

/-- A unit on its way: what is known of it, its lines, and the lines that left it. -/
structure Progress where
  analysis : Analysis
  buffer : Buffer
  retired : List Line := []
  deriving DecidableEq, Repr

namespace Stage

def all : List Stage :=
  [.spelling, .shapes, .inference, .references, .blocks, .calls, .intrinsics, .remarks]

def name : Stage → Text
  | .spelling => "lexical"
  | .shapes => "classify"
  | .inference => "inference"
  | .references => "subscripts"
  | .blocks => "control-flow"
  | .calls => "calls"
  | .intrinsics => "intrinsics"
  | .remarks => "comments"

def ofName? (name : Text) : Option Stage := all.find? fun s => s.name == name

/-- Spells the statement of a line. -/
def spell (a : Analysis) (line : Line) : Analysis × List Entry :=
  if line.shape.isSilent then (a, [.kept line.toDraft])
  else
    let (text, issues) := Spelling.normalize line.text
    (a.reportAll line.id issues, [.kept { line.toDraft with text }])

/-- Names the functions of a line. -/
def nameIntrinsics (line : Line) : Draft :=
  match line.shape with
  | .blank | .comment | .label => line.toDraft
  | _ => { line.toDraft with text := Intrinsic.replace line.text }

def run : Stage → Analysis → Buffer → Analysis × Buffer
  | .spelling, a, b => b.edit spell a
  | .shapes, a, b => (a, b.map fun l => l.toDraft.classify)
  | .inference, a, b => Inference.run a b
  | .references, a, b => b.edit Analysis.linearizeLine a
  | .blocks, a, b => Block.run a b
  | .calls, a, b => Resolution.run a b
  | .intrinsics, a, b => (a, b.map nameIntrinsics)
  | .remarks, a, b => (a, Remark.run b)

/-- Runs a stage and keeps the lines that it drops. -/
def apply (stage : Stage) (p : Progress) : Progress :=
  let (analysis, buffer) := stage.run p.analysis p.buffer
  { analysis, buffer
    retired := p.retired ++ p.buffer.lines.filter fun l => !buffer.holds l.id }

/-- The message for a name that no stage has. -/
def unknownMessage (name : Text) : Text :=
  "Unknown stage \"" ++ name ++ "\"; expected one of " ++ Text.join ", " (all.map Stage.name)

/-- The stages up to the one with the given name, or all of them. -/
def upTo (name : Option Text) : Except Text (List Stage) :=
  match name with
  | none => .ok all
  | some n =>
    match all.span fun s => s.name != n with
    | (_, []) => .error (unknownMessage n)
    | (before, s :: _) => .ok (before ++ [s])

end Stage

namespace Progress

def start (options : Options) (buffer : Buffer) : Progress := { analysis := { options }, buffer }

def runAll (p : Progress) (stages : List Stage) : Progress :=
  stages.foldl (fun p stage => stage.apply p) p

/-- The line with an identity, where it is now or as it was when it left. -/
def line? (p : Progress) (id : Nat) : Option Line :=
  p.buffer.get? id <|> p.retired.find? fun l => l.id == id

end Progress

end FixedForm
