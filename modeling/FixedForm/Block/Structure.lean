import FixedForm.Analysis
import FixedForm.Block.Condition
import FixedForm.Block.Loop

/-!
Block structure.  A statement label becomes a line of its own.  The statement that ends one or more
labelled loops is followed by a brace for each, and a labelled `continue` becomes those braces.
-/

namespace FixedForm.Block

/-- A labelled loop that is not closed yet. -/
structure OpenLoop where
  /-- The line of the `do` statement. -/
  line : Nat
  indent : Text
  deriving DecidableEq, Repr

/-- The open loops by the label that ends them, innermost last. -/
abbrev OpenLoops := Assoc (List OpenLoop)

/-- A statement in the output, or none when it becomes a comment. -/
def render (unit : Text) (shape : Shape) (statement : Text) : Option Text × List Issue :=
  match shape with
  | .loop =>
    let (text, issues) := renderLoop statement
    (some text, issues)
  | .loopEnd => (some "\x7d", [])
  | .conditional => Condition.render unit statement
  | .goto =>
    match jumpForm statement with
    | .computed => (none, [.computedGoto])
    | .assigned => (none, [.assignedGoto])
    | .simple => (some (renameGotos unit statement), [])
  | _ => (some (renameGotos unit statement), [])

/-- The contents of a line with its statement in the output. -/
def contents (d : Draft) (indent statement : Text) (rendered : Option Text) : Draft :=
  match rendered with
  | some text => { d with text := indent ++ text }
  | none => { d with text := indent ++ "// " ++ statement, shape := .comment }

/-- The lines that a labelled statement becomes, when it ends the given loops, innermost first. -/
def labelledLines (unit label statement indent : Text) (ended : List OpenLoop) (d : Draft)
    (rendered : Option Text) : List Entry :=
  let labelText := labelName unit label ++ ": "
  let d := { d with label := none }
  let labelLine := Entry.fresh { text := labelText, shape := .label }
  let brace := fun (l : OpenLoop) => l.indent ++ "\x7d"
  let braces := fun (ls : List OpenLoop) =>
    ls.map fun l => Entry.fresh { text := brace l, shape := .loopEnd }
  if statement == "continue".toList then
    match ended with
    | [] => [.kept { d with text := labelText, shape := .label }]
    | l :: ls => labelLine :: .kept { d with text := brace l, shape := .loopEnd } :: braces ls
  else labelLine :: .kept (contents d indent statement rendered) :: braces ended

/-- The open loops after a line: a labelled loop is opened. -/
def openLoop (loops : OpenLoops) (line : Line) (statement indent : Text) : OpenLoops :=
  if line.shape == .loop then
    match loopLabel? statement with
    | some label => loops.put label ((loops.get? label).getD [] ++ [{ line := line.id, indent }])
    | none => loops
  else loops

/-- Structures one line. -/
def step (s : Analysis × OpenLoops) (line : Line) : (Analysis × OpenLoops) × List Entry :=
  let (a, loops) := s
  match line.shape with
  | .comment | .blank | .label => (s, [.kept line.toDraft])
  | shape =>
    let parts := Labelled.split line.text
    let statement := parts.statement
    let indent :=
      if parts.label.isSome then Text.spaces parts.columns.length else line.text.indent
    let loops := openLoop loops line statement indent
    let (rendered, issues) := render a.unitName shape statement
    let a := a.reportAll line.id issues
    match parts.label with
    | none => ((a, loops), [.kept (contents line.toDraft indent statement rendered)])
    | some label =>
      let ended := ((loops.get? label).getD []).reverse
      ((a, loops.erase label),
        labelledLines a.unitName label statement indent ended line.toDraft rendered)

/-- Reports the loops that nothing closes. -/
def reportOpen (a : Analysis) (loops : OpenLoops) : Analysis :=
  loops.foldl (fun a (label, unclosed) =>
    unclosed.foldl (fun a l => a.report l.line (.missingLoopEnd label)) a) a

/-- The whole stage. -/
def run (a : Analysis) (b : Buffer) : Analysis × Buffer :=
  let ((a, loops), b) := b.edit step (a, [])
  (reportOpen a loops, b)

end FixedForm.Block
