import FixedForm.Inference
import FixedForm.Proofs.Diagnostic.Report

/-! Inference in parts.  A line is kept, opens or closes the unit, declares, or is written otherwise, and the last
step settles the procedure and writes its first lines. -/
namespace FixedForm.Inference
open Analysis (Reports)

/-- Statements in whose place fresh lines are written. -/
def replaces (a : Analysis) (d : Draft) : Bool :=
  match d.shape with
  | .unitEnd | .intrinsic | .implicit => true
  | .declaration => (Declaration.parse? d.text).isSome
  | .external => (externalNames? d.text).isSome
  | .assignment => (statementFunction? a d.text).isSome
  | .other => (Statement.unsupported? (statementOf d.text)).isSome
  | _ => false

/-- What `inferLine` can do with a line: the analysis behind it and the entries in its place. -/
inductive Infers (a : Analysis) (previous : Option Shape) (l : Line) : Analysis × List Entry → Prop where
  | kept (h : replaces a l.toDraft = false) : Infers a previous l (a, [.kept l.toDraft])
  | opened (hs : l.shape = .header) : Infers a previous l (openUnit a l, [.kept l.toDraft])
  | closed (hs : l.shape = .unitEnd) :
    Infers a previous l ({ a with procedure := a.procedure.map closeUnit }, (endLines a previous l.text).map .fresh)
  | declared {d : Declaration} (hs : l.shape = .declaration) (hd : Declaration.parse? l.text = some d) :
    Infers a previous l ((a.declare l.id d).1, (a.declare l.id d).2.map .fresh)
  | listed {indent : Text} {names : List Text} (hs : l.shape = .external)
    (hn : externalNames? l.text = some (indent, names)) :
    Infers a previous l ({ a with externals := names.foldl addOnce a.externals },
      names.map fun n => .fresh { text := indent ++ "extern " ++ n, shape := .external })
  | dropped (hs : l.shape = .intrinsic ∨ l.shape = .implicit) : Infers a previous l (a, [])
  | refused (issue : Issue) (hs : l.shape = .implicit ∨ l.shape = .other) (h : replaces a l.toDraft = true) :
    Infers a previous l (a.report l.id issue, [commentOut l])
  | defined {f : StatementFunction} (hs : l.shape = .assignment) (hf : statementFunction? a l.text = some f) :
    Infers a previous l ({ a with procedure := a.procedure.map (addFunction · f) }, [commentOut l])
  | returned (hs : l.shape = .returns ∨ l.shape = .conditional) (hf : isFunctionUnit a = true) :
    Infers a previous l (a, [.kept { l.toDraft with text := returnResult a.unitName l.text }])

theorem infers {a : Analysis} {previous : Option Shape} {l : Line} {r : Analysis × List Entry}
    (h : inferLine a previous l = r) : Infers a previous l r := by
  subst h
  simp only [inferLine]
  split
  · next hs => exact .opened hs
  · next hs => exact .closed hs
  · next hs =>
    split
    · next hd => exact .kept (by simp [replaces, hs, hd])
    · next hd => exact .declared hs hd
  · next hs =>
    split
    · next hn => exact .kept (by simp [replaces, hs, hn])
    · next hn => exact .listed hs hn
  · next hs => exact .dropped (.inl hs)
  · next hs =>
    split
    · exact .dropped (.inr hs)
    · exact .refused _ (.inl hs) (by simp [replaces, hs])
  · next hs =>
    split
    · next hf => exact .kept (by simp [replaces, hs, hf])
    · next hf => exact .defined hs hf
  · next hs =>
    split
    · next hf => exact .returned (.inl hs) hf
    · exact .kept (by simp [replaces, hs])
  · next hs =>
    split
    · next hf => exact .returned (.inr hs) hf
    · exact .kept (by simp [replaces, hs])
  · next hs =>
    split
    · next hu => exact .kept (by simp [replaces, hs, hu])
    · next hu => exact .refused _ (.inr hs) (by simp [replaces, hs, hu])
  · refine .kept ?_
    rw [replaces]
    split <;> simp_all

theorem step_header (s : Analysis × Option Shape) {l : Line} (h : l.shape = .header) :
    (step s l).1.1 = openUnit s.1 l := by
  simp only [step, inferLine, h]

/-- The lines at the end of a unit are no labels, and have no remarks and declare nothing. -/
theorem endLines_plain (a : Analysis) (previous : Option Shape) (t : Text) :
    ∀ d ∈ endLines a previous t, d.shape ≠ .label ∧ d.remark = none ∧ d.declares = none := by
  simp only [endLines]
  cases (Labelled.split t).label.isSome <;> cases isFunctionUnit a <;>
    cases previous != some Shape.returns <;> simp

/-- The arguments and the result of a procedure, settled. -/
def settle (a : Analysis) (p : Procedure) : Analysis × Procedure :=
  let a := if p.active then a.report p.anchor (.noEnd p.name) else a
  let s := (closeUnit p).arguments.foldl (fun s arg => settleArgument s.1 s.2 arg) (a, closeUnit p)
  settleResult s.1 s.2

/-- The header in its place, with the lines that follow it. -/
def writeHeader (p : Procedure) (b : Buffer) : Buffer :=
  (b.modify p.anchor fun d => { d with text := p.header }).insertAfter (unitLine p) (openingLines p)

theorem finishUnit_none {a : Analysis} (h : a.procedure = none) (b : Buffer) :
    finishUnit a b = (a, b) := by
  rw [finishUnit, h]

theorem finishUnit_some {a : Analysis} {p : Procedure} (h : a.procedure = some p) (b : Buffer) :
    finishUnit a b = ({ (settle a p).1 with procedure := some (settle a p).2 },
      writeHeader (settle a p).2 b) := by
  rw [finishUnit, h]
  rfl

theorem reports_settleArgument (a : Analysis) (p : Procedure) (arg : Text) :
    Reports a (settleArgument a p arg).1 :=
  Analysis.reports_ite (fun _ => a.reports_report _ _) fun _ => .refl a

theorem reports_settleResult (a : Analysis) (p : Procedure) : Reports a (settleResult a p).1 := by
  rw [settleResult]
  split
  · exact .refl a
  · exact Analysis.reports_ite (fun _ => a.reports_report _ _) fun _ => .refl a

theorem reports_settle (a : Analysis) (p : Procedure) : Reports a (settle a p).1 := by
  have hend : Reports a (if p.active then a.report p.anchor (.noEnd p.name) else a) :=
    Analysis.reports_ite (fun _ => a.reports_report _ _) fun _ => .refl a
  have harguments := Reports.foldl Prod.fst (fun s arg => reports_settleArgument s.1 s.2 arg)
    (closeUnit p).arguments
    (if p.active then a.report p.anchor (.noEnd p.name) else a, closeUnit p)
  exact (hend.trans harguments).trans (reports_settleResult _ _)

theorem reports_finishUnit (a : Analysis) (b : Buffer) : Reports a (finishUnit a b).1 := by
  cases h : a.procedure with
  | none =>
    rw [finishUnit_none h]
    exact .refl a
  | some p =>
    rw [finishUnit_some h]
    exact (reports_settle a p).trans (.of_eq rfl)

end FixedForm.Inference
