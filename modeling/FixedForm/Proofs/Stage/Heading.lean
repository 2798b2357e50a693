import FixedForm.Proofs.Inference.Unit
import FixedForm.Proofs.Stage.Apart

/-! The name and the first line of a unit.  Only a header sets them, and then all stages keep them. -/
namespace FixedForm

namespace Analysis
variable (a : Analysis)

/-- The name of the unit, and the number and the card of its first line. -/
def heading : Option (Text × Nat × Nat) := a.procedure.map fun p => (p.name, p.anchor, p.origin)

/-- The first line of the unit. -/
def anchor? : Option Nat := a.procedure.map (·.anchor)

theorem anchor?_eq : a.anchor? = a.heading.map (·.2.1) := by
  rw [heading, Option.map_map]
  rfl

theorem anchor?_congr {a a' : Analysis} (h : a'.heading = a.heading) : a'.anchor? = a.anchor? := by
  rw [anchor?_eq, anchor?_eq, h]

theorem unitName_congr {a a' : Analysis} (h : a'.heading = a.heading) : a'.unitName = a.unitName := by
  have hname (a : Analysis) : a.unitName = (a.heading.map Prod.fst).getD "unit" := by
    rw [heading, Option.map_map]
    rfl
  rw [hname, hname, h]

theorem apart_heading : Apart heading := ⟨fun _ _ _ => rfl, fun _ _ => rfl, fun _ _ => rfl⟩

theorem heading_reportAll (line : Option Nat) (issues : List Issue) :
    (a.reportAll line issues).heading = a.heading :=
  apart_heading.report.reportAll a line issues

theorem heading_linearizeLine (l : Line) : (a.linearizeLine l).1.heading = a.heading :=
  apart_heading.report.linearizeLine a l

end Analysis

namespace Analysis.Quiet
open Inference
variable {δ : Type} {view : Analysis → δ} (h : Quiet view) (a : Analysis)
include h

theorem settle (p : Procedure) : view (settle a p).1 = view a := by
  have hreport (c : Bool) (a : Analysis) (line : Option Nat) (issue : Issue) :
      view (if c then a.report line issue else a) = view a := by
    cases c with
    | false => rfl
    | true => exact h a line issue
  have hresult (a : Analysis) (p : Procedure) : view (settleResult a p).1 = view a := by
    rw [settleResult]
    split
    · rfl
    · exact hreport _ _ _ _
  have harguments := foldl_view (fun s : Analysis × Procedure => view s.1)
    (f := fun s arg => settleArgument s.1 s.2 arg) (fun s arg => hreport _ _ _ _) (closeUnit p).arguments
    (if p.active then a.report p.anchor (.noEnd p.name) else a, closeUnit p)
  exact (hresult _ _).trans (harguments.trans (hreport _ _ _ _))

/-- The end of inference changes what is known of the procedure, and else nothing. -/
theorem finishUnit (hp : ∀ (a : Analysis) procedure, view { a with procedure } = view a) (b : Buffer) :
    view (finishUnit a b).1 = view a := by
  cases hprocedure : a.procedure with
  | none => rw [finishUnit_none hprocedure]
  | some p =>
    rw [finishUnit_some hprocedure, hp]
    exact h.settle a p

end Analysis.Quiet

namespace Inference
variable (a : Analysis)

theorem heading_collectConstants (l : Line) : (collectConstants a l).1.heading = a.heading :=
  Analysis.apart_heading.collectConstants a l

theorem heading_map {f : Procedure → Procedure}
    (hf : ∀ p, ((f p).name, (f p).anchor, (f p).origin) = (p.name, p.anchor, p.origin)) :
    { a with procedure := a.procedure.map f }.heading = a.heading := by
  simp only [Analysis.heading, Option.map_map]
  congr 1
  exact funext hf

/-- No line but a header opens a unit. -/
theorem heading_inferLine (previous : Option Shape) {l : Line} (hl : l.shape ≠ .header) :
    (inferLine a previous l).1.heading = a.heading := by
  generalize hr : inferLine a previous l = r
  cases infers hr with
  | opened hs => exact absurd hs hl
  | closed | defined => exact heading_map a fun _ => rfl
  | declared => exact Analysis.apart_heading.declare a _ _
  | _ => rfl

/-- The first header opens the unit. -/
theorem anchor?_openUnit {l : Line} (hl : (Header.parse? (statementOf l.text)).isSome = true) :
    (openUnit a l).anchor? = a.anchor?.or (some l.id) := by
  obtain ⟨header, hh⟩ := Option.isSome_iff_exists.1 hl
  simp only [openUnit, hh]
  cases hp : a.procedure with
  | none => simp [Analysis.anchor?, hp]
  | some p => simp [Analysis.anchor?, hp, Analysis.report]

theorem heading_openUnit (l : Line) : (openUnit a l).heading = a.heading ∨
    ∃ name, (openUnit a l).heading = some (name, l.id, l.origin) := by
  rw [openUnit]
  dsimp only
  split
  · exact .inl rfl
  · split
    · exact .inl rfl
    · exact .inr ⟨_, rfl⟩

theorem heading_reportUndeclared (lines : List Line) :
    (reportUndeclared a lines).heading = a.heading :=
  Analysis.apart_heading.report.reportUndeclared a lines

theorem heading_settle (p : Procedure) :
    ((settle a p).2.name, (settle a p).2.anchor, (settle a p).2.origin) =
      (p.name, p.anchor, p.origin) := by
  have harguments := foldl_view
    (fun s : Analysis × Procedure => (s.2.name, s.2.anchor, s.2.origin))
    (f := fun s arg => settleArgument s.1 s.2 arg) (fun s arg => rfl) (closeUnit p).arguments
    (if p.active then a.report p.anchor (.noEnd p.name) else a, closeUnit p)
  refine Eq.trans ?_ harguments
  rw [settle, settleResult]
  dsimp only
  split <;> rfl

theorem anchor_settle (p : Procedure) : (settle a p).2.anchor = p.anchor :=
  congrArg (·.2.1) (heading_settle a p)

theorem heading_finishUnit (b : Buffer) : (finishUnit a b).1.heading = a.heading := by
  cases hp : a.procedure with
  | none => rw [finishUnit_none hp]
  | some p =>
    rw [finishUnit_some hp, Analysis.heading, Analysis.heading, hp]
    exact congrArg some (heading_settle a p)

end Inference

namespace Block

theorem heading_step (s : Analysis × OpenLoops) (l : Line) :
    (step s l).1.1.heading = s.1.heading :=
  Analysis.apart_heading.report.blockStep s l

theorem heading_run (a : Analysis) (b : Buffer) : (run a b).1.heading = a.heading :=
  Analysis.apart_heading.report.blockRun a b

end Block

namespace Resolution

theorem heading_resolve (a : Analysis) (b : Buffer) (site : CallSite) (result : Text) :
    (resolve a b site result).1.heading = a.heading := by
  simp only [resolve]
  split
  · next p hp =>
    obtain ⟨hp, -⟩ := Option.filter_eq_some_iff.1 hp
    simp [Analysis.heading, hp, pointTo]
  · split
    · simp only [inlineFunction]
      split
      · rfl
      · exact a.heading_reportAll _ _
    · rfl

theorem heading_run (a : Analysis) (b : Buffer) : (run a b).1.heading = a.heading := by
  simp only [run]
  generalize b.edit (collect a.symbols) {} = e
  have hsub := foldl_view (fun s : Analysis × Buffer => s.1.heading)
    (fun s site => heading_resolve s.1 s.2 site "void") (e.1.subroutines.map Prod.snd) (a, e.2)
  refine Eq.trans ?_ hsub
  generalize List.foldl _ _ (e.1.subroutines.map Prod.snd) = s
  exact foldl_view (fun s : Analysis × Buffer => s.1.heading)
    (f := fun s site => resolveFunction s.1 s.2 site)
    (fun s site => heading_resolve s.1 s.2 site _) (functionSites e.1) s

end Resolution

end FixedForm
