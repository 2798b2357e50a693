import FixedForm.Proofs.Line.Buffer
import FixedForm.Stage

/-! Views of what is known that findings, symbols and constants do not show in.  Most steps of the
stages change nothing else. -/
namespace FixedForm

theorem foldl_view {β γ δ : Type} (view : β → δ) {f : β → γ → β}
    (h : ∀ s x, view (f s x) = view s) (xs : List γ) (s : β) : view (xs.foldl f s) = view s :=
  List.foldlRecOn xs f (motive := fun s' => view s' = view s) rfl fun s' hs x _ => (h s' x).trans hs

theorem Buffer.edit_view {σ δ : Type} (view : σ → δ) {step : σ → Line → σ × List Entry}
    (h : ∀ s l, view (step s l).1 = view s) (s : σ) (b : Buffer) :
    view (b.edit step s).1 = view s :=
  editFrom_state (P := fun s' => view s' = view s) b.nextId rfl fun s' hs l _ => (h s' l).trans hs

/-- Steps that go by a view of their state write the same from states with the same view. -/
theorem Buffer.edit_congr {σ δ : Type} (view : σ → δ) {step : σ → Line → σ × List Entry}
    (h : ∀ {s s'}, view s = view s' → ∀ l,
      (step s l).2 = (step s' l).2 ∧ view (step s l).1 = view (step s' l).1)
    {s s' : σ} (hs : view s = view s') (b : Buffer) :
    (b.edit step s).2 = (b.edit step s').2 ∧ view (b.edit step s).1 = view (b.edit step s').1 := by
  have hfrom {s s' : σ} (hs : view s = view s') (n : Nat) (lines : List Line) :
      (editFrom step s n lines).2 = (editFrom step s' n lines).2 ∧
        view (editFrom step s n lines).1 = view (editFrom step s' n lines).1 := by
    induction lines generalizing s s' n with
    | nil => exact ⟨rfl, hs⟩
    | cons l lines ih =>
      obtain ⟨hentries, hview⟩ := h hs l
      obtain ⟨hrest, hlast⟩ := ih hview (place l n (step s' l).2).2
      simp only [editFrom, hentries]
      exact ⟨congrArg (fun r => ((place l n (step s' l).2).1 ++ r.1, r.2)) hrest, hlast⟩
  obtain ⟨hlines, hlast⟩ := hfrom hs b.nextId b.lines
  exact ⟨congrArg (fun r => Buffer.mk r.1 r.2) hlines, hlast⟩

namespace Analysis
variable {δ : Type} {view : Analysis → δ}

/-- Findings do not show in the view. -/
def Quiet (view : Analysis → δ) : Prop := ∀ a line issue, view (a.report line issue) = view a

namespace Quiet
variable (h : Quiet view) (a : Analysis)
include h

theorem reportAll (line : Option Nat) (issues : List Issue) :
    view (a.reportAll line issues) = view a :=
  foldl_view view (fun a issue => h a line issue) issues a

theorem spell (l : Line) : view (Stage.spell a l).1 = view a := by
  rw [Stage.spell]
  split
  · rfl
  · exact h.reportAll a _ _

theorem linearizeLine (l : Line) : view (a.linearizeLine l).1 = view a := by
  rw [Analysis.linearizeLine]
  split
  · exact h.reportAll a _ _
  · rfl

theorem reportUndeclared (lines : List Line) : view (Inference.reportUndeclared a lines) = view a := by
  refine foldl_view (fun s : Analysis × List Text => view s.1) (fun s l => ?_) lines (a, [])
  split
  · refine foldl_view (fun s : Analysis × List Text => view s.1) (fun s name => ?_) _ s
    dsimp only
    split
    · rfl
    · exact h _ _ _
  · rfl

theorem blockStep (s : Analysis × Block.OpenLoops) (l : Line) : view (Block.step s l).1.1 = view s.1 := by
  simp only [Block.step]
  split
  · rfl
  · rfl
  · rfl
  · split <;> exact h.reportAll _ _ _

theorem blockRun (b : Buffer) : view (Block.run a b).1 = view a := by
  simp only [Block.run]
  have hedit := Buffer.edit_view (fun s => view s.1) h.blockStep (a, []) b
  generalize b.edit Block.step (a, []) = e at hedit ⊢
  refine Eq.trans ?_ hedit
  refine foldl_view view (fun a entry => ?_) e.1.2 e.1.1
  exact foldl_view view (fun a l => h a l.line (.missingLoopEnd entry.1)) entry.2 a

end Quiet

/-- Neither findings nor symbols nor constants show in the view. -/
structure Apart (view : Analysis → δ) : Prop where
  report : Quiet view
  symbols : ∀ (a : Analysis) symbols, view { a with symbols } = view a
  constants : ∀ (a : Analysis) constants, view { a with constants } = view a

namespace Apart
variable (h : Apart view) (a : Analysis)
include h

theorem record (line : Nat) (baseType : BaseType) (e : DeclaredEntry) :
    view (a.record line baseType e).1 = view a := by
  rw [← h.report.reportAll a line e.rankIssues]
  simp only [Analysis.record]
  generalize a.reportAll line e.rankIssues = b
  split
  · exact h.symbols b _
  · split
    · split
      · exact h.symbols b _
      · exact (h.report.reportAll _ _ _).trans (h.symbols b _)
    · split
      · exact h.report b _ _
      · exact (h.report.reportAll _ _ _).trans (h.symbols b _)

theorem recordAll (line : Nat) (d : Declaration) (pieces : List Text) :
    view (a.recordAll line d pieces).1 = view a := by
  induction pieces generalizing a with
  | nil => rfl
  | cons piece pieces ih =>
    rw [← h.report.reportAll a line (DeclaredEntry.parse piece).2]
    simp only [Analysis.recordAll]
    split
    · exact ih _
    · exact (ih _).trans (h.record _ _ _ _)

theorem declare (line : Nat) (d : Declaration) : view (a.declare line d).1 = view a :=
  (h.recordAll _ _ _ _).trans (h.report.reportAll a _ _)

theorem collectConstants (l : Line) : view (Inference.collectConstants a l).1 = view a := by
  rw [Inference.collectConstants]
  split
  · rfl
  · split
    · exact h.report a _ _
    · exact h.constants a _

end Apart

end Analysis

end FixedForm
