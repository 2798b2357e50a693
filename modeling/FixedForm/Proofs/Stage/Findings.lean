import FixedForm.Proofs.Inference.Unit
import FixedForm.Proofs.Line.Buffer
import FixedForm.Stage

/-! Every stage leaves the findings of the stages before it alone and only reports. -/
namespace FixedForm
open Analysis (Reports)

theorem Buffer.reports_edit {σ : Type} (view : σ → Analysis) {step : σ → Line → σ × List Entry}
    (h : ∀ s l, Reports (view s) (view (step s l).1)) (s : σ) (b : Buffer) :
    Reports (view s) (view (b.edit step s).1) :=
  editFrom_state (P := fun s' => Reports (view s) (view s')) b.nextId (.refl _)
    fun s' hs l _ => hs.trans (h s' l)

namespace Analysis
variable (a : Analysis)

theorem reports_record (line : Nat) (baseType : BaseType) (e : DeclaredEntry) :
    Reports a (a.record line baseType e).1 := by
  refine (a.reports_reportAll line e.rankIssues).trans ?_
  simp only [record]
  generalize a.reportAll line e.rankIssues = b
  split
  · exact .of_eq rfl
  · split
    · refine (Reports.of_eq rfl).trans (reports_ite (fun _ => .refl _) fun _ => ?_)
      exact reports_reportAll _ _ _
    · split
      · exact b.reports_report _ _
      · exact (Reports.of_eq rfl).trans (reports_reportAll _ _ _)

theorem reports_recordAll (line : Nat) (d : Declaration) (pieces : List Text) :
    Reports a (a.recordAll line d pieces).1 := by
  induction pieces generalizing a with
  | nil => exact .refl a
  | cons piece pieces ih =>
    refine (a.reports_reportAll line (DeclaredEntry.parse piece).2).trans ?_
    simp only [recordAll]
    split
    · exact ih _
    · exact (reports_record _ _ _ _).trans (ih _)

theorem reports_declare (line : Nat) (d : Declaration) : Reports a (a.declare line d).1 :=
  (a.reports_reportAll _ _).trans (reports_recordAll _ _ _ _)

theorem reports_linearize (line : Option Nat) (t : Text) : Reports a (a.linearize line t).1 :=
  a.reports_reportAll _ _

theorem reports_linearizeLine (l : Line) : Reports a (a.linearizeLine l).1 := by
  rw [linearizeLine]
  split
  · exact a.reports_linearize _ _
  · exact .refl a

end Analysis

namespace Inference
variable (a : Analysis)

theorem reports_collectConstants (l : Line) : Reports a (collectConstants a l).1 := by
  rw [collectConstants]
  split
  · exact .refl a
  · split
    · exact a.reports_report _ _
    · exact .of_eq rfl

theorem reports_openUnit (l : Line) : Reports a (openUnit a l) := by
  simp only [openUnit]
  split
  · exact .refl a
  · refine Analysis.reports_ite (fun _ => a.reports_report _ _) fun _ => ?_
    exact (Analysis.reports_ite (fun _ => a.reports_report _ _) fun _ => .refl a).trans (.of_eq rfl)

theorem reports_inferLine (previous : Option Shape) (l : Line) :
    Reports a (inferLine a previous l).1 := by
  generalize hr : inferLine a previous l = r
  cases infers hr with
  | opened => exact reports_openUnit a l
  | declared => exact a.reports_declare _ _
  | refused issue => exact a.reports_report _ _
  | _ => exact .of_eq rfl

theorem reports_reportNames (line : Nat) (s : Analysis × List Text) (names : List Text) :
    Reports s.1 (reportNames line s names).1 := by
  refine Reports.foldl Prod.fst (fun s name => ?_) names s
  dsimp only
  split
  · exact .refl _
  · exact s.1.reports_report _ _

theorem reports_reportUndeclared (lines : List Line) : Reports a (reportUndeclared a lines) := by
  refine Reports.foldl Prod.fst (fun s l => ?_) lines (a, [])
  split
  · exact reports_reportNames _ _ _
  · exact .refl _

theorem reports_step (s : Analysis × Option Shape) (l : Line) : Reports s.1 (step s l).1.1 :=
  reports_inferLine s.1 s.2 l

theorem reports_run (b : Buffer) : Reports a (run a b).1 := by
  refine (Buffer.reports_edit id reports_collectConstants a b).trans ?_
  simp only [run]
  generalize b.edit collectConstants a = s
  refine (Buffer.reports_edit Prod.fst reports_step (s.1, none) s.2).trans ?_
  generalize s.2.edit step (s.1, none) = s
  refine (reports_reportUndeclared s.1.1 s.2.lines).trans ?_
  exact (reports_finishUnit _ _).trans (Analysis.reports_reportAll _ _ _)

end Inference

namespace Block

theorem reports_step (s : Analysis × OpenLoops) (l : Line) : Reports s.1 (step s l).1.1 := by
  simp only [step]
  split
  iterate 3 exact .refl _
  · split <;> exact Analysis.reports_reportAll _ _ _

theorem reports_reportOpen (a : Analysis) (loops : OpenLoops) : Reports a (reportOpen a loops) := by
  refine Reports.foldl id (fun a entry => ?_) loops a
  refine Reports.foldl id (fun a l => ?_) entry.2 a
  exact a.reports_report l.line (.missingLoopEnd entry.1)

theorem reports_run (a : Analysis) (b : Buffer) : Reports a (run a b).1 :=
  (Buffer.reports_edit Prod.fst reports_step (a, []) b).trans (reports_reportOpen _ _)

end Block

namespace Resolution
variable (a : Analysis) (b : Buffer) (site : CallSite)

theorem reports_inlineFunction (f : StatementFunction) (types : List Text) (result : Text)
    (line : Nat) : Reports a (inlineFunction a f types result line) := by
  simp only [inlineFunction]
  split
  · exact a.reports_report _ _
  · exact (a.reports_linearize none f.body).trans (.of_eq rfl)

theorem reports_resolve (result : Text) : Reports a (resolve a b site result).1 := by
  simp only [resolve]
  split
  · exact .of_eq rfl
  · split
    · exact reports_inlineFunction _ _ _ _ _
    · exact .of_eq rfl

theorem reports_run : Reports a (run a b).1 := by
  simp only [run]
  generalize b.edit (collect a.symbols) {} = e
  have hsub := Reports.foldl Prod.fst (fun s site => reports_resolve s.1 s.2 site "void")
    (e.1.subroutines.map Prod.snd) (a, e.2)
  refine hsub.trans ?_
  generalize List.foldl _ _ _ = s
  have hfun := Reports.foldl Prod.fst (f := fun s site => resolveFunction s.1 s.2 site)
    (fun s site => reports_resolve s.1 s.2 site _) (functionSites e.1) s
  exact hfun.trans (.of_eq rfl)

end Resolution

namespace Stage

theorem reports_spell (a : Analysis) (l : Line) : Reports a (spell a l).1 := by
  rw [spell]
  split
  · exact .refl a
  · exact a.reports_reportAll _ _

theorem reports_run (stage : Stage) (a : Analysis) (b : Buffer) : Reports a (stage.run a b).1 := by
  cases stage with
  | spelling => exact Buffer.reports_edit id reports_spell a b
  | shapes => exact .refl a
  | inference => exact Inference.reports_run a b
  | references => exact Buffer.reports_edit id Analysis.reports_linearizeLine a b
  | blocks => exact Block.reports_run a b
  | calls => exact Resolution.reports_run a b
  | intrinsics => exact .refl a
  | remarks => exact .refl a

end Stage

theorem Progress.reports_runAll (p : Progress) (stages : List Stage) :
    Reports p.analysis (p.runAll stages).analysis :=
  Reports.foldl Progress.analysis (fun p stage => stage.reports_run p.analysis p.buffer) stages p

end FixedForm
