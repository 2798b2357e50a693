import FixedForm.Proofs.Card
import FixedForm.Proofs.Inference.Unit
import FixedForm.Stage

/-! Every stage keeps the numbers of the lines distinct: no step keeps a line twice, and new lines have
new numbers. -/
namespace FixedForm
open Buffer (Numbered)

theorem Buffer.Numbered.modify {b : Buffer} (h : b.Numbered) (id : Nat) (f : Draft → Draft) :
    (b.modify id f).Numbered :=
  h.map _

theorem countP_isKept_fresh {α : Type} (f : α → Draft) (xs : List α) :
    (xs.map fun x => Entry.fresh (f x)).countP Entry.isKept = 0 :=
  List.countP_eq_zero.2 fun e he => by
    obtain ⟨x, -, rfl⟩ := List.mem_map.1 he
    simp [Entry.isKept]

namespace Inference

theorem kept_collectConstants (a : Analysis) (l : Line) :
    (collectConstants a l).2.countP Entry.isKept ≤ 1 := by
  rw [collectConstants]
  split
  · exact Nat.le_refl _
  · split <;> exact Nat.le_refl _

theorem kept_inferLine (a : Analysis) (previous : Option Shape) (l : Line) :
    (inferLine a previous l).2.countP Entry.isKept ≤ 1 := by
  generalize hr : inferLine a previous l = r
  cases infers hr with
  | kept | opened | returned => exact Nat.le_refl 1
  | dropped | refused | defined => exact Nat.zero_le 1
  | closed | declared | listed =>
    rw [countP_isKept_fresh]
    exact Nat.zero_le 1

theorem numbered_finishUnit (a : Analysis) {b : Buffer} (h : b.Numbered) :
    (finishUnit a b).2.Numbered := by
  cases hp : a.procedure with
  | none =>
    rw [finishUnit_none hp]
    exact h
  | some p =>
    rw [finishUnit_some hp]
    exact (h.modify _ _).insertAfter _ _

theorem kept_step (s : Analysis × Option Shape) (l : Line) :
    (step s l).2.countP Entry.isKept ≤ 1 :=
  kept_inferLine s.1 s.2 l

theorem numbered_run (a : Analysis) {b : Buffer} (h : b.Numbered) : (run a b).2.Numbered :=
  numbered_finishUnit _ ((h.edit kept_collectConstants a).edit kept_step (_, none))

end Inference

namespace Block

theorem kept_labelledLines (unit label statement indent : Text) (ended : List OpenLoop) (d : Draft)
    (rendered : Option Text) :
    (labelledLines unit label statement indent ended d rendered).countP Entry.isKept = 1 := by
  simp only [labelledLines]
  split
  · split
    · rfl
    · simp only [List.countP_cons, countP_isKept_fresh]
      rfl
  · simp only [List.countP_cons, countP_isKept_fresh]
    rfl

theorem kept_step (s : Analysis × OpenLoops) (l : Line) :
    (step s l).2.countP Entry.isKept ≤ 1 := by
  simp only [step]
  split
  iterate 3 exact Nat.le_refl _
  · split
    · exact Nat.le_refl _
    · exact Nat.le_of_eq (kept_labelledLines _ _ _ _ _ _ _)

end Block

namespace Resolution

theorem kept_collect (symbols : SymbolTable) (sites : Sites) (l : Line) :
    (collect symbols sites l).2.countP Entry.isKept ≤ 1 := by
  rw [collect]
  split <;> exact Nat.le_refl _

theorem numbered_resolve (a : Analysis) {b : Buffer} (h : b.Numbered) (site : CallSite)
    (result : Text) : (resolve a b site result).2.Numbered := by
  simp only [resolve]
  split
  · exact (h.remove _).modify _ _
  · split <;> exact h.remove _

theorem numbered_run (a : Analysis) {b : Buffer} (h : b.Numbered) : (run a b).2.Numbered := by
  refine List.foldlRecOn _ _ (motive := fun s : Analysis × Buffer => s.2.Numbered) ?_
    fun s hs site _ => (numbered_resolve s.1 hs site _).remove _
  refine List.foldlRecOn _ _ (motive := fun s : Analysis × Buffer => s.2.Numbered) ?_
    fun s hs site _ => numbered_resolve s.1 hs site "void"
  exact h.edit (kept_collect a.symbols) {}

end Resolution

theorem Remark.map_id_reflowLines (before : Option Text) (lines : List Line) :
    (reflowLines before lines).map (·.id) = lines.map (·.id) := by
  induction lines generalizing before with
  | nil => rfl
  | cons l lines ih =>
    rw [reflowLines]
    split <;> simp [ih]

theorem Remark.numbered_run {b : Buffer} (h : b.Numbered) : (run b).Numbered := by
  have hids := map_id_reflowLines none b.lines
  refine ⟨hids ▸ h.nodup, fun l hl => ?_⟩
  have hi : l.id ∈ (reflowLines none b.lines).map (·.id) := List.mem_map_of_mem hl
  rw [hids] at hi
  obtain ⟨m, hm, he⟩ := List.mem_map.1 hi
  exact he ▸ h.below m hm

namespace Stage

theorem kept_spell (a : Analysis) (l : Line) : (spell a l).2.countP Entry.isKept ≤ 1 := by
  rw [spell]
  split <;> exact Nat.le_refl _

theorem kept_linearizeLine (a : Analysis) (l : Line) :
    (a.linearizeLine l).2.countP Entry.isKept ≤ 1 := by
  rw [Analysis.linearizeLine]
  split <;> exact Nat.le_refl _

theorem numbered_run (stage : Stage) (a : Analysis) {b : Buffer} (h : b.Numbered) :
    (stage.run a b).2.Numbered := by
  cases stage with
  | spelling => exact h.edit kept_spell a
  | inference => exact Inference.numbered_run a h
  | references => exact h.edit kept_linearizeLine a
  | blocks => exact h.edit Block.kept_step (a, [])
  | calls => exact Resolution.numbered_run a h
  | shapes | intrinsics => exact h.map _
  | remarks => exact Remark.numbered_run h

end Stage

theorem Progress.numbered_runAll {p : Progress} (h : p.buffer.Numbered) (stages : List Stage) :
    (p.runAll stages).buffer.Numbered := by
  induction stages generalizing p with
  | nil => exact h
  | cons stage stages ih => exact ih (stage.numbered_run p.analysis h)

end FixedForm
