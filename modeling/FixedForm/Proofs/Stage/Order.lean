import FixedForm.Proofs.Line.Order
import FixedForm.Proofs.Stage.Heading
import FixedForm.Proofs.Stage.Numbering

/-! Every stage changes lines in their places only, so the order of the source stays. -/
namespace FixedForm
open Buffer (Follows Replaces InPlaceOf)

namespace Inference

/-- The first line of the unit, if there is one, is a line of the buffer. -/
def HasHeader (a : Analysis) (b : Buffer) : Prop :=
  ∀ heading ∈ a.heading, ∃ l ∈ b.lines, (l.id, l.origin) = heading.2

/-- A line opens the unit, or leaves its first line what it was. -/
theorem heading_step (s : Analysis × Option Shape) (l : Line) :
    (step s l).1.1.heading = s.1.heading ∨
      l.shape = .header ∧ ∃ name, (step s l).1.1.heading = some (name, l.id, l.origin) := by
  by_cases hl : l.shape = .header
  · rw [step_header s hl]
    exact (heading_openUnit s.1 l).imp_right fun h => ⟨hl, h⟩
  · exact .inl (heading_inferLine s.1 s.2 hl)

theorem heading_editFrom (s : Analysis × Option Shape) (n : Nat) (lines : List Line) :
    (Buffer.editFrom step s n lines).1.1.heading = s.1.heading ∨
      ∃ l ∈ lines, l.shape = .header ∧
        ∃ name, (Buffer.editFrom step s n lines).1.1.heading = some (name, l.id, l.origin) := by
  induction lines generalizing s n with
  | nil => exact .inl rfl
  | cons l lines ih =>
    rcases ih (step s l).1 (Buffer.place l n (step s l).2).2 with hsame | ⟨m, hm, hopened⟩
    · rcases heading_step s l with hl | ⟨hshape, name, hl⟩
      · exact .inl (hsame.trans hl)
      · exact .inr ⟨l, List.mem_cons_self, hshape, name, hsame.trans hl⟩
    · exact .inr ⟨m, List.mem_cons_of_mem _ hm, hopened⟩

/-- The line that opens the unit stays. -/
theorem hasHeader_edit {a : Analysis} (h : a.heading = none) (b : Buffer) :
    HasHeader (b.edit step (a, none)).1.1 (b.edit step (a, none)).2 := by
  intro heading hh
  rcases heading_editFrom (a, none) b.nextId b.lines with hsame | ⟨l, hl, hshape, name, hopened⟩
  · have hnone : (b.edit step (a, none)).1.1.heading = none := hsame.trans h
    rw [hnone] at hh
    cases hh
  · refine ⟨l, Buffer.mem_edit hl (fun s => ?_) (a, none), ?_⟩
    · simp only [step, inferLine, hshape]
    · exact congrArg Prod.snd (Option.some.inj (hopened.symm.trans hh))

theorem follows_finishUnit {a : Analysis} {b : Buffer} (hb : b.Numbered) (h : HasHeader a b) :
    Follows b (finishUnit a b).2 := by
  cases hp : a.procedure with
  | none =>
    rw [finishUnit_none hp]
    exact .refl b
  | some p =>
    obtain ⟨l, hl, hat⟩ := h _ (congrArg (Option.map _) hp)
    obtain ⟨hid, ho⟩ := Prod.mk.inj hat
    have hsame := heading_settle a p
    rw [finishUnit_some hp]
    generalize (settle a p).2 = q at hsame ⊢
    obtain ⟨-, hanchor, horigin⟩ : q.name = p.name ∧ q.anchor = p.anchor ∧ q.origin = p.origin := by
      simpa using hsame
    have hmodify := hb.modify q.anchor fun d => { d with text := q.header }
    obtain ⟨m, hm, hmid, hmo⟩ : ∃ m ∈ (b.modify q.anchor fun d => { d with text := q.header }).lines,
        m.id = l.id ∧ m.origin = l.origin := ⟨_, List.mem_map_of_mem hl, rfl, rfl⟩
    have hline := hmodify.get?_of_mem hm
    rw [hmid, hid, ← hanchor] at hline
    exact (Follows.modify _ _ b).trans (.insertAfter hline (hmo.trans (ho.trans horigin.symm)) _)

theorem follows_run {a : Analysis} {b : Buffer} (hb : b.Numbered) (h : a.heading = none) :
    Follows b (run a b).2 := by
  have hconstants := Buffer.edit_view Analysis.heading heading_collectConstants a b
  have hnumbered := hb.edit kept_collectConstants a
  refine (Follows.edit kept_collectConstants a b).trans ?_
  simp only [run]
  generalize b.edit collectConstants a = e at hconstants hnumbered ⊢
  refine (Follows.edit kept_step (e.1, none) e.2).trans
    (follows_finishUnit (hnumbered.edit kept_step (e.1, none)) ?_)
  rw [HasHeader, heading_reportUndeclared]
  exact hasHeader_edit (hconstants.trans h) e.2

end Inference

namespace Resolution

theorem follows_resolve (a : Analysis) (b : Buffer) (site : CallSite) (result : Text) :
    Follows b (resolve a b site result).2 := by
  have hextern := Follows.remove (fun l => l.shape == .external && isExternOf site.name l.text) b
  simp only [resolve]
  split
  · dsimp only
    exact hextern.trans (.modify _ _ _)
  · split <;> exact hextern

theorem follows_run (a : Analysis) (b : Buffer) : Follows b (run a b).2 := by
  refine List.foldlRecOn _ _ (motive := fun s : Analysis × Buffer => Follows b s.2) ?_
    fun s hs site _ => hs.trans ((follows_resolve s.1 s.2 site _).trans (.remove _ _))
  refine List.foldlRecOn _ _ (motive := fun s : Analysis × Buffer => Follows b s.2) ?_
    fun s hs site _ => hs.trans (follows_resolve s.1 s.2 site "void")
  exact .edit (kept_collect a.symbols) {} b

end Resolution

theorem Remark.follows_run (b : Buffer) : Follows b (run b) := by
  refine ⟨Nat.le_refl _, ?_⟩
  have hlines (before : Option Text) (lines : List Line) :
      Replaces b.nextId lines (reflowLines before lines) := by
    induction lines generalizing before with
    | nil => exact .nil
    | cons l lines ih =>
      rw [reflowLines]
      split
      · have hl (t : Text) : InPlaceOf b.nextId l [{ l with text := t }] := .self rfl rfl
        exact .cons (hl _) (ih before)
      · exact .cons (.self rfl rfl) (ih _)
  exact hlines none b.lines

namespace Stage

/-- Only inference opens a unit. -/
theorem heading_run {stage : Stage} (h : stage ≠ .inference) (a : Analysis) (b : Buffer) :
    (stage.run a b).1.heading = a.heading := by
  cases stage with
  | spelling => exact Buffer.edit_view Analysis.heading Analysis.apart_heading.report.spell a b
  | inference => exact absurd rfl h
  | references => exact Buffer.edit_view Analysis.heading Analysis.heading_linearizeLine a b
  | blocks => exact Block.heading_run a b
  | calls => exact Resolution.heading_run a b
  | shapes | intrinsics | remarks => rfl

theorem follows_run (stage : Stage) {a : Analysis} {b : Buffer} (hb : b.Numbered)
    (h : stage = .inference → a.heading = none) : Follows b (stage.run a b).2 := by
  cases stage with
  | spelling => exact .edit kept_spell a b
  | inference => exact Inference.follows_run hb (h rfl)
  | references => exact .edit kept_linearizeLine a b
  | blocks => exact .edit Block.kept_step (a, []) b
  | calls => exact Resolution.follows_run a b
  | shapes | intrinsics => exact .map _ b
  | remarks => exact Remark.follows_run b

end Stage

namespace Progress

/-- Stages that each run once, before a unit is open. -/
theorem follows_runAll {p : Progress} (hb : p.buffer.Numbered) (hp : p.analysis.procedure = none)
    {stages : List Stage} (hstages : stages.Nodup) : Follows p.buffer (p.runAll stages).buffer := by
  -- behind inference a unit may be open, but then inference is not among the stages left
  have hall (p : Progress) (hb : p.buffer.Numbered) (stages : List Stage) (hstages : stages.Nodup)
      (hp : .inference ∈ stages → p.analysis.heading = none) :
      Follows p.buffer (p.runAll stages).buffer := by
    induction stages generalizing p with
    | nil => exact .refl _
    | cons stage stages ih =>
      obtain ⟨hnew, hrest⟩ := List.nodup_cons.1 hstages
      refine (stage.follows_run hb fun he => hp (by simp [he])).trans
        (ih (stage.apply p) (stage.numbered_run p.analysis hb) hrest fun hm => ?_)
      have hne : stage ≠ .inference := fun he => hnew (he ▸ hm)
      exact (Stage.heading_run hne p.analysis p.buffer).trans (hp (List.mem_cons_of_mem _ hm))
  exact hall p hb stages hstages fun _ => by rw [Analysis.heading, hp, Option.map_none]

/-- The order of the source stays.  The lines that are read come from ever later cards.  After any
number of stages no line stands in the buffer twice, the origins do not fall, each is the number of
a card, and of the lines that were read those still there stand as they stood. -/
theorem source_order_kept (options : Options) (source : Text) :
    let first := (Card.read source).lines
    first.Pairwise (fun l m => l.origin < m.origin) ∧
      ∀ n, let lines := ((start options (Card.read source)).runAll (Stage.all.take n)).buffer.lines
        (lines.map (·.id)).Nodup ∧
        lines.Pairwise (fun l m => l.origin ≤ m.origin) ∧
        (∀ l ∈ lines, 1 ≤ l.origin ∧ l.origin ≤ (Card.deck source).length) ∧
        ((lines.map (·.id)).filter (· ∈ first.map (·.id))).Sublist (first.map (·.id)) := by
  have hrising := Card.rising_read source
  refine ⟨hrising, fun n => ?_⟩
  have hfollows := follows_runAll (p := start options (Card.read source)) (Card.numbered_read source) rfl
    ((by decide : Stage.all.Nodup).sublist (List.take_sublist n _))
  have hnumbered := numbered_runAll (p := start options (Card.read source))
    (Card.numbered_read source) (Stage.all.take n)
  refine ⟨hnumbered.nodup, hfollows.replaces.rising (hrising.imp Nat.le_of_lt), fun l hl => ?_, ?_⟩
  · obtain ⟨m, hm, ho⟩ := hfollows.replaces.exists_origin hl
    rw [ho]
    exact Card.origin_read hm
  · -- the lines that were read are those with the numbers below the first free one
    have hids := Card.map_id_read source
    have hold := hfollows.replaces.old (Nat.le_refl _)
    have hread (i : Nat) : decide (i ∈ (Card.read source).lines.map (·.id)) =
        decide (i < (Card.read source).nextId) := by
      rw [hids]
      exact decide_eq_decide.2 List.mem_range
    simp only [hread]
    exact hold.trans List.filter_sublist

end Progress

end FixedForm
