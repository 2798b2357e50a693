import FixedForm.Proofs.Line.Buffer
import Mathlib.Data.List.Perm.Subperm

/-! The order of lines.  A change puts some lines in the place of each line: lines of the same origin,
among which the line itself stands at most once and all others are new.  Such changes compose, and
they neither mix up origins nor the lines that were there before. -/
namespace FixedForm.Buffer

/-- What may stand in the place of a line while the numbers from `next` on are free. -/
structure InPlaceOf (next : Nat) (l : Line) (block : List Line) : Prop where
  origin : ∀ m ∈ block, m.origin = l.origin
  old : ((block.map (·.id)).filter (· < next)).Sublist [l.id]

/-- The lines `out` stand in the places of the given lines. -/
inductive Replaces (next : Nat) : (lines out : List Line) → Prop
  | nil : Replaces next [] []
  | cons {l : Line} {block lines out : List Line} :
    InPlaceOf next l block → Replaces next lines out → Replaces next (l :: lines) (block ++ out)

theorem InPlaceOf.self {next : Nat} {l m : Line} (hi : m.id = l.id) (ho : m.origin = l.origin) :
    InPlaceOf next l [m] := by
  refine ⟨fun k hk => List.mem_singleton.1 hk ▸ ho, ?_⟩
  rw [List.map_singleton, hi]
  exact List.filter_sublist

theorem InPlaceOf.nothing (next : Nat) (l : Line) : InPlaceOf next l [] :=
  ⟨by simp, List.nil_sublist _⟩

/-- The entries of an edit that keeps a line at most once. -/
theorem InPlaceOf.place {next n : Nat} (hn : next ≤ n) (l : Line) {es : List Entry}
    (hk : es.countP Entry.isKept ≤ 1) : InPlaceOf next l (Buffer.place l n es).1 := by
  refine ⟨fun m hm => (mem_place hm).1, ?_⟩
  induction es generalizing n with
  | nil => exact List.nil_sublist _
  | cons e es ih =>
    cases e with
    | kept d =>
      have hnone : es.countP Entry.isKept = 0 := by
        simpa [List.countP_cons, Entry.isKept] using hk
      have hnew : ((Buffer.place l n es).1.map (·.id)).filter (· < next) = [] := by
        refine List.filter_eq_nil_iff.2 fun i hi => ?_
        obtain ⟨m, hm, rfl⟩ := List.mem_map.1 hi
        obtain ⟨-, ⟨hkept, -⟩ | ⟨-, hge, -⟩⟩ := mem_place hm
        · exact absurd (List.countP_eq_zero.1 hnone _ hkept) (by simp [Entry.isKept])
        · simpa using Nat.le_trans hn hge
      rw [Buffer.place, List.map_cons, List.filter_cons, hnew]
      split
      · exact List.Sublist.refl _
      · exact List.nil_sublist _
    | fresh d =>
      have hrest := ih (Nat.le_succ_of_le hn) (by simpa [List.countP_cons, Entry.isKept] using hk)
      rw [Buffer.place, List.map_cons, List.filter_cons_of_neg (by simpa using hn)]
      exact hrest

namespace Replaces
variable {next : Nat} {lines out : List Line}

theorem refl (next : Nat) (lines : List Line) : Replaces next lines lines := by
  induction lines with
  | nil => exact .nil
  | cons l lines ih => exact .cons (.self rfl rfl) ih

theorem map (next : Nat) (f : Line → Draft) (lines : List Line) :
    Replaces next lines (lines.map fun l => { f l with id := l.id, origin := l.origin }) := by
  induction lines with
  | nil => exact .nil
  | cons l lines ih =>
    have hl : InPlaceOf next l [{ f l with id := l.id, origin := l.origin }] := .self rfl rfl
    exact .cons hl ih

theorem filter (next : Nat) (p : Line → Bool) (lines : List Line) :
    Replaces next lines (lines.filter p) := by
  induction lines with
  | nil => exact .nil
  | cons l lines ih =>
    rw [List.filter_cons]
    split
    · exact .cons (.self rfl rfl) ih
    · exact .cons (.nothing next l) ih

theorem append_inv {xs ys : List Line} (h : Replaces next (xs ++ ys) out) :
    ∃ xs' ys', out = xs' ++ ys' ∧ Replaces next xs xs' ∧ Replaces next ys ys' := by
  induction xs generalizing out with
  | nil => exact ⟨[], out, rfl, .nil, h⟩
  | cons x xs ih =>
    cases h with
    | cons hblock hrest =>
      obtain ⟨xs', ys', rfl, hx, hy⟩ := ih hrest
      exact ⟨_ ++ xs', ys', by rw [List.append_assoc], .cons hblock hx, hy⟩

theorem exists_origin (h : Replaces next lines out) {m : Line} (hm : m ∈ out) :
    ∃ l ∈ lines, m.origin = l.origin := by
  induction h with
  | nil => cases hm
  | @cons l block lines out hblock _ ih =>
    rcases List.mem_append.1 hm with hm | hm
    · exact ⟨l, by simp, hblock.origin m hm⟩
    · obtain ⟨k, hk, ho⟩ := ih hm
      exact ⟨k, by simp [hk], ho⟩

/-- Of the numbers below a free one, none is new and none changes its place. -/
theorem old (h : Replaces next lines out) {n : Nat} (hn : n ≤ next) :
    ((out.map (·.id)).filter (· < n)).Sublist ((lines.map (·.id)).filter (· < n)) := by
  induction h with
  | nil => exact List.Sublist.refl _
  | @cons l block lines out hblock _ ih =>
    have hold : ((block.map (·.id)).filter (· < n)).Sublist ([l.id].filter (· < n)) := by
      have hsub := hblock.old.filter (· < n)
      have hboth (i : Nat) : (decide (i < n) && decide (i < next)) = decide (i < n) := by
        by_cases hi : i < n
        · simp [hi, Nat.lt_of_lt_of_le hi hn]
        · simp [hi]
      simpa only [List.filter_filter, hboth] using hsub
    rw [List.map_append, List.filter_append, List.map_cons, ← List.singleton_append,
      List.filter_append]
    exact hold.append ih

/-- Origins that do not fall before do not fall afterwards. -/
theorem rising (h : Replaces next lines out) (hl : lines.Pairwise fun l m => l.origin ≤ m.origin) :
    out.Pairwise fun l m => l.origin ≤ m.origin := by
  induction h with
  | nil => exact .nil
  | @cons l block lines out hblock hrest ih =>
    obtain ⟨hfirst, htail⟩ := List.pairwise_cons.1 hl
    refine List.pairwise_append.2 ⟨?_, ih htail, fun m hm k hk => ?_⟩
    · refine List.pairwise_iff_forall_sublist.2 fun {m k} hmk => ?_
      have hm : m ∈ block := hmk.subset (by simp)
      have hk : k ∈ block := hmk.subset (by simp)
      exact Nat.le_of_eq ((hblock.origin m hm).trans (hblock.origin k hk).symm)
    · obtain ⟨l', hl', ho⟩ := hrest.exists_origin hk
      rw [hblock.origin m hm, ho]
      exact hfirst l' hl'

theorem trans {next' : Nat} {last : List Line} (h : Replaces next lines out)
    (h' : Replaces next' out last) (hn : next ≤ next') : Replaces next lines last := by
  induction h generalizing last with
  | nil =>
    cases h'
    exact .nil
  | @cons l block lines out hblock _ ih =>
    obtain ⟨first, rest, rfl, hf, hr⟩ := h'.append_inv
    refine .cons ⟨fun m hm => ?_, (hf.old hn).trans hblock.old⟩ (ih hr)
    obtain ⟨k, hk, ho⟩ := hf.exists_origin hm
    exact ho.trans (hblock.origin k hk)

end Replaces

/-- `b'` comes from `b` by changes in place. -/
structure Follows (b b' : Buffer) : Prop where
  next : b.nextId ≤ b'.nextId
  replaces : Replaces b.nextId b.lines b'.lines

namespace Follows
variable {b b' b'' : Buffer}

theorem refl (b : Buffer) : Follows b b := ⟨Nat.le_refl _, .refl _ _⟩

theorem trans (h : Follows b b') (h' : Follows b' b'') : Follows b b'' :=
  ⟨Nat.le_trans h.next h'.next, h.replaces.trans h'.replaces h.next⟩

theorem edit {σ : Type} {step : σ → Line → σ × List Entry}
    (hk : ∀ s l, (step s l).2.countP Entry.isKept ≤ 1) (s : σ) (b : Buffer) :
    Follows b (b.edit step s).2 := by
  refine ⟨le_editFrom _ _ _, ?_⟩
  have hfrom (n : Nat) (hn : b.nextId ≤ n) (lines : List Line) :
      Replaces b.nextId lines (editFrom step s n lines).2.1 := by
    induction lines generalizing s n with
    | nil => exact .nil
    | cons l lines ih =>
      exact .cons (.place hn l (hk s l)) (ih _ _ (Nat.le_trans hn (le_place _ _ _)))
  exact hfrom _ (Nat.le_refl _) _

theorem map (f : Line → Draft) (b : Buffer) : Follows b (b.map f) :=
  ⟨Nat.le_refl _, .map _ f _⟩

theorem modify (id : Nat) (f : Draft → Draft) (b : Buffer) : Follows b (b.modify id f) := map _ b

theorem remove (p : Line → Bool) (b : Buffer) : Follows b (b.remove p) :=
  ⟨Nat.le_refl _, .filter _ _ _⟩

/-- New lines behind a line that is there. -/
theorem insertAfter {anchor line : Line} (h : b.get? anchor.id = some line)
    (ho : line.origin = anchor.origin) (drafts : List Draft) : Follows b (b.insertAfter anchor drafts) := by
  refine ⟨Nat.le_add_right _ _, ?_⟩
  have hadded : InPlaceOf b.nextId line (line :: added anchor b.nextId drafts) := by
    refine ⟨fun m hm => ?_, ?_⟩
    · rcases List.mem_cons.1 hm with rfl | hm
      · rfl
      · exact (mem_added hm).2.1.trans ho.symm
    · have hnew : ((added anchor b.nextId drafts).map (·.id)).filter (· < b.nextId) = [] := by
        refine List.filter_eq_nil_iff.2 fun i hi => ?_
        obtain ⟨m, hm, rfl⟩ := List.mem_map.1 hi
        simpa using (mem_added hm).2.2.1
      rw [List.map_cons, ← List.singleton_append, List.filter_append, hnew, List.append_nil]
      exact List.filter_sublist
  have hat (lines : List Line) (hf : lines.find? (fun l => l.id == anchor.id) = some line) :
      Replaces b.nextId lines (insertAt anchor.id (added anchor b.nextId drafts) lines) := by
    induction lines with
    | nil => cases hf
    | cons l lines ih =>
      rw [List.find?_cons] at hf
      rw [insertAt]
      split at hf
      · next hl =>
        cases hf
        rw [if_pos hl]
        exact .cons hadded (.refl _ _)
      · next hl =>
        rw [if_neg (by simp [hl])]
        exact .cons (.self rfl rfl) (ih hf)
  exact hat b.lines h

/-- Lines that are all still there stand in their order. -/
theorem map_id_of_mem (h : Follows b b') (hb : b.Numbered) {lines : List Line}
    (hsub : lines.Sublist b.lines) (hmem : ∀ l ∈ lines, ∃ m ∈ b'.lines, m.id = l.id) :
    (b'.lines.filter fun m => m.id ∈ lines.map (·.id)).map (·.id) = lines.map (·.id) := by
  have hfilter : (b'.lines.filter fun m => m.id ∈ lines.map (·.id)).map (·.id) =
      (b'.lines.map (·.id)).filter (· ∈ lines.map (·.id)) := by
    rw [List.filter_map]
    rfl
  have hids : (lines.map (·.id)).Sublist (b.lines.map (·.id)) := hsub.map _
  have hbelow : ∀ i ∈ lines.map (·.id), i < b.nextId := by
    intro i hi
    obtain ⟨l, hl, rfl⟩ := List.mem_map.1 hi
    exact hb.below l (hsub.subset hl)
  have hthere : lines.map (·.id) ⊆ b'.lines.map (·.id) := by
    intro i hi
    obtain ⟨l, hl, rfl⟩ := List.mem_map.1 hi
    obtain ⟨m, hm, he⟩ := hmem l hl
    exact List.mem_map.2 ⟨m, hm, he⟩
  generalize lines.map (·.id) = ids at hfilter hids hbelow hthere ⊢
  have hnodup : ids.Nodup := hb.nodup.sublist hids
  -- Both lists are sublists of the numbers of `b` that are in `ids`, and none of them is shorter.
  have hold : ((b.lines.map (·.id)).filter (· ∈ ids)).length ≤ ids.length := by
    refine ((hb.nodup.filter _).subperm fun i hi => ?_).length_le
    simpa using (List.mem_filter.1 hi).2
  have hbefore : ids.Sublist ((b.lines.map (·.id)).filter (· ∈ ids)) := by
    have hself : ids.filter (· ∈ ids) = ids := List.filter_eq_self.2 fun i hi => by simpa using hi
    have hsub := hids.filter (· ∈ ids)
    rwa [hself] at hsub
  have hafter : ((b'.lines.map (·.id)).filter (· ∈ ids)).Sublist
      ((b.lines.map (·.id)).filter (· ∈ ids)) := by
    have hsub := (h.replaces.old (Nat.le_refl _)).filter (· ∈ ids)
    have hboth (i : Nat) : (decide (i ∈ ids) && decide (i < b.nextId)) = decide (i ∈ ids) := by
      by_cases hi : i ∈ ids
      · simp [hi, hbelow i hi]
      · simp [hi]
    simpa only [List.filter_filter, hboth] using hsub
  have hlength : ids.length ≤ ((b'.lines.map (·.id)).filter (· ∈ ids)).length := by
    refine (hnodup.subperm fun i hi => ?_).length_le
    exact List.mem_filter.2 ⟨hthere hi, by simpa using hi⟩
  have hfirst := hbefore.eq_of_length_le hold
  exact hfilter.trans ((hafter.eq_of_length_le (Nat.le_trans hold hlength)).trans hfirst.symm)

end Follows

end FixedForm.Buffer
