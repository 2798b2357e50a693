import FixedForm.Assoc

/-! Names with values: what each name has after a change, and which names there are. -/
namespace FixedForm

theorem mem_addOnce {names : List Text} {k n : Text} : n ∈ addOnce names k ↔ n ∈ names ∨ n = k := by
  rw [addOnce]
  split
  · next h =>
    have hk : k ∈ names := by simpa using h
    exact ⟨.inl, fun h => h.elim id fun he => he ▸ hk⟩
  · rw [List.mem_append, List.mem_singleton]

theorem nodup_addOnce {names : List Text} (h : names.Nodup) (k : Text) : (addOnce names k).Nodup := by
  rw [addOnce]
  split
  · exact h
  · next hk =>
    have hk : k ∉ names := by simpa using hk
    refine List.nodup_append.2 ⟨h, List.pairwise_singleton _ _, fun a ha b hb => ?_⟩
    rw [List.mem_singleton.1 hb]
    rintro rfl
    exact hk ha

namespace Assoc
variable {α : Type} (m : Assoc α) (k : Text)

@[simp] theorem get?_put_self (v : α) : (m.put k v).get? k = some v := by
  induction m with
  | nil => simp [put, get?]
  | cons e m ih =>
    obtain ⟨n, w⟩ := e
    by_cases h : n = k
    · simp [put, get?, h]
    · have hk : (k == n) = false := by simpa using Ne.symm h
      simpa [put, get?, h, List.lookup_cons, hk] using ih

theorem get?_put_other {k' : Text} (h : k' ≠ k) (v : α) : (m.put k v).get? k' = m.get? k' := by
  have hk : (k' == k) = false := beq_eq_false_iff_ne.2 h
  induction m with
  | nil => simp [put, get?, List.lookup_cons, hk]
  | cons e m ih =>
    obtain ⟨n, w⟩ := e
    by_cases hn : n = k
    · subst hn
      simp [put, get?, List.lookup_cons, hk]
    · simp only [put, beq_iff_eq, hn, if_false, get?, List.lookup_cons]
      split
      · rfl
      · exact ih

theorem get?_put (v : α) (n : Text) :
    (m.put k v).get? n = if n = k then some v else m.get? n := by
  split
  · next h => rw [h, get?_put_self]
  · next h => exact get?_put_other m k h v

theorem put_of_absent {m : Assoc α} {k : Text} (h : m.has k = false) (v : α) :
    m.put k v = m ++ [(k, v)] := by
  induction m with
  | nil => rfl
  | cons e m ih =>
    obtain ⟨n, w⟩ := e
    by_cases hn : k = n
    · simp [has, get?, hn] at h
    · have hk : (k == n) = false := beq_eq_false_iff_ne.2 hn
      rw [put, if_neg (by simpa using Ne.symm hn), ih]
      · rfl
      · simpa [has, get?, List.lookup_cons, hk] using h

theorem has_append (m m' : Assoc α) (k : Text) : has (m ++ m') k = (m.has k || m'.has k) := by
  rw [has, get?, List.lookup_append, Option.isSome_or]
  rfl

theorem has_singleton (n : Text) (v : α) : has [(n, v)] k = (k == n) := by
  cases h : k == n <;> simp [has, get?, List.lookup_cons, h]

theorem erase_put (v : α) : (m.put k v).erase k = m.erase k := by
  induction m with
  | nil => simp [put, erase]
  | cons e m ih =>
    obtain ⟨n, w⟩ := e
    by_cases hn : n = k
    · simp [put, erase, hn]
    · simpa [put, erase, hn] using ih

theorem erase_of_absent {m : Assoc α} {k : Text} (h : m.get? k = none) : m.erase k = m := by
  refine List.filter_eq_self.2 fun e he => ?_
  have hne := List.lookup_eq_none_iff.1 h e he
  rw [bne_iff_ne]
  exact (bne_iff_ne.1 hne).symm

theorem get?_erase (n : Text) : (m.erase k).get? n = if n = k then none else m.get? n := by
  induction m with
  | nil => simp [erase, get?]
  | cons e m ih =>
    obtain ⟨n', w⟩ := e
    by_cases hn : n' = k
    · have herase : erase ((n', w) :: m) k = erase m k := by simp [erase, hn]
      rw [herase, ih]
      split
      · rfl
      · next hne =>
        have hb : (n == n') = false := beq_eq_false_iff_ne.2 (hn ▸ hne)
        simp [get?, List.lookup_cons, hb]
    · have herase : erase ((n', w) :: m) k = (n', w) :: erase m k := by simp [erase, hn]
      rw [herase, get?, List.lookup_cons, get?, List.lookup_cons]
      cases hb : n == n' with
      | true => simp [eq_of_beq hb, hn]
      | false => exact ih

theorem names_erase_sublist : (m.erase k).names.Sublist m.names :=
  List.filter_sublist.map Prod.fst

theorem get?_of_mem {m : Assoc α} {k : Text} (h : m.names.Nodup) {v : α} (hm : (k, v) ∈ m) :
    m.get? k = some v := by
  induction m with
  | nil => cases hm
  | cons e m ih =>
    obtain ⟨hnew, hrest⟩ := List.nodup_cons.1 h
    rcases List.mem_cons.1 hm with rfl | hm
    · simp [get?]
    · have hne : k ≠ e.1 := fun he => hnew (List.mem_map.2 ⟨(k, v), hm, he⟩)
      have hb : (k == e.1) = false := beq_eq_false_iff_ne.2 hne
      rw [get?, List.lookup_cons, hb]
      exact ih hrest hm

/-- What only the value of one name gives. -/
theorem flatMap_of_other {β : Type} {m : Assoc α} {k : Text} (h : m.names.Nodup) {f : Text × α → List β}
    (hf : ∀ e ∈ m, e.1 ≠ k → f e = []) : m.flatMap f = (m.get? k).toList.flatMap fun v => f (k, v) := by
  induction m with
  | nil => rfl
  | cons e m ih =>
    obtain ⟨hnew, hrest⟩ := List.nodup_cons.1 h
    have ih := ih hrest fun e he => hf e (List.mem_cons_of_mem _ he)
    obtain ⟨n, v⟩ := e
    by_cases hn : n = k
    · subst hn
      have habsent : get? m n = none := by
        refine List.lookup_eq_none_iff.2 fun e he => bne_iff_ne.2 fun hne => hnew ?_
        exact List.mem_map.2 ⟨e, he, hne.symm⟩
      rw [List.flatMap_cons, ih, habsent]
      simp [get?]
    · have hb : (k == n) = false := beq_eq_false_iff_ne.2 (Ne.symm hn)
      rw [List.flatMap_cons, hf (n, v) (by simp) hn, ih, get?, get?, List.lookup_cons, hb]
      rfl

theorem names_put (v : α) : (m.put k v).names = addOnce m.names k := by
  induction m with
  | nil => rfl
  | cons e m ih =>
    obtain ⟨n, w⟩ := e
    by_cases hn : n = k
    · simp [put, names, addOnce, hn]
    · rw [put, if_neg (by simpa using hn)]
      simp only [names, List.map_cons, addOnce] at ih ⊢
      rw [ih]
      by_cases hk : k ∈ m.map Prod.fst <;> simp [hk, Ne.symm hn]

/-- The last value of a name counts. -/
theorem get?_putAll (es : List (Text × α)) (n : Text) :
    (m.putAll es).get? n = (es.reverse.lookup n).or (m.get? n) := by
  induction es generalizing m with
  | nil => rfl
  | cons e es ih =>
    have hrest : (m.putAll (e :: es)).get? n = _ := ih (m.put e.1 e.2)
    rw [hrest, get?_put, List.reverse_cons, List.lookup_append, List.lookup_cons, Option.or_assoc]
    by_cases hn : n = e.1
    · simp [hn]
    · have hb : (n == e.1) = false := beq_eq_false_iff_ne.2 hn
      simp [hn, hb]

theorem lookup_reverse_eq_none {es : List (Text × α)} {n : Text} (h : n ∉ es.map Prod.fst) :
    es.reverse.lookup n = none := by
  refine List.lookup_eq_none_iff.2 fun e he => bne_iff_ne.2 fun hn => h ?_
  exact hn ▸ List.mem_map_of_mem (List.mem_reverse.1 he)

/-- Values of different names come in any order. -/
theorem get?_putAll_comm {es es' : List (Text × α)}
    (h : ∀ n ∈ es.map Prod.fst, n ∉ es'.map Prod.fst) :
    ((m.putAll es).putAll es').get? = ((m.putAll es').putAll es).get? := by
  funext n
  simp only [get?_putAll]
  by_cases hn : n ∈ es.map Prod.fst
  · simp [lookup_reverse_eq_none (h n hn)]
  · simp [lookup_reverse_eq_none hn]

theorem get?_putAll_congr {m m' : Assoc α} (h : m.get? = m'.get?) (es : List (Text × α)) :
    (m.putAll es).get? = (m'.putAll es).get? := by
  funext n
  rw [get?_putAll, get?_putAll, h]

end Assoc

end FixedForm
