import FixedForm.Proofs.Text.Scan
import FixedForm.Text.Substitution

/-! What a substitution can put into a text: the new texts of its rule, and what was there. -/
namespace FixedForm.Text

theorem after?_suffix {lead t rest : Text} (h : after? lead t = some rest) : rest <:+ t :=
  ⟨lead, (eq_of_after? h).symm⟩

theorem trimStart_suffix (t : Text) : trimStart t <:+ t := List.dropWhile_suffix isBlank

theorem digits?_suffix {t digits rest : Text} (h : digits? t = some (digits, rest)) : rest <:+ t := by
  rw [digits?] at h
  split at h
  · simp at h
  · cases h
    exact List.dropWhile_suffix _

theorem digits?_isDigit {t digits rest : Text} (h : digits? t = some (digits, rest)) :
    ∀ c ∈ digits, c.isDigit = true := by
  rw [digits?] at h
  split at h
  · simp at h
  · cases h
    exact List.all_eq_true.1 List.all_takeWhile

/-- A property of characters that the rule keeps holds in the whole result. -/
theorem forall_mem_substituteFrom {P : Char → Prop} {rule : Rule}
    (hrule : ∀ before t new left, rule before t = some (new, left) → (∀ c ∈ t, P c) →
      (∀ c ∈ new, P c) ∧ ∀ c ∈ left, P c) (before : Text) {t : Text} (ht : ∀ c ∈ t, P c) :
    ∀ c ∈ substituteFrom rule before t, P c := by
  fun_induction substituteFrom rule before t with
  | case1 => simp
  | case2 before c rest _ ih | case4 before c rest _ _ _ _ ih =>
    have hi := ih fun d hd => ht d (by simp [hd])
    simpa [ht c (by simp)] using hi
  | case3 before c rest new left h hlen seen ih =>
    obtain ⟨hnew, hleft⟩ := hrule _ _ _ _ h ht
    intro d hd
    rcases List.mem_append.1 hd with hd | hd
    · exact hnew d hd
    · exact ih hleft d hd

/-- Where the rule does not match, the text stays. -/
theorem substituteFrom_skip {rule : Rule} {p t : Text} (before : Text)
    (h : ∀ u c v, p = u ++ c :: v → rule (u.reverse ++ before) (c :: (v ++ t)) = none) :
    substituteFrom rule before (p ++ t) = p ++ substituteFrom rule (p.reverse ++ before) t := by
  induction p generalizing before with
  | nil => rfl
  | cons c p ih =>
    have hc : rule before (c :: (p ++ t)) = none := h [] c p rfl
    have hp := ih (c :: before) fun u d v he => by
      have hd := h (c :: u) d v (by rw [he, List.cons_append])
      simpa using hd
    rw [List.cons_append, substituteFrom, hc]
    simpa using hp

/-- A rule that does not look back. -/
theorem substituteFrom_before {rule : Rule} (hrule : ∀ before before' t, rule before t = rule before' t)
    (before before' t : Text) : substituteFrom rule before t = substituteFrom rule before' t := by
  fun_induction substituteFrom rule before t generalizing before' with
  | case1 => rw [substituteFrom]
  | case2 before c rest h ih =>
    rw [substituteFrom, hrule before' before, h, ih]
  | case3 before c rest new left h hlen seen ih =>
    rw [substituteFrom, hrule before' before, h]
    simp only [hlen, if_true]
    rw [ih]
  | case4 before c rest new left h hlen ih =>
    rw [substituteFrom, hrule before' before, h]
    simp only [hlen, if_false]
    rw [ih]

/-- A character that no match takes away stays. -/
theorem mem_substituteFrom {rule : Rule} {c : Char}
    (hrule : ∀ before t new left, rule before t = some (new, left) → ∃ seen, t = seen ++ left ∧ c ∉ seen)
    (before : Text) {t : Text} (h : c ∈ t) : c ∈ substituteFrom rule before t := by
  fun_induction substituteFrom rule before t with
  | case1 => exact h
  | case2 before d rest _ ih | case4 before d rest _ _ _ _ ih =>
    rcases List.mem_cons.1 h with rfl | h
    · simp
    · exact List.mem_cons_of_mem _ (ih h)
  | case3 before d rest new left hm _ seen ih =>
    obtain ⟨taken, ht, hc⟩ := hrule _ _ _ _ hm
    rw [ht] at h
    rcases List.mem_append.1 h with h | h
    · exact absurd h hc
    · exact List.mem_append_right _ (ih h)

theorem mem_of_mem_trim {t : Text} {c : Char} (h : c ∈ t.trim) : c ∈ t :=
  (trimStart_suffix t).mem ((trimEnd_lead _).mem h)

end FixedForm.Text
