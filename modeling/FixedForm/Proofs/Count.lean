import FixedForm.Count

/-! Below `2^53` counts are the integers, and are written with all their digits. -/
namespace FixedForm

theorem Text.value_toDigits (n : Nat) : value (Nat.toDigits 10 n) = n := by
  have h := Nat.ofDigitChars_ten_toDigits (n := n)
  rw [Nat.ofDigitChars_eq_foldl] at h
  simpa [value, Nat.mul_comm] using h

theorem Text.isDigits_toDigits (n : Nat) : isDigits (Nat.toDigits 10 n) = true := by
  have hd : ∀ c ∈ Nat.toDigits 10 n, c.isDigit = true := fun c hc =>
    Nat.isDigit_of_mem_toDigits (by decide) (by decide) hc
  simpa [isDigits, Nat.toDigits_ne_nil] using hd

namespace Count

theorem roundNat_of_lt {n : Nat} (h : n < Nat.pow 2 precision) : roundNat n = n := by
  have hshift : n.log2 + 1 - precision = 0 := by
    by_cases hn : n = 0
    · subst hn
      decide
    · have hlog := (Nat.log2_lt hn).2 h
      omega
  simp [roundNat, roundShift, hshift]
  omega

theorem ofInt_of_lt {n : Int} (h : n.natAbs < Nat.pow 2 precision) : ofInt n = .finite n := by
  have hlimit (k : Nat) (hk : precision ≤ k) : ¬Nat.pow 2 k ≤ n.natAbs :=
    Nat.not_le.2 (Nat.lt_of_lt_of_le h (Nat.pow_le_pow_right (by decide) hk))
  rw [ofInt, roundNat_of_lt h, if_neg (hlimit 1024 (by decide))]
  split <;> congr 1 <;> omega

section Digits
variable {a b : Text} (h : a.value + b.value < Nat.pow 2 precision)
include h

theorem ofDigits_summands : ofDigits a = .finite a.value ∧ ofDigits b = .finite b.value :=
  ⟨ofInt_of_lt (Nat.lt_of_le_of_lt (Nat.le_add_right _ _) h), ofInt_of_lt (Nat.lt_of_le_of_lt (Nat.le_add_left _ _) h)⟩

theorem add_ofDigits : (ofDigits a).add (ofDigits b) = .finite (a.value + b.value) := by
  obtain ⟨ha, hb⟩ := ofDigits_summands h
  rw [ha, hb, add, ofInt_of_lt (by omega)]

theorem sub_ofDigits : (ofDigits a).sub (ofDigits b) = .finite (a.value - b.value) := by
  obtain ⟨ha, hb⟩ := ofDigits_summands h
  rw [ha, hb, sub, neg, add, ← Int.sub_eq_add_neg, ofInt_of_lt (by omega)]

end Digits

theorem mul_ofDigits {m : Nat} {d : Text} (h : m * d.value < Nat.pow 2 precision) (hm : 1 ≤ m) :
    (finite m).mul (ofDigits d) = .finite (m * d.value) := by
  have hd : ofDigits d = .finite d.value :=
    ofInt_of_lt (Nat.lt_of_le_of_lt (Nat.le_mul_of_pos_left _ hm) h)
  rw [hd, mul, ← Int.natCast_mul]
  exact ofInt_of_lt (n := (m * d.value : Nat)) h

theorem render_of_lt {n : Int} (h : n.natAbs < Nat.pow 2 precision) :
    render (.finite n) = (if n < 0 then ['-'] else []) ++ Nat.toDigits 10 n.natAbs := by
  have hlen : (Nat.toDigits 10 n.natAbs).length ≤ 21 := by
    have hpow : Nat.pow 2 precision ≤ Nat.pow 10 21 := by decide
    exact (Nat.length_toDigits_le_iff (by decide) (by decide)).2 (Nat.lt_of_lt_of_le h hpow)
  have hshort : shortest n.natAbs = n.natAbs := if_pos h
  rw [render, renderNat, hshort, if_pos hlen]

theorem renderNat_marks (n : Nat) : ∀ c ∈ renderNat n, isOperand c = true ∨ c = '+' := by
  have hdigit (m : Nat) : ∀ c ∈ Nat.toDigits 10 m, isOperand c = true := fun c hc => by
    simp [isOperand, isWord, Char.isAlphanum, Nat.isDigit_of_mem_toDigits (by decide) (by decide) hc]
  have hlead : ∀ c ∈ ((Nat.toDigits 10 (shortest n)).reverse.dropWhile (· == '0')).reverse,
      isOperand c = true := fun c hc =>
    hdigit _ c (List.mem_reverse.1 ((List.dropWhile_sublist _).subset (List.mem_reverse.1 hc)))
  intro c hc
  simp only [renderNat] at hc
  split at hc
  · exact .inl (hdigit _ c hc)
  · simp only [List.mem_append] at hc
    rcases hc with ((hc | hc) | hc) | hc
    · exact .inl (hlead c (List.mem_of_mem_take hc))
    · split at hc
      · cases hc
      · rcases List.mem_cons.1 hc with rfl | hc
        · exact .inl (by decide)
        · exact .inl (hlead c (List.mem_of_mem_drop hc))
    · have hall : ("e+".toList.all fun d => isOperand d || d == '+') = true := by decide
      simpa using List.all_eq_true.1 hall c hc
    · exact .inl (hdigit _ c hc)

/-- A count is written with digits, letters, signs and a point. -/
theorem render_marks (v : Count) : ∀ c ∈ v.render, isOperand c = true ∨ c = '+' ∨ c = '-' := by
  have hsign (p : Prop) [Decidable p] {t : Text} (ht : ∀ c ∈ t, isOperand c = true ∨ c = '+') :
      ∀ c ∈ (if p then ['-'] else []) ++ t, isOperand c = true ∨ c = '+' ∨ c = '-' := by
    intro c hc
    rcases List.mem_append.1 hc with hc | hc
    · split at hc
      · exact .inr (.inr (List.mem_singleton.1 hc))
      · cases hc
    · exact (ht c hc).imp_right .inl
  have hword {t : Text} (ht : t.all isOperand = true) : ∀ c ∈ t, isOperand c = true ∨ c = '+' :=
    fun c hc => .inl (List.all_eq_true.1 ht c hc)
  cases v with
  | finite n => exact hsign _ (renderNat_marks n.natAbs)
  | infinite negative => exact hsign _ (hword (by decide))
  | undefined => exact fun c hc => (hword (by decide) c hc).imp_right .inl

end Count

end FixedForm
