import FixedForm.Proofs.Text.Scan

/-! Character classes as ranges of code points, which of them exclude each other, and names. -/
namespace FixedForm
variable {c : Char}

theorem isDigit_iff : c.isDigit = true ↔ 48 ≤ c.toNat ∧ c.toNat ≤ 57 := by
  simp only [Char.isDigit, Bool.and_eq_true, decide_eq_true_eq, ge_iff_le, UInt32.le_iff_toNat_le]
  rfl

theorem isAlpha_iff : c.isAlpha = true ↔
    (65 ≤ c.toNat ∧ c.toNat ≤ 90) ∨ (97 ≤ c.toNat ∧ c.toNat ≤ 122) := by
  change (decide (c.val ≥ 'A'.val ∧ c.val ≤ 'Z'.val) ||
    (decide (c.val ≥ 'a'.val) && decide (c.val ≤ 'z'.val))) = true ↔ _
  simp only [Bool.or_eq_true, Bool.and_eq_true, decide_eq_true_eq, ge_iff_le,
    UInt32.le_iff_toNat_le]
  rfl

theorem eq_iff_toNat {d : Char} : c = d ↔ c.toNat = d.toNat :=
  ⟨congrArg _, fun h => Char.toNat_inj.1 h⟩

theorem isUpper_iff : c.isUpper = true ↔ 65 ≤ c.toNat ∧ c.toNat ≤ 90 := by
  change decide (c.val ≥ 'A'.val ∧ c.val ≤ 'Z'.val) = true ↔ _
  simp only [decide_eq_true_eq, ge_iff_le, UInt32.le_iff_toNat_le]
  rfl

theorem toLower_of_not_isUpper (h : c.isUpper ≠ true) : c.toLower = c :=
  dif_neg fun hc => h (decide_eq_true hc)

/-- A capital letter goes to the small one, and nothing else is moved. -/
theorem toNat_toLower (c : Char) :
    c.toLower.toNat = if 65 ≤ c.toNat ∧ c.toNat ≤ 90 then c.toNat + 32 else c.toNat := by
  by_cases h : c.isUpper = true
  · have hrange := isUpper_iff.1 h
    rw [if_pos hrange]
    calc c.toLower.toNat
      _ = (c.val + 32).toNat := congrArg Char.toNat (dif_pos (of_decide_eq_true h))
      _ = (c.toNat + 32) % 2 ^ 32 := UInt32.toNat_add ..
      _ = c.toNat + 32 := Nat.mod_eq_of_lt (by omega)
  · rw [toLower_of_not_isUpper h, if_neg (mt isUpper_iff.2 h)]

theorem isAlpha_toLower (c : Char) : c.toLower.isAlpha = c.isAlpha := by
  rw [Bool.eq_iff_iff, isAlpha_iff, isAlpha_iff, toNat_toLower]
  split <;> omega

theorem toLower_toLower (c : Char) : c.toLower.toLower = c.toLower := by
  rw [eq_iff_toNat, toNat_toLower, toNat_toLower]
  split
  · rw [if_neg (by omega)]
  · rfl

theorem isWord_iff : isWord c = true ↔
    (65 ≤ c.toNat ∧ c.toNat ≤ 90) ∨ (97 ≤ c.toNat ∧ c.toNat ≤ 122) ∨
      (48 ≤ c.toNat ∧ c.toNat ≤ 57) ∨ c.toNat = 95 := by
  have h : c = '_' ↔ c.toNat = 95 := eq_iff_toNat
  rw [isWord, Char.isAlphanum, Bool.or_eq_true, Bool.or_eq_true, isAlpha_iff, isDigit_iff,
    beq_iff_eq, h, or_assoc, or_assoc]

theorem isBlank_range (h : isBlank c = true) :
    c.toNat = 32 ∨ (9 ≤ c.toNat ∧ c.toNat ≤ 13) ∨ 160 ≤ c.toNat := by
  simp only [isBlank, Bool.or_eq_true, Bool.and_eq_true, beq_iff_eq, decide_eq_true_eq] at h
  omega

theorem not_blank_of_word (h : isWord c = true) : isBlank c = false := by
  cases hb : isBlank c with
  | false => rfl
  | true =>
    have h₁ := isWord_iff.1 h
    have h₂ := isBlank_range hb
    omega

theorem not_word_of_blank (h : isBlank c = true) : isWord c = false := by
  cases hw : isWord c with
  | false => rfl
  | true => simp [not_blank_of_word hw] at h

theorem word_of_digit (h : c.isDigit = true) : isWord c = true := by
  simp [isWord, Char.isAlphanum, h]

theorem not_digit_of_blank (h : isBlank c = true) : c.isDigit = false := by
  cases hd : c.isDigit with
  | false => rfl
  | true => simpa [not_word_of_blank h] using word_of_digit hd

namespace Text

/-- A word that does not start with a digit. -/
structure IsName (w : Text) : Prop where
  word : w.isWordText = true
  start : StartsOutside Char.isDigit w

instance (w : Text) : Decidable (IsName w) :=
  decidable_of_iff (w.isWordText = true ∧ w.head?.all (fun c => !c.isDigit) = true)
    ⟨fun h => ⟨h.1, fun c hc => by simpa [hc] using h.2⟩,
      fun h => ⟨h.word, by
        cases hc : w.head? with
        | none => rfl
        | some c => simp [h.start c hc]⟩⟩

/-- The text starts with a letter or an underscore. -/
def StartsName (t : Text) : Prop := ∃ c u, t = c :: u ∧ isWord c = true ∧ c.isDigit = false

theorem StartsName.outside_blank {t : Text} (h : StartsName t) : StartsOutside isBlank t := by
  obtain ⟨c, u, rfl, hc, -⟩ := h
  exact .cons (not_blank_of_word hc)

theorem StartsName.outside_digit {t : Text} (h : StartsName t) : StartsOutside Char.isDigit t := by
  obtain ⟨c, u, rfl, -, hc⟩ := h
  exact .cons hc

theorem mem_of_isDigits {k : Text} (h : k.isDigits = true) :
    k ≠ [] ∧ ∀ c ∈ k, c.isDigit = true := by
  simp only [isDigits, Bool.and_eq_true, List.all_eq_true] at h
  exact ⟨by simpa using h.1, h.2⟩

theorem mem_of_isWordText {w : Text} (h : w.isWordText = true) : w ≠ [] ∧ ∀ c ∈ w, isWord c = true := by
  simpa [isWordText] using h

theorem IsName.startsName {w : Text} (h : IsName w) (u : Text) : StartsName (w ++ u) := by
  have hw := h.word
  cases w with
  | nil => simp [isWordText] at hw
  | cons c w =>
    refine ⟨c, w ++ u, rfl, ?_, h.start c rfl⟩
    simp only [isWordText, List.all_cons, Bool.and_eq_true] at hw
    exact hw.2.1

theorem IsName.mem_word {w : Text} (h : IsName w) : w ≠ [] ∧ ∀ c ∈ w, isWord c = true := mem_of_isWordText h.word

theorem outside_word_gap {g t : Text} (hg : g.allBlank = true) (ht : StartsOutside isWord t) :
    StartsOutside isWord (g ++ t) := by
  cases g with
  | nil => exact ht
  | cons c g => exact .cons (not_word_of_blank (mem_of_allBlank hg c (by simp)))

end Text

end FixedForm
