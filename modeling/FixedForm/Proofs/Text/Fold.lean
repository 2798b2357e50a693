import FixedForm.Card
import FixedForm.Proofs.Text.Classes

/-! Texts that differ in the case of letters before a remark.  What a card is, where its statement ends
and what its remark says do not depend on it. -/
namespace FixedForm

/-- A class without letters does not see the case of a character. -/
theorem class_toLower {p : Char → Bool} (hp : ∀ c, c.isAlpha = true → p c = false) (c : Char) :
    p c.toLower = p c := by
  by_cases hu : c.isUpper = true
  · have ha : c.isAlpha = true := isAlpha_iff.2 (.inl (isUpper_iff.1 hu))
    rw [hp c ha, hp c.toLower (by rw [isAlpha_toLower, ha])]
  · rw [toLower_of_not_isUpper hu]

theorem toLower_of_not_ascii {c : Char} (h : ¬ c.toNat < 0x80) : c.toLower = c := by
  rw [eq_iff_toNat, toNat_toLower, if_neg (by omega)]

theorem isBlank_toLower (c : Char) : isBlank c.toLower = isBlank c :=
  class_toLower (p := isBlank) (fun c hc => not_blank_of_word (by simp [isWord, Char.isAlphanum, hc])) c

/-- A mark that is no letter. -/
theorem beq_toLower {d : Char} (hd : d.isAlpha = false) (c : Char) : (c.toLower == d) = (c == d) := by
  refine class_toLower (p := (· == d)) (fun c hc => beq_eq_false_iff_ne.2 ?_) c
  rintro rfl
  simp [hd] at hc

theorem toLower_ne {c d : Char} (hd : d.isAlpha = false) (h : c ≠ d) : c.toLower ≠ d := by
  rw [← beq_eq_false_iff_ne, beq_toLower hd, beq_eq_false_iff_ne]
  exact h

theorem isQuote_toLower (c : Char) : isQuote c.toLower = isQuote c := by
  rw [isQuote, isQuote, beq_toLower (by decide), beq_toLower (by decide)]

theorem isLineEnd_toLower (c : Char) : isLineEnd c.toLower = isLineEnd c := by
  simp only [isLineEnd, beq_toLower (d := '\n') (by decide), beq_toLower (d := '\r') (by decide),
    beq_toLower (d := '\u2028') (by decide), beq_toLower (d := '\u2029') (by decide)]

namespace Text

theorem trimEnd_map_toLower (t : Text) : trimEnd (t.map Char.toLower) = (trimEnd t).map Char.toLower := by
  have hblank : isBlank ∘ Char.toLower = isBlank := funext isBlank_toLower
  rw [trimEnd, ← List.map_reverse, List.dropWhile_map, hblank, ← List.map_reverse, trimEnd]

/-- The letters before the first `!` in lower case. -/
def foldCode : Text → Text
  | [] => []
  | c :: t => if c == '!' then c :: t else c.toLower :: foldCode t

variable {c : Char} {t : Text}

theorem foldCode_cons (hc : c ≠ '!') (t : Text) : foldCode (c :: t) = c.toLower :: foldCode t := by
  rw [foldCode, if_neg (by simpa using hc)]

theorem foldCode_remark (t : Text) : foldCode ('!' :: t) = '!' :: t := rfl

theorem foldCode_foldCode (t : Text) : foldCode (foldCode t) = foldCode t := by
  induction t with
  | nil => rfl
  | cons c t ih =>
    by_cases hc : c = '!'
    · rw [hc]
      rfl
    · have hl : c.toLower ≠ '!' := toLower_ne (by decide) hc
      rw [foldCode_cons hc, foldCode_cons hl, ih, toLower_toLower]

/-- What does not see case holds of the folded text as it does of the text. -/
theorem forall_mem_foldCode {P : Char → Prop} (hP : ∀ c, P c.toLower ↔ P c) (t : Text) :
    (∀ c ∈ foldCode t, P c) ↔ ∀ c ∈ t, P c := by
  induction t with
  | nil => exact Iff.rfl
  | cons c t ih =>
    by_cases hc : c = '!'
    · rw [hc, foldCode_remark]
    · rw [foldCode_cons hc, List.forall_mem_cons, List.forall_mem_cons, hP, ih]

theorem any_foldCode {p : Char → Bool} (hp : ∀ c, p c.toLower = p c) (t : Text) :
    (foldCode t).any p = t.any p := by
  induction t with
  | nil => rfl
  | cons c t ih =>
    by_cases hc : c = '!'
    · rw [hc, foldCode_remark]
    · rw [foldCode_cons hc, List.any_cons, List.any_cons, hp, ih]

theorem allBlank_foldCode (t : Text) : (foldCode t).allBlank = t.allBlank := by
  have hnot := any_foldCode (p := fun c => !isBlank c) (fun c => by rw [isBlank_toLower]) t
  rw [List.any_eq_not_all_not, List.any_eq_not_all_not, Bool.not_inj_iff] at hnot
  simpa [allBlank] using hnot

theorem hasLineEnd_foldCode (t : Text) : (foldCode t).hasLineEnd = t.hasLineEnd :=
  any_foldCode isLineEnd_toLower t

theorem trimStart_foldCode (t : Text) : trimStart (foldCode t) = foldCode (trimStart t) := by
  induction t with
  | nil => rfl
  | cons c t ih =>
    by_cases hc : c = '!'
    · rw [hc]
      rfl
    · simp only [trimStart, foldCode_cons hc, List.dropWhile_cons, isBlank_toLower] at ih ⊢
      split
      · exact ih
      · exact (foldCode_cons hc t).symm

/-- Blanks at the start. -/
theorem after?_foldCode {lead : Text} (h : ∀ c ∈ lead, c = ' ') (t : Text) :
    after? lead (foldCode t) = (after? lead t).map foldCode := by
  induction lead generalizing t with
  | nil => rfl
  | cons a lead ih =>
    obtain rfl := h a (by simp)
    cases t with
    | nil => rfl
    | cons c t =>
      by_cases hc : c = '!'
      · rw [hc]
        rfl
      · rw [foldCode_cons hc, after?, after?, beq_toLower (by decide)]
        split
        · exact ih (fun d hd => h d (by simp [hd])) t
        · rfl

theorem expandTabs_foldCode (n : Nat) (t : Text) :
    foldCode (expandTabs n t) = expandTabs n (foldCode t) := by
  have hspaces (n : Nat) (u : Text) : foldCode (spaces n ++ u) = spaces n ++ foldCode u := by
    induction n with
    | zero => rfl
    | succ n ih => exact congrArg (' ' :: ·) ih
  induction t with
  | nil => rfl
  | cons c t ih =>
    by_cases hc : c = '!'
    · rw [hc]
      rfl
    · rw [foldCode_cons hc]
      simp only [expandTabs, List.flatMap_cons, beq_toLower (d := '\t') (by decide)] at ih ⊢
      split
      · rw [hspaces, ih]
      · rw [List.singleton_append, foldCode_cons hc, ih]
        rfl

/-- The code of a card is a part of it. -/
theorem splitRemark_lead (t : Text) : (splitRemark t).1 <+: t := by
  have hcut (quote : Option Char) (t : Text) : (cutRemark quote t).1 <+: t := by
    fun_induction cutRemark quote t with
    | case1 | case3 => exact List.nil_prefix
    | case2 q c t code remark hrest ih | case4 c t hc code remark hrest ih =>
      rw [hrest] at ih
      exact List.cons_prefix_cons.2 ⟨rfl, ih⟩
  exact (trimEnd_lead _).trans (hcut none t)

/-- The remark of a card does not depend on the case of its code. -/
theorem splitRemark_foldCode (h : ∀ c ∈ t, isQuote c = false) :
    splitRemark (foldCode t) = ((splitRemark t).1.map Char.toLower, (splitRemark t).2) := by
  have hcut : cutRemark none (foldCode t) = ((cutRemark none t).1.map Char.toLower, (cutRemark none t).2) := by
    induction t with
    | nil => rfl
    | cons c t ih =>
      have hq : isQuote c = false := h c (by simp)
      by_cases hc : c = '!'
      · rw [hc]
        rfl
      · have hl : c.toLower ≠ '!' := toLower_ne (by decide) hc
        rw [foldCode_cons hc]
        simp only [cutRemark, beq_iff_eq, hc, hl, if_false, isQuote_toLower, hq, Bool.false_eq_true,
          ih fun d hd => h d (by simp [hd]), List.map_cons]
  simp only [splitRemark, hcut, trimEnd_map_toLower]

end Text

end FixedForm
