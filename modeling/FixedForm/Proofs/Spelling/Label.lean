import FixedForm.Proofs.Statement.Field
import FixedForm.Proofs.Text.Case
import FixedForm.Proofs.Text.Literal
import FixedForm.Proofs.Text.Substitution
import FixedForm.Spelling
import Mathlib.Data.Option.Basic

/-! Spelling leaves the label of a statement alone, unless the label is the base of a power. -/
namespace FixedForm
open Text

theorem InField.isSmall {c : Char} (h : InField c) : IsSmall c :=
  h.elim isSmall_of_blank isSmall_of_digit

theorem InField.not_quote {c : Char} (h : InField c) : isQuote c = false := by
  rw [isQuote, Bool.or_eq_false_iff, beq_eq_false_iff_ne, beq_eq_false_iff_ne]
  constructor <;> rintro rfl <;> exact absurd h (by simp [InField, isBlank, Char.isDigit])

namespace HasLabel
variable {t blanks digits rest : Text}

/-- The same label with another rest behind it. -/
theorem of_head (h : HasLabel t blanks digits rest) {rest' : Text}
    (hr : rest'.head? = rest.head?) : HasLabel (blanks ++ (digits ++ rest')) blanks digits rest' where
  text_eq := rfl
  allBlank := h.allBlank
  allDigit := h.allDigit
  ne_nil := h.ne_nil
  ends := fun c hc => h.ends c (hr ▸ hc)
  field := h.field

end HasLabel

/-- `f` leaves the label field of a labelled line alone, and the first character after it. -/
def KeepsField (f : Text → Text) : Prop :=
  ∀ ⦃t blanks digits rest : Text⦄, HasLabel t blanks digits rest →
    ∃ rest', f t = blanks ++ (digits ++ rest') ∧ rest'.head? = rest.head?

namespace KeepsField

theorem comp {f g : Text → Text} (hg : KeepsField g) (hf : KeepsField f) :
    KeepsField fun t => g (f t) := by
  intro t blanks digits rest h
  obtain ⟨rest', he, hr⟩ := hf h
  obtain ⟨rest'', he', hr'⟩ := hg (h.of_head hr)
  exact ⟨rest'', (congrArg g he).trans he', hr'.trans hr⟩

theorem foldl {rules : List Rule} (h : ∀ rule ∈ rules, KeepsField (Text.substitute rule)) :
    KeepsField (substituteAll rules) := by
  induction rules with
  | nil => exact fun t blanks digits rest h => ⟨rest, h.text_eq, rfl⟩
  | cons rule rules ih =>
    exact (ih fun r hr => h r (by simp [hr])).comp (h rule (by simp))

/-- Lower case. -/
theorem lower : KeepsField Text.lower := by
  intro t blanks digits rest h
  have hsmall : ∀ c ∈ blanks ++ digits, IsSmall c := fun c hc => (h.mem_field c hc).isSmall
  cases hr : rest with
  | nil =>
    obtain ⟨before, he⟩ := lower_append hsmall []
    refine ⟨[], ?_, rfl⟩
    rw [h.text_eq, hr, ← List.append_assoc, he]
    simp [points, lowerPoints, ofPoints]
  | cons c r =>
    have hc : isBlank c = true := h.head_field (by rw [hr]; rfl)
    obtain ⟨before, he⟩ := lower_append (p := blanks ++ digits ++ [c])
      (fun d hd => by
        rcases List.mem_append.1 hd with hd | hd
        · exact hsmall d hd
        · rw [List.mem_singleton.1 hd]
          exact isSmall_of_blank hc) r
    refine ⟨c :: ofPoints (lowerPoints before (points r)), ?_, rfl⟩
    rw [h.text_eq, hr]
    simpa using he

/-- A rule that matches neither in a label field nor right after it. -/
theorem substitute {rule : Rule}
    (hrule : ∀ ⦃t blanks digits rest : Text⦄, HasLabel t blanks digits rest → ∀ before u c v,
      blanks ++ (digits ++ rest) = u ++ c :: v → u.length ≤ (blanks ++ digits).length →
        rule before (c :: v) = none) : KeepsField (Text.substitute rule) := by
  intro t blanks digits rest h
  have hskip : substituteFrom rule [] (blanks ++ digits ++ rest) =
      blanks ++ digits ++ substituteFrom rule ((blanks ++ digits).reverse ++ []) rest :=
    substituteFrom_skip [] fun u c v he =>
      hrule h _ u c (v ++ rest) (by rw [← List.append_assoc, he]; simp) (by rw [he]; simp)
  have htext : blanks ++ (digits ++ rest) = blanks ++ digits ++ rest := (List.append_assoc ..).symm
  refine ⟨substituteFrom rule ((blanks ++ digits).reverse ++ []) rest, ?_, ?_⟩
  · rw [h.text_eq, htext, Text.substitute, hskip, List.append_assoc]
  · cases rest with
    | nil => rw [substituteFrom]
    | cons c r =>
      have hc := hrule h ((blanks ++ digits).reverse ++ []) (blanks ++ digits) c r (by simp)
        (Nat.le_refl _)
      rw [substituteFrom, hc]
      rfl

/-- Changes of the code only. -/
theorem mapCode {f : Text → Text} (hf : KeepsField f) : KeepsField (Text.mapCode f) := by
  intro t blanks digits rest h
  have hfree : ∀ c ∈ blanks ++ digits, (!isQuote c) = true := fun c hc => by
    simp [(h.mem_field c hc).not_quote]
  have htext : t = blanks ++ digits ++ rest := by rw [h.text_eq, List.append_assoc]
  have htake : t.takeWhile (!isQuote ·) = blanks ++ (digits ++ rest.takeWhile (!isQuote ·)) := by
    rw [htext, List.takeWhile_append_of_pos hfree, List.append_assoc]
  have hdrop : t.dropWhile (!isQuote ·) = rest.dropWhile (!isQuote ·) := by
    rw [htext, List.dropWhile_append_of_pos hfree]
  have hhead : (rest.takeWhile (!isQuote ·)).head? = rest.head? := by
    cases rest with
    | nil => rfl
    | cons c r =>
      have hc : InField c := .inl (h.head_field rfl)
      simp [hc.not_quote]
  obtain ⟨rest', he, hr⟩ := hf (h.of_head hhead)
  obtain ⟨tail, ht, hnil⟩ := mapCode_eq_append f t
  refine ⟨rest' ++ tail, ?_, ?_⟩
  · rw [ht, htake, he]
    simp
  · cases rest with
    | nil =>
      have hr' : rest' = [] := by simpa using hr
      rw [hr', hnil (by rw [hdrop]; rfl)]
      rfl
    | cons c r =>
      rw [List.head?_append, hr, hhead]
      rfl

end KeepsField

namespace Spelling

/-- The characters of a field, and the one behind it. -/
theorem inField_of_split {t blanks digits rest u v : Text} {c : Char}
    (h : HasLabel t blanks digits rest) (he : blanks ++ (digits ++ rest) = u ++ c :: v)
    (hu : u.length ≤ (blanks ++ digits).length) : InField c := by
  have hc : (blanks ++ digits ++ rest)[u.length]? = some c := by
    rw [List.append_assoc, he]
    simp
  rcases Nat.lt_or_eq_of_le hu with hu | hu
  · rw [List.getElem?_append_left hu] at hc
    exact h.mem_field c (List.mem_of_getElem? hc)
  · rw [hu, List.getElem?_append_right (Nat.le_refl _), Nat.sub_self, ← List.head?_eq_getElem?] at hc
    exact .inl (h.head_field hc)

theorem toLower_of_inField {c : Char} (h : InField c) : c.toLower = c := by
  have hn : ¬ (c.val ≥ 'A'.val ∧ c.val ≤ 'Z'.val) := by
    have hr : ¬ (65 ≤ c.toNat ∧ c.toNat ≤ 90) := by
      rcases h with h | h
      · have := isBlank_range h
        omega
      · have := isDigit_iff.1 h
        omega
    rwa [ge_iff_le, UInt32.le_iff_toNat_le, UInt32.le_iff_toNat_le]
  exact dif_neg hn

theorem afterFold?_field {word : Text} (hw : startsSolid word = true) {c : Char} (hc : InField c)
    (t : Text) : afterFold? word (c :: t) = none := by
  cases word with
  | nil => simp [startsSolid] at hw
  | cons a word =>
    have ha : isBlank a = false ∧ a.isDigit = false := by simpa [startsSolid] using hw
    have hne : c ≠ a := by
      rintro rfl
      rcases hc with h | h
      · rw [h] at ha
        cases ha.1
      · rw [h] at ha
        cases ha.2
    rw [afterFold?, toLower_of_inField hc, if_neg (by simpa using hne)]

theorem twoWords_field {first : Text} (hw : startsSolid first = true) (second new : Text) {c : Char}
    (hc : InField c) (before t : Text) : twoWords first second new before (c :: t) = none := by
  rw [twoWords, afterFold?_field hw hc]
  cases (guard (wordStarts before = true) : Option Unit) <;> rfl

theorem starred_field {type : Text} (hw : startsSolid type = true) (size new : Text) {c : Char}
    (hc : InField c) (before t : Text) : starred type size new before (c :: t) = none := by
  rw [starred, afterFold?_field hw hc]
  cases (guard (wordStarts before = true) : Option Unit) <;> rfl

theorem dotted_field (name new : Text) {c : Char} (hc : InField c) (before t : Text) :
    dotted name new before (c :: t) = none := by
  rw [dotted, afterFold?_field (by rfl) hc]
  rfl

theorem keepsField_collapseTypes : KeepsField collapseTypes := by
  refine KeepsField.foldl fun rule hrule => KeepsField.substitute ?_
  intro t blanks digits rest h before u c v he hu
  have hc := inField_of_split h he hu
  simp only [typeNames, List.mem_cons, List.not_mem_nil, or_false] at hrule
  rcases hrule with rfl | rfl | rfl | rfl | rfl | rfl
  iterate 2 exact twoWords_field (by decide) _ _ hc _ _
  iterate 4 exact starred_field (by decide) _ _ hc _ _

theorem exists_dotted {rule : Rule} (h : rule ∈ dottedWords) : ∃ name new, rule = dotted name new := by
  simp only [dottedWords, List.mem_cons, List.not_mem_nil, or_false] at h
  rcases h with h | h | h | h | h | h | h | h | h | h | h <;> exact ⟨_, _, h⟩

theorem keepsField_operators : KeepsField operators := by
  refine KeepsField.mapCode (KeepsField.foldl fun rule hrule => KeepsField.substitute ?_)
  intro t blanks digits rest h before u c v he hu
  obtain ⟨name, new, rfl⟩ := exists_dotted hrule
  exact dotted_field name new (inField_of_split h he hu) before v

theorem mantissa?_digits {d t : Text} (hd : ∀ c ∈ d, c.isDigit = true) (hne : d ≠ [])
    (ht : StartsOutside Char.isDigit t) (hp : t.head? ≠ some '.') : mantissa? (d ++ t) = some (d, t) := by
  simp only [mantissa?, digits?_run hd hne ht]
  split
  · next heq =>
    cases heq
    exact absurd rfl hp
  · next heq => rw [heq]
  · next heq => cases heq

/-- From a digit in the label field on, the text is the end of the label and what follows it. -/
theorem digits_of_split {t blanks digits rest u v : Text} {c : Char}
    (h : HasLabel t blanks digits rest) (he : blanks ++ (digits ++ rest) = u ++ c :: v)
    (hu : u.length ≤ (blanks ++ digits).length) (hc : c.isDigit = true) :
    ∃ d, c :: v = d ++ rest ∧ d ≠ [] ∧ ∀ x ∈ d, x.isDigit = true := by
  have hblank : ¬ isBlank c = true := fun hb => by simp [not_digit_of_blank hb] at hc
  rcases List.append_eq_append_iff.1 he with ⟨a, rfl, ha⟩ | ⟨x, rfl, hx⟩
  · rcases List.append_eq_append_iff.1 ha with ⟨x, rfl, rfl⟩ | ⟨d, rfl, hd⟩
    · obtain rfl : x = [] := List.length_eq_zero_iff.1 (by simp only [List.length_append] at hu; omega)
      exact (hblank (h.head_field rfl)).elim
    · refine ⟨d, hd, fun hnil => ?_, fun x hx => h.allDigit x (by simp [hx])⟩
      exact hblank (h.head_field (by rw [← List.nil_append rest, ← hnil, ← hd]; rfl))
  · cases x with
    | nil => exact ⟨digits, hx, h.ne_nil, h.allDigit⟩
    | cons b x =>
      obtain ⟨rfl, -⟩ := List.cons.inj hx
      exact (hblank (mem_of_allBlank h.allBlank c (by simp))).elim

/-- The digits of a label have no exponent behind them. -/
theorem doubleExponent_field {t blanks digits rest : Text} (h : HasLabel t blanks digits rest)
    {u v : Text} {c : Char} (he : blanks ++ (digits ++ rest) = u ++ c :: v)
    (hu : u.length ≤ (blanks ++ digits).length) (before : Text) :
    doubleExponent before (c :: v) = none := by
  suffices hm : (mantissa? (c :: v)).bind (fun m => afterFold? "d" m.2) = none by
    rw [doubleExponent]
    cases (guard ((before.head?.map fun c => !isOperand c).getD true = true) : Option Unit) with
    | none => rfl
    | some _ =>
      cases hmant : mantissa? (c :: v) with
      | none => rfl
      | some m =>
        rw [hmant, Option.bind_some] at hm
        simp only [Option.bind_eq_bind, Option.bind_some, hm, Option.bind_none]
  rcases inField_of_split h he hu with hc | hc
  · have hpoint : c ≠ '.' := by
      rintro rfl
      exact absurd hc (by decide)
    have hm : mantissa? (c :: v) = none := by
      simp only [mantissa?, digits?_of_outside (.cons (not_digit_of_blank hc))]
      split
      · next heq => exact absurd (List.cons.inj heq).1 hpoint
      · rfl
    rw [hm]
    rfl
  · obtain ⟨d, hd, hne, hdigits⟩ := digits_of_split h he hu hc
    have hpoint : rest.head? ≠ some '.' := fun hp => absurd (h.head_field hp) (by decide)
    rw [hd, mantissa?_digits hdigits hne h.outside_digit hpoint, Option.bind_some]
    cases hr : rest with
    | nil => rfl
    | cons b r => exact afterFold?_field (by decide) (.inl (h.head_field (by rw [hr]; rfl))) r

theorem keepsField_numbers : KeepsField numbers :=
  KeepsField.mapCode (KeepsField.substitute fun _ _ _ _ h before _ _ _ he hu =>
    doubleExponent_field h he hu before)

theorem keepsField_beforePowers : KeepsField beforePowers :=
  keepsField_numbers.comp (keepsField_operators.comp
    (keepsField_collapseTypes.comp KeepsField.lower.mapCode))

end Spelling

end FixedForm
