import FixedForm.Proofs.Text.Classes
import FixedForm.Statement.Shape

/-! Label fields.  A line with a label is a run of blanks, the digits and the rest; its shape is that of
its statement. -/
namespace FixedForm
open Text

/-- A character of a label field. -/
def InField (c : Char) : Prop := isBlank c = true ∨ c.isDigit = true

/-- The label field of `t` holds `digits`, after `blanks` and before `rest`. -/
structure HasLabel (t blanks digits rest : Text) : Prop where
  text_eq : t = blanks ++ (digits ++ rest)
  allBlank : blanks.allBlank = true
  allDigit : ∀ c ∈ digits, c.isDigit = true
  ne_nil : digits ≠ []
  ends : StartsOutside (!isBlank ·) rest
  field : blanks.length + digits.length ≤ 5

namespace HasLabel
variable {t blanks digits rest : Text}

theorem mem_field (h : HasLabel t blanks digits rest) : ∀ c ∈ blanks ++ digits, InField c := by
  intro c hc
  rcases List.mem_append.1 hc with hc | hc
  · exact .inl (mem_of_allBlank h.allBlank c hc)
  · exact .inr (h.allDigit c hc)

theorem head_field (h : HasLabel t blanks digits rest) {c : Char} (hc : rest.head? = some c) :
    isBlank c = true := by
  simpa using h.ends c hc

theorem outside_blank (h : HasLabel t blanks digits rest) (u : Text) :
    StartsOutside isBlank (digits ++ u) := by
  refine .append h.ne_nil fun c hc => ?_
  have hd := h.allDigit c (List.mem_of_mem_head? hc)
  exact not_blank_of_word (word_of_digit hd)

theorem outside_digit (h : HasLabel t blanks digits rest) : StartsOutside Char.isDigit rest := by
  intro c hc
  exact not_digit_of_blank (h.head_field hc)

theorem split_eq (h : HasLabel t blanks digits rest) :
    Labelled.split t =
      { label := some digits, statement := rest.trim
        columns := blanks ++ digits ++ rest.takeWhile isBlank } := by
  have hb : t.takeWhile isBlank = blanks := by
    rw [h.text_eq, takeWhile_run (mem_of_allBlank h.allBlank) (h.outside_blank rest)]
  have hd : t.dropWhile isBlank = digits ++ rest := by
    rw [h.text_eq, dropWhile_run (mem_of_allBlank h.allBlank) (h.outside_blank rest)]
  have hr : (rest.head?.map isBlank).getD true = true := by
    cases hh : rest.head? with
    | none => rfl
    | some c => exact h.head_field hh
  have hn : digits.isEmpty = false := by simpa using h.ne_nil
  simp only [Labelled.split, hb, hd, takeWhile_run h.allDigit h.outside_digit,
    dropWhile_run h.allDigit h.outside_digit, hn, hr, h.field]
  simp

end HasLabel

/-- A line has a label field, or it is a statement only. -/
theorem split_cases (t : Text) :
    (∃ blanks digits rest, HasLabel t blanks digits rest) ∨
      Labelled.split t = { label := none, statement := t.trim, columns := [] } := by
  by_cases h : (!((t.dropWhile isBlank).takeWhile Char.isDigit).isEmpty &&
      decide ((t.takeWhile isBlank).length +
        ((t.dropWhile isBlank).takeWhile Char.isDigit).length ≤ 5) &&
      ((((t.dropWhile isBlank).dropWhile Char.isDigit).head?.map isBlank).getD true)) = true
  · left
    simp only [Bool.and_eq_true, decide_eq_true_eq] at h
    obtain ⟨⟨hne, hlen⟩, hr⟩ := h
    refine ⟨_, _, (t.dropWhile isBlank).dropWhile Char.isDigit, ?_, List.all_takeWhile,
      List.all_eq_true.1 List.all_takeWhile, ?_, ?_, hlen⟩
    · rw [List.takeWhile_append_dropWhile, List.takeWhile_append_dropWhile]
    · simpa using hne
    · intro c hc
      rw [hc] at hr
      simpa using hr
  · right
    simp only [Labelled.split]
    rw [if_neg h]

namespace Statement

theorem startsWith_of_outside {p : Char → Bool} {a : Char} {lead t : Text} (ha : p a = true)
    (h : StartsOutside p t) : startsWith (a :: lead) t = false := by
  cases t with
  | nil => rfl
  | cons c t =>
    have hc : c ≠ a := by
      rintro rfl
      simp [h c rfl] at ha
    simp [startsWith, after?, hc]

theorem isLabelLine_of_word? {t w rest : Text} (h : word? t = some (w, rest))
    (hr : rest.head? ≠ some ':') : isLabelLine t = false := by
  rw [isLabelLine, h]
  cases rest with
  | nil => rfl
  | cons c rest =>
    have hc : c ≠ ':' := by simpa using hr
    split
    · next he =>
      obtain ⟨-, he⟩ := Prod.mk.inj (Option.some.inj he)
      exact absurd (List.cons.inj he).1 hc
    · rfl

/-- A labelled line is neither blank, nor a comment, nor a label of the output. -/
theorem classify_labelled {t blanks digits rest : Text} (h : HasLabel t blanks digits rest) :
    classify t = (shape rest.trim, some digits) := by
  have hstart : t.trimStart = digits ++ rest := by
    rw [h.text_eq, trimStart_run h.allBlank (h.outside_blank rest)]
  obtain ⟨d, ds, rfl⟩ := List.exists_cons_of_ne_nil h.ne_nil
  have hd : isWord d = true := word_of_digit (h.allDigit d (by simp))
  have hb : t.allBlank = false := by
    rw [← allBlank_trimStart, hstart]
    simp [allBlank, not_blank_of_word hd]
  have hs : isSlashComment t = false := by
    have hne : d ≠ '/' := by
      rintro rfl
      exact absurd hd (by decide)
    rw [isSlashComment, hstart]
    simp [startsWith, after?, hne]
  have hl : isLabelLine t.trim = false := by
    have hw (u : Text) (hu : StartsOutside (!isBlank ·) u) :
        isLabelLine (d :: ds ++ u) = false := by
      refine isLabelLine_of_word? (word?_run (fun c hc => word_of_digit (h.allDigit c hc)) (by simp)
        (hu.mono ?_)) ?_
      · intro c hc
        simpa using not_blank_of_word hc
      · intro hc
        exact absurd (hu ':' hc) (by decide)
    rw [trim, hstart]
    cases hr : rest.allBlank with
    | true =>
      have hsolid : ∀ c ∈ d :: ds, isBlank c = false :=
        fun c hc => not_blank_of_word (word_of_digit (h.allDigit c hc))
      rw [trimEnd_blanks hr, trimEnd_of_solid hsolid, ← List.append_nil (d :: ds)]
      exact hw [] .nil
    | false =>
      rw [trimEnd_append hr]
      exact hw _ (h.ends.of_lead (trimEnd_lead rest))
  simp [classify, hb, hs, hl, h.split_eq]

end Statement

end FixedForm
