import FixedForm.Proofs.Text.Classes
import FixedForm.Text.Words

/-! A text in pieces: where a mark stands, what comes before it and what comes behind it are in pieces of
their own. -/
namespace FixedForm

namespace Text

theorem pieces_word {c : Char} (hc : isWord c = true) (t : Text) :
    pieces (c :: t) = .word (c :: t.takeWhile isWord) :: pieces (t.dropWhile isWord) := by
  rw [pieces, if_pos hc]

theorem pieces_mark {c : Char} (hc : isWord c = false) (t : Text) : pieces (c :: t) = .mark c :: pieces t := by
  rw [pieces, if_neg (by simp [hc])]

/-- The pieces before a mark, and those behind it. -/
theorem pieces_append_mark {c : Char} (hc : isWord c = false) (x t : Text) :
    pieces (x ++ c :: t) = pieces x ++ .mark c :: pieces t := by
  have hscan (x : Text) := scan_mark x t hc
  fun_induction pieces x with
  | case1 => exact pieces_mark hc t
  | case2 d x hd ih => rw [List.cons_append, pieces_word hd, (hscan x).1, (hscan x).2, ih, List.cons_append]
  | case3 d x hd ih => rw [List.cons_append, pieces_mark (by simpa using hd), ih, List.cons_append]

/-- A word between two texts that do not go on with it. -/
theorem pieces_append_word {x w t : Text} (hx : StartsOutside isWord x.reverse) (hne : w ≠ [])
    (hw : ∀ c ∈ w, isWord c = true) (ht : StartsOutside isWord t) :
    pieces (x ++ (w ++ t)) = pieces x ++ .word w :: pieces t := by
  have hword : pieces (w ++ t) = .word w :: pieces t := by
    obtain ⟨c, w, rfl⟩ := List.exists_cons_of_ne_nil hne
    obtain ⟨hc, hw⟩ := List.forall_mem_cons.1 hw
    rw [List.cons_append, pieces_word hc, takeWhile_run hw ht, dropWhile_run hw ht]
  rcases List.eq_nil_or_concat x with rfl | ⟨y, c, rfl⟩
  · rw [List.nil_append, hword, pieces]
    rfl
  · have hc : isWord c = false := hx c (by simp)
    have hnil : pieces [] = [] := by rw [pieces]
    rw [List.concat_eq_append, List.append_assoc, List.singleton_append, pieces_append_mark hc, hword,
      pieces_append_mark hc y [], hnil, List.append_assoc, List.singleton_append]

end Text

/-- A piece of the text read backwards. -/
def Piece.reverse : Piece → Piece
  | .word w => .word w.reverse
  | .mark c => .mark c

namespace Text

theorem pieces_reverse (t : Text) : pieces t.reverse = ((pieces t).map Piece.reverse).reverse := by
  fun_induction pieces t with
  | case1 => simp [pieces]
  | case2 c t hc ih =>
    have hword : ∀ d ∈ (c :: t.takeWhile isWord).reverse, isWord d = true := fun d hd => by
      rcases List.mem_cons.1 (List.mem_reverse.1 hd) with rfl | hd
      · exact hc
      · exact List.all_eq_true.1 List.all_takeWhile d hd
    have hsplit : (c :: t).reverse = (t.dropWhile isWord).reverse ++ ((c :: t.takeWhile isWord).reverse ++ []) := by
      rw [List.append_nil, ← List.reverse_append, List.cons_append, List.takeWhile_append_dropWhile]
    have hout : StartsOutside isWord (t.dropWhile isWord).reverse.reverse := by
      rw [List.reverse_reverse]
      exact outside_dropWhile
    rw [hsplit, pieces_append_word hout (by simp) hword .nil, ih, pieces]
    simp [Piece.reverse]
  | case3 c t hc ih =>
    rw [List.reverse_cons, pieces_append_mark (by simpa using hc), ih, pieces]
    simp [Piece.reverse]

theorem words_mark {c : Char} (hc : isWord c = false) (t : Text) : words (c :: t) = words t := by
  rw [words, pieces_mark hc]
  rfl

theorem words_word {c : Char} (hc : isWord c = true) (t : Text) :
    words (c :: t) = (c :: t.takeWhile isWord) :: words (t.dropWhile isWord) := by
  rw [words, pieces_word hc]
  rfl

theorem words_append_mark {c : Char} (hc : isWord c = false) (x t : Text) :
    words (x ++ c :: t) = words x ++ words t := by
  rw [words, pieces_append_mark hc, List.filterMap_append]
  rfl

/-- A word between a mark and a text that starts with none of its characters. -/
theorem mem_words {c : Char} {w : Text} (hc : isWord c = false) (hne : w ≠ []) (hw : ∀ d ∈ w, isWord d = true)
    (x : Text) {t : Text} (ht : StartsOutside isWord t) : w ∈ words (x ++ c :: (w ++ t)) := by
  rw [words_append_mark hc]
  cases w with
  | nil => exact absurd rfl hne
  | cons d w =>
    obtain ⟨hd, hw⟩ := List.forall_mem_cons.1 hw
    rw [List.cons_append, words_word hd, takeWhile_run hw ht]
    simp

theorem skipBlanks_pieces (t : Text) : skipBlanks (pieces t) = pieces t.trimStart := by
  induction t with
  | nil =>
    rw [trimStart, List.dropWhile_nil, pieces]
    rfl
  | cons c t ih =>
    cases hb : isBlank c with
    | true =>
      have hw : isWord c = false := Bool.eq_false_iff.2 fun hw => by simp [not_blank_of_word hw] at hb
      rw [pieces_mark hw, skipBlanks, if_pos hb, ih, trimStart, trimStart, List.dropWhile_cons_of_pos hb]
    | false =>
      rw [trimStart, List.dropWhile_cons_of_neg (by simp [hb])]
      cases hw : isWord c with
      | true => rw [pieces_word hw, skipBlanks]; simp
      | false => rw [pieces_mark hw, skipBlanks, if_neg (by simp [hb])]

/-- A mark at the start of a text is its first piece. -/
theorem head?_pieces {c : Char} (hc : isWord c = false) (t : Text) :
    ((pieces t).head? == some (.mark c)) = (t.head? == some c) := by
  rw [Bool.eq_iff_iff, beq_iff_eq, beq_iff_eq]
  cases t with
  | nil => simp [pieces]
  | cons d t =>
    cases hd : isWord d with
    | true =>
      have hne : d ≠ c := by
        rintro rfl
        simp [hd] at hc
      rw [pieces_word hd]
      simp [hne]
    | false =>
      rw [pieces_mark hd]
      simp

/-- A word that is the first piece of a text. -/
theorem eq_of_head?_pieces {t w : Text} (h : (pieces t).head? = some (.word w)) :
    ∃ rest, t = w ++ rest ∧ StartsOutside isWord rest := by
  cases t with
  | nil =>
    rw [pieces] at h
    cases h
  | cons c t =>
    cases hc : isWord c with
    | true =>
      rw [pieces_word hc, List.head?_cons, Option.some.injEq, Piece.word.injEq] at h
      exact ⟨t.dropWhile isWord, by rw [← h, List.cons_append, List.takeWhile_append_dropWhile], outside_dropWhile⟩
    | false =>
      rw [pieces_mark hc] at h
      cases h

end Text

end FixedForm
