import FixedForm.Proofs.Card.Remark
import FixedForm.Proofs.Spelling.Literal
import FixedForm.Proofs.Text.Partner

/-! The mark of a remark and the code of a text.  A text is divided into code and literals by one reader and cut at
its first `!` outside of literals by another; the quote that is open before a place is what both know of it. -/
namespace FixedForm.Text

/-! ### The open quote before a place -/

section Quote
variable {q : Option Char} {c d : Char} {s t x y : Text} {i : Nat}

theorem openQuote_append (q : Option Char) (s t : Text) : openQuote q (s ++ t) = openQuote (openQuote q s) t :=
  List.foldl_append

theorem openQuote_free (hx : ∀ c ∈ x, isQuote c = false) : openQuote none x = none := by
  induction x with
  | nil => rfl
  | cons c x ih =>
    have hc : quoteStep none c = none := by simp [quoteStep, hx c (by simp)]
    exact (congrArg (openQuote · x) hc).trans (ih fun d hd => hx d (by simp [hd]))

theorem openQuote_inside (hy : d ∉ y) : openQuote (some d) y = some d := by
  induction y with
  | nil => rfl
  | cons c y ih =>
    obtain ⟨hc, hy⟩ : d ≠ c ∧ d ∉ y := by simpa using hy
    have hstep : quoteStep (some d) c = some d := by simp [quoteStep, hc.symm]
    exact (congrArg (openQuote · y) hstep).trans (ih hy)

/-- At place `i` stands no quote and before it no literal is open.  The text starts inside the literal of `q` if
there is one. -/
def FreeAt (q : Option Char) (t : Text) (i : Nat) : Prop :=
  ∃ c, t[i]? = some c ∧ isQuote c = false ∧ openQuote q (t.take i) = none

instance (q : Option Char) (t : Text) (i : Nat) : Decidable (FreeAt q t i) :=
  decidable_of_iff (t[i]?.any (!isQuote ·) = true ∧ openQuote q (t.take i) = none) (by
    cases h : t[i]? <;> simp [FreeAt, h])

theorem freeAt_zero : FreeAt q (c :: t) 0 ↔ isQuote c = false ∧ q = none := by
  simp [FreeAt, openQuote]

theorem freeAt_succ : FreeAt q (c :: t) (i + 1) ↔ FreeAt (quoteStep q c) t i := by
  simp [FreeAt, openQuote]

theorem freeAt_append_left (h : i < s.length) : FreeAt q (s ++ t) i ↔ FreeAt q s i := by
  rw [FreeAt, FreeAt, List.getElem?_append_left h, List.take_append_of_le_length h.le]

theorem freeAt_append_right : FreeAt q (s ++ t) (s.length + i) ↔ FreeAt (openQuote q s) t i := by
  rw [FreeAt, FreeAt, List.getElem?_append_right (Nat.le_add_right ..), Nat.add_sub_cancel_left,
    List.take_length_add_append, openQuote_append]

theorem freeAt_free (hx : ∀ c ∈ x, isQuote c = false) : FreeAt none x i ↔ i < x.length := by
  constructor
  · rintro ⟨c, hc, -⟩
    exact (List.getElem?_eq_some_iff.1 hc).1
  · intro h
    refine ⟨x[i], List.getElem?_eq_getElem h, hx _ (List.getElem_mem h), ?_⟩
    exact openQuote_free fun c hc => hx c (List.mem_of_mem_take hc)

/-- No place of a literal is free, the places of its quotes included. -/
theorem not_freeAt_unclosed (hd : isQuote d = true) (hy : d ∉ y) (i : Nat) : ¬ FreeAt none (d :: y) i := by
  cases i with
  | zero => simp [freeAt_zero, hd]
  | succ i =>
    have hstep : quoteStep none d = some d := by simp [quoteStep, hd]
    rw [freeAt_succ, hstep]
    rintro ⟨c, -, -, hopen⟩
    rw [openQuote_inside fun hm => hy (List.mem_of_mem_take hm)] at hopen
    cases hopen

theorem not_freeAt_literal (hd : isQuote d = true) (hy : d ∉ y) (i : Nat) : ¬ FreeAt none (d :: (y ++ [d])) i := by
  rw [← List.cons_append]
  rcases Nat.lt_trichotomy i (d :: y).length with h | rfl | h
  · rw [freeAt_append_left h]
    exact not_freeAt_unclosed hd hy i
  · rw [← Nat.add_zero (d :: y).length, freeAt_append_right]
    simp [freeAt_zero, hd]
  · rintro ⟨c, hc, -⟩
    have hlt := (List.getElem?_eq_some_iff.1 hc).1
    simp only [List.length_append, List.length_singleton] at hlt
    omega

theorem openQuote_literal (hd : isQuote d = true) (hy : d ∉ y) : openQuote none (d :: (y ++ [d])) = none := by
  have hopen : openQuote none (d :: y) = some d := by
    have hstep : quoteStep none d = some d := by simp [quoteStep, hd]
    exact (congrArg (openQuote · y) hstep).trans (openQuote_inside hy)
  rw [← List.cons_append, openQuote_append, hopen]
  simp [openQuote, quoteStep]

end Quote

/-! ### Places that a change of code reaches -/

/-- `u` is the text with `g` applied to its characters where no literal is open, and to no others. -/
def ChangedFree (g : Char → Char) (t u : Text) : Prop :=
  ∀ i, u[i]? = if FreeAt none t i then t[i]?.map g else t[i]?

/-- A change of single characters reaches place `i` of the text, whichever it is. -/
def InCode (t : Text) (i : Nat) : Prop :=
  i < t.length ∧ ∀ g : Char → Char, (mapCode (List.map g) t)[i]? = t[i]?.map g

section Change
variable {g : Char → Char} {d : Char} {s s' t t' x y : Text} {i : Nat}

theorem ChangedFree.append (hs : ChangedFree g s s') (hlen : s'.length = s.length) (hopen : openQuote none s = none)
    (ht : ChangedFree g t t') : ChangedFree g (s ++ t) (s' ++ t') := by
  intro i
  rcases Nat.lt_or_ge i s.length with hlt | hge
  · simp only [List.getElem?_append_left hlt, List.getElem?_append_left (hlen ▸ hlt), freeAt_append_left hlt]
    exact hs i
  · obtain ⟨j, rfl⟩ := Nat.exists_eq_add_of_le hge
    have hplace := @freeAt_append_right none s t j
    rw [hopen] at hplace
    simp only [List.getElem?_append_right hge, List.getElem?_append_right (hlen.le.trans hge), hlen, hplace,
      Nat.add_sub_cancel_left]
    exact ht j

theorem changedFree_free (hx : ∀ c ∈ x, isQuote c = false) : ChangedFree g x (x.map g) := by
  intro i
  rw [List.getElem?_map]
  split
  · rfl
  · next h =>
    rw [freeAt_free hx] at h
    rw [List.getElem?_eq_none (Nat.le_of_not_lt h), Option.map_none]

theorem changedFree_self (h : ∀ i, ¬ FreeAt none t i) : ChangedFree g t t := fun i => (if_neg (h i)).symm

theorem changedFree_mapCode (g : Char → Char) (t : Text) : ChangedFree g t (mapCode (List.map g) t) := by
  induction t using literal_induction with
  | code x hx =>
    rw [mapCode_of_free hx]
    exact changedFree_free hx
  | unclosed x d y hx hd hy =>
    rw [mapCode_open _ hx hd hy]
    exact (changedFree_free hx).append (List.length_map g) (openQuote_free hx)
      (changedFree_self (not_freeAt_unclosed hd hy))
  | closed x d y t hx hd hy ih =>
    have hsplit (u : Text) : d :: (y ++ d :: u) = (d :: (y ++ [d])) ++ u := by simp
    rw [mapCode_closed _ hx hd hy, hsplit t, hsplit (mapCode _ t)]
    exact (changedFree_free hx).append (List.length_map g) (openQuote_free hx)
      ((changedFree_self (not_freeAt_literal hd hy)).append rfl (openQuote_literal hd hy) ih)

/-- The two readers agree on every place: code is what stands where no literal is open. -/
theorem inCode_iff : InCode t i ↔ FreeAt none t i := by
  constructor
  · rintro ⟨hlt, h⟩
    by_contra hfree
    -- a change that leaves no character as it is would be seen
    have hsame := (changedFree_mapCode (fun c => if c = 'a' then 'b' else 'a') t i).symm.trans (h _)
    rw [if_neg hfree, List.getElem?_eq_getElem hlt, Option.map_some, Option.some_inj] at hsame
    split at hsame <;> simp_all
  · intro h
    obtain ⟨c, hc, -⟩ := id h
    exact ⟨(List.getElem?_eq_some_iff.1 hc).1, fun g => (changedFree_mapCode g t i).trans (if_pos h)⟩

instance (t : Text) (i : Nat) : Decidable (InCode t i) := decidable_of_iff _ inCode_iff.symm

end Change

/-! ### The first mark -/

/-- At place `i` a `!` stands where no literal is open. -/
def MarkAt (q : Option Char) (t : Text) (i : Nat) : Prop := t[i]? = some '!' ∧ FreeAt q t i

/-- At place `i` a `!` stands in code. -/
def MarksRemark (t : Text) (i : Nat) : Prop := t[i]? = some '!' ∧ InCode t i

instance (t : Text) (i : Nat) : Decidable (MarksRemark t i) := inferInstanceAs (Decidable (_ ∧ _))

section Mark
variable {q : Option Char} {c : Char} {s t : Text} {i : Nat}

theorem markAt_zero : MarkAt q (c :: t) 0 ↔ q = none ∧ c = '!' := by
  rw [MarkAt, freeAt_zero]
  constructor
  · rintro ⟨hc, -, hq⟩
    exact ⟨hq, Option.some.inj hc⟩
  · rintro ⟨rfl, rfl⟩
    exact ⟨rfl, rfl, rfl⟩

theorem markAt_succ : MarkAt q (c :: t) (i + 1) ↔ MarkAt (quoteStep q c) t i := by
  rw [MarkAt, MarkAt, freeAt_succ, List.getElem?_cons_succ]

theorem marksRemark_eq (t : Text) : MarksRemark t = MarkAt none t :=
  funext fun i => propext (by rw [MarksRemark, MarkAt, inCode_iff])

/-- The text is cut at its first mark, or not at all if it has none. -/
theorem cutRemark_cases (q : Option Char) (t : Text) :
    (∃ i, IsFirst (MarkAt q t) i ∧ cutRemark q t = (t.take i, some (t.drop (i + 1)))) ∨
    (∀ i, ¬ MarkAt q t i) ∧ cutRemark q t = (t, none) := by
  induction t generalizing q with
  | nil =>
    refine .inr ⟨fun i h => ?_, by cases q <;> rfl⟩
    cases h.1
  | cons c t ih =>
    rw [cutRemark_cons]
    by_cases hmark : q = none ∧ c = '!'
    · rw [if_pos hmark]
      exact .inl ⟨0, ⟨markAt_zero.2 hmark, fun m hm => absurd hm (Nat.not_lt_zero m)⟩, rfl⟩
    · -- the first mark of the rest is the first of the text, one place further on
      have hzero : ¬ MarkAt q (c :: t) 0 := fun h => hmark (markAt_zero.1 h)
      rw [if_neg hmark]
      refine (ih (quoteStep q c)).imp ?_ ?_
      · rintro ⟨i, ⟨hi, hfirst⟩, hcut⟩
        refine ⟨i + 1, ⟨markAt_succ.2 hi, fun m hm => ?_⟩, by rw [hcut]; rfl⟩
        cases m with
        | zero => exact hzero
        | succ m => exact fun h => hfirst m (Nat.lt_of_succ_lt_succ hm) (markAt_succ.1 h)
      · rintro ⟨hno, hcut⟩
        refine ⟨fun i => ?_, by rw [hcut]⟩
        cases i with
        | zero => exact hzero
        | succ i => exact fun h => hno i (markAt_succ.1 h)

theorem isFirst_unique {P : Nat → Prop} {i j : Nat} (hi : IsFirst P i) (hj : IsFirst P j) : i = j := by
  rcases Nat.lt_trichotomy i j with h | h | h
  · exact absurd hi.1 (hj.2 i h)
  · exact h
  · exact absurd hj.1 (hi.2 j h)

theorem cutRemark_of_first (h : IsFirst (MarkAt q t) i) : cutRemark q t = (t.take i, some (t.drop (i + 1))) := by
  obtain ⟨j, hj, hcut⟩ | ⟨hno, -⟩ := cutRemark_cases q t
  · rwa [isFirst_unique h hj]
  · exact absurd h.1 (hno i)

theorem cutRemark_of_none (h : ∀ i, ¬ MarkAt q t i) : cutRemark q t = (t, none) := by
  obtain ⟨i, hi, -⟩ | ⟨-, hcut⟩ := cutRemark_cases q t
  · exact absurd hi.1 (h i)
  · exact hcut

/-- A mark of a start of the text is a mark of the text. -/
theorem MarkAt.of_start (h : MarkAt q s i) (hs : s <+: t) : MarkAt q t i := by
  obtain ⟨u, rfl⟩ := hs
  obtain ⟨hc, hfree⟩ := h
  have hlt := (List.getElem?_eq_some_iff.1 hc).1
  exact ⟨(List.getElem?_append_left hlt).trans hc, (freeAt_append_left hlt).2 hfree⟩

/-- What stands before the cut holds no mark. -/
theorem not_markAt_cutRemark (q : Option Char) (t : Text) (i : Nat) : ¬ MarkAt q (cutRemark q t).1 i := by
  intro h
  obtain ⟨j, ⟨-, hfirst⟩, hcut⟩ | ⟨hno, hcut⟩ := cutRemark_cases q t
  · rw [hcut] at h
    have hlt : i < (t.take j).length := (List.getElem?_eq_some_iff.1 h.1).1
    rw [List.length_take] at hlt
    exact hfirst i (by omega) (h.of_start (List.take_prefix j t))
  · rw [hcut] at h
    exact hno i h

theorem cutRemark_eq_some_iff : cutRemark q t = (t.take i, some (t.drop (i + 1))) ↔ IsFirst (MarkAt q t) i := by
  refine ⟨fun h => ?_, cutRemark_of_first⟩
  obtain ⟨j, hj, hcut⟩ | ⟨-, hcut⟩ := cutRemark_cases q t
  · have hlt : j < t.length := (List.getElem?_eq_some_iff.1 hj.1.1).1
    have hlen := congrArg (fun r : Text × Option Text => r.1.length) (h.symm.trans hcut)
    simp only [List.length_take] at hlen
    obtain rfl : i = j := by omega
    exact hj
  · cases (Prod.mk.inj (h.symm.trans hcut)).2

theorem cutRemark_eq_none_iff : cutRemark q t = (t, none) ↔ ∀ i, ¬ MarkAt q t i := by
  refine ⟨fun h => ?_, cutRemark_of_none⟩
  obtain ⟨i, -, hcut⟩ | ⟨hno, -⟩ := cutRemark_cases q t
  · cases (Prod.mk.inj (h.symm.trans hcut)).2
  · exact hno

end Mark

/-- A card is cut at the first `!` that a change of code would reach, and nowhere if there is none.  The code is the
text before it without the blanks at its end, the remark is the text behind it without the blanks around it, if
anything is left, and the code holds no `!` outside of its literals. -/
theorem splitRemark_first_mark (t : Text) :
    (∀ i, InCode t i ↔ FreeAt none t i) ∧
    (∀ i, cutRemark none t = (t.take i, some (t.drop (i + 1))) ↔ IsFirst (MarksRemark t) i) ∧
    (cutRemark none t = (t, none) ↔ ∀ i, ¬ MarksRemark t i) ∧
    (∀ i, IsFirst (MarksRemark t) i → splitRemark t =
      (trimEnd (t.take i), if trim (t.drop (i + 1)) = [] then none else some (trim (t.drop (i + 1))))) ∧
    ((∀ i, ¬ MarksRemark t i) → splitRemark t = (t.trimEnd, none)) ∧
    ∀ i, ¬ MarksRemark (splitRemark t).1 i := by
  rw [marksRemark_eq, marksRemark_eq]
  refine ⟨fun i => inCode_iff, fun i => cutRemark_eq_some_iff, cutRemark_eq_none_iff, fun i hi => ?_,
    fun hno => ?_, fun i hi => ?_⟩
  · rw [splitRemark, cutRemark_of_first hi]
    simp [nonempty?]
  · rw [splitRemark, cutRemark_of_none hno]
    rfl
  · exact not_markAt_cutRemark none t i (hi.of_start (trimEnd_lead _))

/-- A doubled quote, a quote of the other kind and a mark inside a literal, and two marks behind it. -/
def sampleMarks : Text := "s = 'a!''\"' ! b 'c! "

theorem splitRemark_first_mark_sample : IsFirst (MarksRemark sampleMarks) 12 ∧
    splitRemark sampleMarks = ("s = 'a!''\"'".toList, some "b 'c!".toList) ∧ ¬ MarksRemark sampleMarks 6 := by
  have hfirst : IsFirst (MarksRemark sampleMarks) 12 := by
    refine ⟨?_, ?_⟩ <;> decide
  refine ⟨hfirst, ?_, hfirst.2 6 (by decide)⟩
  rw [(splitRemark_first_mark sampleMarks).2.2.2.1 12 hfirst]
  decide

end FixedForm.Text
