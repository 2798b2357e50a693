import FixedForm.Text.Basic

/-! Readers on texts that are put together from known parts: a lead, a run of blanks, a word or a
run of digits, and what follows. -/
namespace FixedForm

/-- The text is empty or its first character lies outside `p`. -/
def StartsOutside (p : Char → Bool) (t : Text) : Prop := ∀ c, t.head? = some c → p c = false

namespace StartsOutside
variable {p q : Char → Bool} {t : Text}

theorem nil : StartsOutside p [] := by simp [StartsOutside]

theorem cons {c : Char} (h : p c = false) : StartsOutside p (c :: t) := by
  simpa [StartsOutside] using h

theorem append {u : Text} (hu : u ≠ []) (h : StartsOutside p u) : StartsOutside p (u ++ t) := by
  cases u with
  | nil => exact absurd rfl hu
  | cons c u => simpa [StartsOutside] using h

theorem of_lead {u : Text} (hu : u <+: t) (h : StartsOutside p t) : StartsOutside p u := by
  obtain ⟨v, rfl⟩ := hu
  cases u with
  | nil => exact nil
  | cons c u => exact cons (h c rfl)

theorem mono (h : StartsOutside p t) (hq : ∀ c, q c = true → p c = true) : StartsOutside q t := by
  intro c hc
  cases hqc : q c with
  | false => rfl
  | true => simpa [h c hc] using hq c hqc

end StartsOutside

namespace Text
variable {p : Char → Bool} {g t w : Text}

theorem takeWhile_of_outside (h : StartsOutside p t) : t.takeWhile p = [] := by
  cases t with
  | nil => rfl
  | cons c t => simp [h c rfl]

theorem dropWhile_of_outside (h : StartsOutside p t) : t.dropWhile p = t := by
  cases t with
  | nil => rfl
  | cons c t => simp [h c rfl]

theorem takeWhile_run (hw : ∀ c ∈ w, p c = true) (h : StartsOutside p t) :
    (w ++ t).takeWhile p = w := by
  rw [List.takeWhile_append_of_pos hw, takeWhile_of_outside h, List.append_nil]

theorem dropWhile_run (hw : ∀ c ∈ w, p c = true) (h : StartsOutside p t) :
    (w ++ t).dropWhile p = t := by
  rw [List.dropWhile_append_of_pos hw, dropWhile_of_outside h]

theorem mem_of_allBlank (hg : g.allBlank = true) : ∀ c ∈ g, isBlank c = true := by
  simpa [allBlank] using hg

theorem allBlank_takeWhile : allBlank (t.takeWhile isBlank) = true := List.all_takeWhile

theorem allBlank_spaces (n : Nat) : (spaces n).allBlank = true := by
  simp [allBlank, spaces, isBlank]

theorem allBlank_indent (t : Text) : t.indent.allBlank = true := by
  rw [indent, allBlank, List.all_eq_true]
  intro c hc
  obtain ⟨d, hd, hc⟩ := List.mem_flatMap.1 hc
  split at hc
  · exact mem_of_allBlank (allBlank_spaces 4) c hc
  · rw [List.mem_singleton.1 hc]
    exact mem_of_allBlank allBlank_takeWhile d hd

theorem allBlank_append : (g ++ t).allBlank = (g.allBlank && t.allBlank) := by
  simp [allBlank]

theorem allBlank_trimStart : (trimStart t).allBlank = t.allBlank := by
  induction t with
  | nil => rfl
  | cons c t ih =>
    simp only [trimStart, List.dropWhile_cons] at ih ⊢
    split
    · next h => simpa [allBlank, h] using ih
    · rfl

theorem allBlank_reverse : allBlank t.reverse = t.allBlank := by
  simp [allBlank]

theorem trimStart_blanks (hg : g.allBlank = true) : trimStart (g ++ t) = trimStart t := by
  rw [trimStart, List.dropWhile_append_of_pos (mem_of_allBlank hg), trimStart]

theorem trimStart_of_outside (h : StartsOutside isBlank t) : trimStart t = t :=
  dropWhile_of_outside h

theorem trimStart_run (hg : g.allBlank = true) (h : StartsOutside isBlank t) :
    trimStart (g ++ t) = t := by
  rw [trimStart_blanks hg, trimStart_of_outside h]

theorem trimStart_of_allBlank (hg : g.allBlank = true) : trimStart g = [] := by
  simpa using trimStart_run hg (StartsOutside.nil : StartsOutside isBlank [])

theorem outside_dropWhile : StartsOutside p (t.dropWhile p) := by
  intro c hc
  have h := List.head?_dropWhile_not p t
  simpa [hc] using h

theorem outside_trimStart : StartsOutside isBlank (trimStart t) := outside_dropWhile

theorem trimEnd_blanks (hg : g.allBlank = true) : trimEnd (t ++ g) = trimEnd t := by
  have h : allBlank g.reverse = true := by rw [allBlank_reverse, hg]
  rw [trimEnd, List.reverse_append]
  exact congrArg List.reverse (trimStart_blanks h)

theorem trimEnd_append (hg : g.allBlank = false) : trimEnd (t ++ g) = t ++ trimEnd g := by
  have h : (g.reverse.dropWhile isBlank).isEmpty = false := by
    cases he : (g.reverse.dropWhile isBlank).isEmpty with
    | false => rfl
    | true =>
      have hn : trimStart g.reverse = [] := by simpa [trimStart] using he
      have ha : allBlank g.reverse = true := by
        rw [← allBlank_trimStart, hn]
        rfl
      rw [allBlank_reverse, hg] at ha
      exact ha.symm
  rw [trimEnd, List.reverse_append, List.dropWhile_append, h]
  simp [trimEnd]

theorem trimEnd_lead (t : Text) : trimEnd t <+: t := by
  have h := List.dropWhile_suffix (l := t.reverse) isBlank
  simpa [trimEnd] using List.reverse_prefix.2 h

theorem exists_trimEnd (t : Text) : ∃ g, t = trimEnd t ++ g ∧ g.allBlank = true := by
  refine ⟨(t.reverse.takeWhile isBlank).reverse, (spanEnd_append isBlank t).symm, ?_⟩
  rw [allBlank_reverse]
  exact List.all_takeWhile

theorem trimEnd_of_last {c : Char} (hc : isBlank c = false) : trimEnd (t ++ [c]) = t ++ [c] := by
  simp [trimEnd, hc]

theorem trimEnd_of_solid (h : ∀ c ∈ t, isBlank c = false) : trimEnd t = t := by
  have ho : StartsOutside isBlank t.reverse := by
    intro c hc
    exact h c (List.mem_reverse.1 (List.mem_of_mem_head? hc))
  rw [trimEnd, dropWhile_of_outside ho, List.reverse_reverse]

theorem trimEnd_of_allBlank (hg : g.allBlank = true) : trimEnd g = [] :=
  trimEnd_blanks (t := []) hg

theorem trimEnd_trimEnd (t : Text) : trimEnd (trimEnd t) = trimEnd t := by
  have h : StartsOutside isBlank (t.reverse.dropWhile isBlank) := outside_trimStart
  rw [trimEnd, trimEnd, List.reverse_reverse, dropWhile_of_outside h]

theorem trim_blanks (hg : g.allBlank = true) : trim (g ++ t) = trim t := by
  rw [trim, trim, trimStart_blanks hg]

theorem trim_trimEnd (t : Text) : trim (trimEnd t) = trim t := by
  have hlead : StartsOutside isBlank (trimEnd (trimStart t)) := outside_trimStart.of_lead (trimEnd_lead _)
  by_cases hb : (trimStart t).allBlank = true
  · have ht : t.allBlank = true := by rw [← allBlank_trimStart, hb]
    rw [trimEnd_of_allBlank ht, trim, trim, trimEnd_of_allBlank hb]
    rfl
  · have hsplit : t.takeWhile isBlank ++ trimStart t = t := List.takeWhile_append_dropWhile
    have htrim := trimEnd_append (t := t.takeWhile isBlank) (by simpa using hb)
    rw [hsplit] at htrim
    rw [htrim, trim, trimStart_run allBlank_takeWhile hlead, trimEnd_trimEnd, trim]

theorem after?_append (lead t : Text) : after? lead (lead ++ t) = some t := by
  induction lead with
  | nil => rfl
  | cons a lead ih => simpa [after?] using ih

theorem after?_append_append (w lead t : Text) : after? (w ++ lead) (w ++ t) = after? lead t := by
  induction w with
  | nil => rfl
  | cons a w ih => simpa [after?] using ih

theorem startsWith_append (lead t : Text) : startsWith lead (lead ++ t) = true := by
  simp [startsWith, after?_append]

theorem eq_of_after? {lead t rest : Text} (h : after? lead t = some rest) : t = lead ++ rest := by
  induction lead generalizing t with
  | nil => simpa [after?] using h
  | cons a lead ih =>
    cases t with
    | nil => simp [after?] at h
    | cons c t =>
      rw [after?] at h
      split at h
      · next hc => simp [eq_of_beq hc, ih h]
      · simp at h

theorem blanks?_run (hg : g.allBlank = true) (hne : g ≠ []) (h : StartsOutside isBlank t) :
    blanks? (g ++ t) = some t := by
  cases g with
  | nil => exact absurd rfl hne
  | cons c g =>
    simp only [allBlank, List.all_cons, Bool.and_eq_true] at hg
    simp [blanks?, hg.1, trimStart_run hg.2 h]

theorem word?_run (hw : ∀ c ∈ w, isWord c = true) (hne : w ≠ []) (h : StartsOutside isWord t) :
    word? (w ++ t) = some (w, t) := by
  rw [word?, takeWhile_run hw h, dropWhile_run hw h]
  cases w with
  | nil => exact absurd rfl hne
  | cons c w => rfl

theorem word?_of_outside (h : StartsOutside isWord t) : word? t = none := by
  rw [word?, takeWhile_of_outside h]

theorem digits?_run (hw : ∀ c ∈ w, c.isDigit = true) (hne : w ≠ [])
    (h : StartsOutside Char.isDigit t) : digits? (w ++ t) = some (w, t) := by
  rw [digits?, takeWhile_run hw h, dropWhile_run hw h]
  cases w with
  | nil => exact absurd rfl hne
  | cons c w => rfl

theorem digits?_of_outside (h : StartsOutside Char.isDigit t) : digits? t = none := by
  rw [digits?, takeWhile_of_outside h]

theorem wordEnds_of_outside (h : StartsOutside isWord t) : t.wordEnds = true := by
  cases t with
  | nil => rfl
  | cons c t => simp [wordEnds, h c rfl]

theorem eq_of_blanks? {rest : Text} (h : blanks? t = some rest) :
    ∃ g : Text, t = g ++ rest ∧ g.allBlank = true ∧ g ≠ [] := by
  cases t with
  | nil => cases h
  | cons c t =>
    rw [blanks?] at h
    split at h
    · next hc =>
      cases h
      refine ⟨c :: t.takeWhile isBlank, ?_, ?_, by simp⟩
      · rw [trimStart, List.cons_append, List.takeWhile_append_dropWhile]
      · simp only [allBlank, List.all_cons, hc, Bool.true_and]
        exact List.all_takeWhile
    · cases h

theorem eq_of_word? {w rest : Text} (h : word? t = some (w, rest)) :
    t = w ++ rest ∧ w ≠ [] ∧ ∀ c ∈ w, isWord c = true := by
  rw [word?] at h
  split at h
  · cases h
  · next hne =>
    cases h
    exact ⟨by rw [List.takeWhile_append_dropWhile], hne, List.all_eq_true.1 List.all_takeWhile⟩

theorem eq_of_digits? {d rest : Text} (h : digits? t = some (d, rest)) :
    t = d ++ rest ∧ d.isDigits = true := by
  rw [digits?] at h
  split at h
  · cases h
  · next hne =>
    cases h
    refine ⟨by rw [List.takeWhile_append_dropWhile], ?_⟩
    simpa [isDigits] using hne

section Marks
variable {d : Char} (x t : Text)

/-! A reader that does not pass a mark finds before it what it finds in the text that ends there. -/

theorem after?_mark {lead : Text} (hd : d ∉ lead) :
    after? lead (x ++ d :: t) = (after? lead x).map (· ++ d :: t) := by
  induction lead generalizing x with
  | nil => rfl
  | cons a lead ih =>
    obtain ⟨hne, hd⟩ : d ≠ a ∧ d ∉ lead := by simpa using hd
    cases x with
    | nil => simp [after?, hne]
    | cons c x =>
      simp only [List.cons_append, after?]
      split
      · exact ih x hd
      · rfl

theorem scan_mark {p : Char → Bool} (hd : p d = false) :
    (x ++ d :: t).takeWhile p = x.takeWhile p ∧
      (x ++ d :: t).dropWhile p = x.dropWhile p ++ d :: t := by
  induction x with
  | nil => simp [hd]
  | cons c x ih =>
    cases hc : p c with
    | true => simpa [hc] using ih
    | false => simp [hc]

theorem trimStart_mark (hd : isBlank d = false) :
    trimStart (x ++ d :: t) = trimStart x ++ d :: t :=
  (scan_mark x t hd).2

theorem blanks?_mark (hd : isBlank d = false) :
    blanks? (x ++ d :: t) = (blanks? x).map (· ++ d :: t) := by
  cases x with
  | nil => simp [blanks?, hd]
  | cons c x =>
    simp only [List.cons_append, blanks?]
    split
    · simp [trimStart_mark x t hd]
    · rfl

theorem wordEnds_mark (hd : isWord d = false) : wordEnds (x ++ d :: t) = wordEnds x := by
  cases x with
  | nil => simp [wordEnds, hd]
  | cons c x => rfl

end Marks

end Text

end FixedForm
