import FixedForm.Proofs.Spelling.Exponent

/-! The operands of a power as they stand in a text.  Whatever base or exponent is found is a word, a call or a group
of balanced parentheses, with blanks on its way to the power sign. -/
namespace FixedForm
namespace Text

section Group
variable {t u : Text} {i : Nat}

theorem Balanced.parens (h : Balanced '(' ')' t) : Balanced '(' ')' ('(' :: (t ++ [')'])) := .pair h .nil

theorem Balanced.count_eq (h : Balanced '(' ')' t) : t.count '(' = t.count ')' := by
  induction h with
  | nil => rfl
  | cons hu hd _ ih => rwa [List.count_cons_of_ne hu, List.count_cons_of_ne hd]
  | pair _ _ iht ihu =>
    simp only [List.count_cons, List.count_append]
    simp only [beq_self_eq_true, if_true, Char.reduceBEq, Bool.false_eq_true, if_false]
    omega

/-- The parenthesis at the end of a text has its partner before a balanced part. -/
theorem opening?_end (h : opening? (t ++ [')']) = some i) :
    ∃ before inner, t = before ++ '(' :: inner ∧ Balanced '(' ')' inner ∧ i = before.length := by
  have hlead : (t ++ [')']).reverse = ')' :: t.reverse := by simp
  rw [opening?, hlead] at h
  obtain ⟨p, hp, rfl⟩ := Option.map_eq_some_iff.1 h
  obtain ⟨inner, after, ht, hi, rfl⟩ := exists_partner (by decide) hp
  have htext : t = after.reverse ++ '(' :: inner.reverse := by simpa using congrArg List.reverse ht
  refine ⟨after.reverse, inner.reverse, htext, hi.reverse, ?_⟩
  rw [htext]
  simp only [List.length_append, List.length_cons, List.length_reverse, List.length_nil]
  omega

end Group

end Text

namespace Power
open Text

/-- How an operand that is found is written, and what of it is kept between the parentheses of the call. -/
inductive Operand : (written kept : Text) → Prop where
  | word {w : Text} (hw : ∀ c ∈ w, isOperand c = true) : Operand w w
  | call {f x : Text} (hf : ∀ c ∈ f, isOperand c = true) (hx : Balanced '(' ')' x) :
    Operand (f ++ '(' :: (x ++ [')'])) (f ++ '(' :: (x ++ [')']))
  | group {x : Text} (hx : Balanced '(' ')' x) : Operand ('(' :: (x ++ [')'])) (dropParens ('(' :: (x ++ [')'])))

section Operands
variable {t w x : Text}

theorem balanced_dropParens (h : Balanced '(' ')' t) : Balanced '(' ')' (dropParens ('(' :: (t ++ [')']))) := by
  cases hl : t.hasLineEnd with
  | false => rwa [dropParens_group hl]
  | true =>
    have hkeep : dropParens ('(' :: (t ++ [')'])) = '(' :: (t ++ [')']) := by simp [dropParens, between?, hl]
    rw [hkeep]
    exact h.parens

theorem Operand.balanced (h : Operand w x) : Balanced '(' ')' w ∧ Balanced '(' ')' x := by
  cases h with
  | word hw => exact ⟨Formula.balanced_of_operand hw, Formula.balanced_of_operand hw⟩
  | call hf hx =>
    have hcall := (Formula.balanced_of_operand hf).append hx.parens
    exact ⟨hcall, hcall⟩
  | group hx => exact ⟨hx.parens, balanced_dropParens hx⟩

/-- The group at the start of a text. -/
theorem group?_start (hopen : startsWith "(" t = true) {group rest : Text} (h : group? t = some (group, rest)) :
    ∃ inner, group = '(' :: (inner ++ [')']) ∧ Balanced '(' ')' inner ∧ t = group ++ rest := by
  obtain ⟨u, hu⟩ := Option.isSome_iff_exists.1 hopen
  obtain rfl : t = '(' :: u := eq_of_after? hu
  obtain ⟨i, hi, he⟩ := Option.map_eq_some_iff.1 h
  obtain ⟨inner, after, rfl, hb, rfl⟩ := exists_partner (by decide) hi
  rw [group?_balanced hb] at h
  cases h
  exact ⟨inner, rfl, hb, by simp⟩

/-- The base that is found, and the blanks behind it. -/
theorem base?_operand {before base : Text} (h : base? t = some (before, base)) :
    ∃ w g, t = before ++ (w ++ g) ∧ g.allBlank = true ∧ Operand w base := by
  obtain ⟨g, ht, hg⟩ := exists_trimEnd t
  have hadd {w : Text} (hw : t.trimEnd = before ++ w) (ho : Operand w base) :
      ∃ w g, t = before ++ (w ++ g) ∧ g.allBlank = true ∧ Operand w base :=
    ⟨w, g, by rw [← List.append_assoc, ← hw, ← ht], hg, ho⟩
  have hword (u : Text) : ∀ c ∈ (spanEnd isOperand u).2, isOperand c = true :=
    fun c hc => List.all_eq_true.1 List.all_takeWhile c (List.mem_reverse.1 hc)
  simp only [base?] at h
  split at h
  · next hlast =>
    obtain ⟨i, hi, h⟩ := Option.bind_eq_some_iff.1 h
    obtain ⟨u, hu⟩ := List.getLast?_eq_some_iff.1 (eq_of_beq hlast)
    rw [hu] at hi h hadd
    obtain ⟨lead, inner, rfl, hb, rfl⟩ := opening?_end hi
    have htext : lead ++ '(' :: inner ++ [')'] = lead ++ '(' :: (inner ++ [')']) := by simp
    rw [htext, List.take_left, List.drop_left] at h
    cases h
    refine hadd (w := (spanEnd isOperand lead).2 ++ '(' :: (inner ++ [')'])) ?_ ?_
    · rw [htext, ← List.append_assoc, spanEnd_append]
    · split
      · next hempty =>
        rw [List.isEmpty_iff.1 hempty]
        exact .group hb
      · exact .call (hword lead) hb
  · split at h
    · cases h
    · cases h
      exact hadd (spanEnd_append isOperand t.trimEnd).symm (.word (hword _))

/-- The exponent that is found, behind blanks and a sign. -/
theorem exponent?_operand {exponent rest : Text} (h : exponent? t = some (exponent, rest)) :
    ∃ g s w x, t = g ++ (s ++ (w ++ rest)) ∧ g.allBlank = true ∧ (∀ c ∈ s, c = '-' ∨ c = '+') ∧
      exponent = s ++ x ∧ Operand w x := by
  have ht : t.takeWhile isBlank ++ t.trimStart = t := List.takeWhile_append_dropWhile
  have hsign : ∀ c ∈ (sign t.trimStart).1, c = '-' ∨ c = '+' := by
    fun_cases sign t.trimStart <;> simp
  have hadd {w x : Text} (hw : (sign t.trimStart).2 = w ++ rest) (hx : exponent = (sign t.trimStart).1 ++ x)
      (ho : Operand w x) : ∃ g s w x, t = g ++ (s ++ (w ++ rest)) ∧ g.allBlank = true ∧
        (∀ c ∈ s, c = '-' ∨ c = '+') ∧ exponent = s ++ x ∧ Operand w x :=
    ⟨_, _, w, x, by rw [← hw, sign_append, ht], allBlank_takeWhile, hsign, hx, ho⟩
  simp only [exponent?] at h
  split at h
  · next hopen =>
    obtain ⟨⟨group, r⟩, hg, h⟩ := Option.map_eq_some_iff.1 h
    cases h
    obtain ⟨inner, rfl, hi, htext⟩ := group?_start hopen hg
    exact hadd htext rfl (.group hi)
  · have hsplit := List.takeWhile_append_dropWhile (p := isOperand) (l := (sign t.trimStart).2)
    have hword : ∀ c ∈ (sign t.trimStart).2.takeWhile isOperand, isOperand c = true :=
      List.all_eq_true.1 List.all_takeWhile
    split at h
    · cases h
    · split at h
      · next hopen =>
        obtain ⟨⟨group, r⟩, hg, h⟩ := Option.map_eq_some_iff.1 h
        cases h
        obtain ⟨inner, rfl, hi, htext⟩ := group?_start hopen hg
        exact hadd (by rw [List.append_assoc, ← htext, hsplit]) (List.append_assoc ..) (.call hword hi)
      · cases h
        exact hadd hsplit.symm rfl (.word hword)

end Operands

end Power

end FixedForm
