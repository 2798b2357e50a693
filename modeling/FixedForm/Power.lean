import FixedForm.Text.Nesting

/-!
Exponentiation: `base**exponent` becomes `pow(base, exponent)`, the first one first.  An operand is a
word, a call, or a group whose own parentheses are dropped.
-/

namespace FixedForm.Power

/-- Cuts a text at its first `**`. -/
def cut? : Text → Option (Text × Text)
  | [] => none
  | '*' :: '*' :: t => some ([], t)
  | c :: t => (cut? t).map fun (before, after) => (c :: before, after)

/-- A group without its parentheses.  One that holds a line end keeps them. -/
def dropParens (group : Text) : Text :=
  match group.between? '(' ')' with
  | some inner => if Text.hasLineEnd inner then group else inner
  | none => group

/-- The text before the base, and the base, of a text that ends with it. -/
def base? (t : Text) : Option (Text × Text) :=
  let t := t.trimEnd
  if t.getLast? == some ')' then do
    let opening ← t.opening?
    let (before, callee) := Text.spanEnd isOperand (t.take opening)
    let group := t.drop opening
    some (before, if callee.isEmpty then dropParens group else callee ++ group)
  else
    let (before, word) := t.spanEnd isOperand
    if word.isEmpty then none else some (before, word)

/-- A sign, and what follows it. -/
def sign : Text → Text × Text
  | '-' :: t => (['-'], t)
  | '+' :: t => (['+'], t)
  | t => ([], t)

/-- The parenthesised group that a text starts with, and what follows it. -/
def group? (t : Text) : Option (Text × Text) :=
  t.closing?.map fun closing => (t.take (closing + 1), t.drop (closing + 1))

/-- The exponent that a text starts with, and what follows it. -/
def exponent? (t : Text) : Option (Text × Text) :=
  let (sign, t) := sign t.trimStart
  if Text.startsWith "(" t then
    (group? t).map fun (group, rest) => (sign ++ dropParens group, rest)
  else
    match t.takeWhile isOperand, t.dropWhile isOperand with
    | [], _ => none
    | word, rest =>
      if Text.startsWith "(" rest then
        (group? rest).map fun (group, rest) => (sign ++ word ++ group, rest)
      else some (sign ++ word, rest)

/-- Replaces the first `**`; none when an operand has no clear end. -/
def step? (before after : Text) : Option Text := do
  let (before, base) ← base? before
  let (exponent, after) ← exponent? after
  some (before ++ "pow(" ++ base ++ ", " ++ exponent ++ ")" ++ after)

theorem eq_of_cut? {t before after : Text} (h : cut? t = some (before, after)) :
    t = before ++ '*' :: '*' :: after := by
  fun_induction cut? t generalizing before after with
  | case1 => simp at h
  | case2 t => simp_all
  | case3 c t _ ih =>
    obtain ⟨⟨b, a⟩, hb, hp⟩ := Option.map_eq_some_iff.1 h
    cases hp
    simp [ih hb]

theorem dropParens_sublist (group : Text) : (dropParens group).Sublist group := by
  rw [dropParens]
  split
  · next inner h =>
    split
    · exact List.Sublist.refl _
    · cases group with
      | nil => simp [Text.between?] at h
      | cons c t =>
        rw [Text.between?] at h
        split at h
        · cases h
          exact (List.dropLast_sublist t).cons c
        · simp at h
  · exact List.Sublist.refl _

theorem count_base? (c : Char) {t before base : Text} (h : base? t = some (before, base)) :
    before.count c + base.count c ≤ t.count c := by
  have ht : t.trimEnd.count c ≤ t.count c := by
    have := ((List.dropWhile_sublist isBlank).count_le c : _ ≤ t.reverse.count c)
    simpa [Text.trimEnd] using this
  refine Nat.le_trans ?_ ht
  simp only [base?] at h
  split at h
  · obtain ⟨opening, -, h⟩ := Option.bind_eq_some_iff.1 h
    have hs := congrArg (List.count c) (Text.spanEnd_append isOperand (t.trimEnd.take opening))
    have hd := (dropParens_sublist (t.trimEnd.drop opening)).count_le c
    have hc := congrArg (List.count c) (List.take_append_drop opening t.trimEnd)
    simp only [List.count_append] at hs hc
    cases h
    split
    · omega
    · simp only [List.count_append]
      omega
  · have hs := congrArg (List.count c) (Text.spanEnd_append isOperand t.trimEnd)
    simp only [List.count_append] at hs
    split at h
    · simp at h
    · cases h
      omega

theorem count_group? (c : Char) {t group rest : Text} (h : group? t = some (group, rest)) :
    group.count c + rest.count c = t.count c := by
  obtain ⟨closing, -, h⟩ := Option.map_eq_some_iff.1 h
  cases h
  rw [← List.count_append, List.take_append_drop]

theorem sign_append (t : Text) : (sign t).1 ++ (sign t).2 = t := by
  fun_cases sign t <;> rfl

theorem count_exponent? (c : Char) {t exponent rest : Text} (h : exponent? t = some (exponent, rest)) :
    exponent.count c + rest.count c ≤ t.count c := by
  have ht : t.trimStart.count c ≤ t.count c := (List.dropWhile_sublist isBlank).count_le c
  refine Nat.le_trans ?_ ht
  have hsign := congrArg (List.count c) (sign_append t.trimStart)
  rw [List.count_append] at hsign
  simp only [exponent?] at h
  generalize (sign t.trimStart).1 = s at h hsign
  generalize (sign t.trimStart).2 = u at h hsign
  split at h
  · obtain ⟨⟨group, r⟩, hg, h⟩ := Option.map_eq_some_iff.1 h
    cases h
    have hc := count_group? c hg
    have hd := (dropParens_sublist group).count_le c
    simp only [List.count_append]
    omega
  · have hw := congrArg (List.count c) (List.takeWhile_append_dropWhile (p := isOperand) (l := u))
    simp only [List.count_append] at hw
    split at h
    · simp at h
    · split at h
      · obtain ⟨⟨group, r⟩, hg, h⟩ := Option.map_eq_some_iff.1 h
        cases h
        have hc := count_group? c hg
        simp only [List.count_append]
        omega
      · cases h
        simp only [List.count_append]
        omega

/-- A replacement brings in no characters but its own. -/
theorem count_step? {c : Char} (hc : c ∉ "pow(, )".toList) {before after t : Text} (h : step? before after = some t) :
    t.count c ≤ before.count c + after.count c := by
  simp only [step?, Option.bind_eq_bind, Option.bind_eq_some_iff] at h
  obtain ⟨⟨b, base⟩, hb, ⟨e, a⟩, he, h⟩ := h
  have h₁ := count_base? c hb
  have h₂ := count_exponent? c he
  cases h
  simp only [List.count_append]
  have hnone {w : Text} (hw : w ⊆ "pow(, )".toList) : w.count c = 0 :=
    List.count_eq_zero.2 fun hm => hc (hw hm)
  have h₃ : List.count c "pow(".toList = 0 := hnone (by decide)
  have h₄ : List.count c ", ".toList = 0 := hnone (by decide)
  have h₅ : List.count c ")".toList = 0 := hnone (by decide)
  omega

set_option linter.unusedVariables false in
/-- Replaces every `**`; none when an operand has no clear end. -/
def replace? (t : Text) : Option Text :=
  match hc : cut? t with
  | none => some t
  | some (before, after) =>
    match hs : step? before after with
    | none => none
    | some next => replace? next
termination_by t.count '*'
decreasing_by
  have h₁ := congrArg (List.count '*') (eq_of_cut? hc)
  have h₂ := count_step? (c := '*') (by decide) hs
  simp only [List.count_append, List.count_cons_self] at h₁
  omega

end FixedForm.Power
