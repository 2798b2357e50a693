import FixedForm.Proofs.Text.Nesting

/-! Parentheses by their depth.  A text is balanced when it ends at the depth where it starts and never
falls below it; a parenthesis has no partner when the text stays above its depth. -/
namespace FixedForm.Text

/-! ### Texts without parentheses -/

section Flat
variable {t : Text}

theorem flat_of_class {p : Char → Bool} (ho : p '(' = false) (hc : p ')' = false) (h : ∀ c ∈ t, p c = true) :
    ∀ c ∈ t, c ≠ '(' ∧ c ≠ ')' := by
  intro c hm
  have hp := h c hm
  constructor <;> rintro rfl
  · rw [ho] at hp
    cases hp
  · rw [hc] at hp
    cases hp

theorem flat_of_operand (h : ∀ c ∈ t, isOperand c = true) : ∀ c ∈ t, c ≠ '(' ∧ c ≠ ')' :=
  flat_of_class (by decide) (by decide) h

theorem flat_of_word (h : ∀ c ∈ t, isWord c = true) : ∀ c ∈ t, c ≠ '(' ∧ c ≠ ')' :=
  flat_of_class (by decide) (by decide) h

theorem flat_of_blank (h : t.allBlank = true) : ∀ c ∈ t, c ≠ '(' ∧ c ≠ ')' :=
  flat_of_class (by decide) (by decide) (mem_of_allBlank h)

end Flat

/-! ### Depth -/

/-- How many parentheses are open after a text, when `n` are open before it.  There is no answer when
it closes more than that. -/
def depth? : Nat → Text → Option Nat
  | n, [] => some n
  | n, c :: t =>
    if c = '(' then depth? (n + 1) t
    else if c = ')' then
      match n with
      | 0 => none
      | n + 1 => depth? n t
    else depth? n t

section Depth
variable {n k : Nat} {c : Char} {t u : Text}

theorem depth?_open (n : Nat) (t : Text) : depth? n ('(' :: t) = depth? (n + 1) t := by simp [depth?]

theorem depth?_close (n : Nat) (t : Text) : depth? (n + 1) (')' :: t) = depth? n t := by simp [depth?]

theorem depth?_stray (t : Text) : depth? 0 (')' :: t) = none := by simp [depth?]

theorem depth?_skip (hc : c ≠ '(' ∧ c ≠ ')') (n : Nat) (t : Text) : depth? n (c :: t) = depth? n t := by
  simp [depth?, hc]

theorem depth?_eq_depthAfter (n : Nat) (t : Text) : depth? n t = depthAfter '(' ')' n t := by
  fun_induction depthAfter '(' ')' n t <;> simp_all [depth?]

theorem depth?_append (n : Nat) (t u : Text) : depth? n (t ++ u) = (depth? n t).bind (depth? · u) := by
  simp only [depth?_eq_depthAfter, depthAfter_append]

theorem depth?_flat (h : ∀ c ∈ t, c ≠ '(' ∧ c ≠ ')') (n : Nat) : depth? n t = some n := by
  rw [depth?_eq_depthAfter, depthAfter_free h]

theorem Balanced.depth?_eq (h : Balanced '(' ')' t) (n : Nat) : depth? n t = some n := by
  rw [depth?_eq_depthAfter, h.depthAfter_eq (by decide)]

/-- A balanced text does not count. -/
theorem Balanced.depth?_behind (h : Balanced '(' ')' t) (n : Nat) (u : Text) : depth? n (u ++ t) = depth? n u := by
  rw [depth?_append]
  cases depth? n u with
  | none => rfl
  | some k => rw [Option.bind_some, h.depth?_eq]

theorem depth?_add (h : depth? n t = some k) (d : Nat) : depth? (n + d) t = some (k + d) := by
  rw [depth?_eq_depthAfter] at h ⊢
  exact depthAfter_add h d

/-- The parenthesis before the text is closed in it. -/
def Closed (t : Text) : Prop := ∃ inner after, t = inner ++ ')' :: after ∧ Balanced '(' ')' inner

theorem Balanced.not_closed (h : Balanced '(' ')' t) : ¬ Closed t := by
  rintro ⟨inner, after, rfl, hi⟩
  have hd := h.depth?_eq 0
  rw [depth?_append, hi.depth?_eq, Option.bind_some, depth?_stray] at hd
  cases hd

/-- A balanced text at the start of what a parenthesis encloses ends before its partner. -/
theorem Balanced.enclosed {inner rest r : Text} (hi : Balanced '(' ')' inner) (ht : Balanced '(' ')' t)
    (h : inner ++ ')' :: rest = t ++ r) : ∃ u, inner = t ++ u ∧ r = u ++ ')' :: rest := by
  rcases List.append_eq_append_iff.1 h with ⟨u, rfl, hu⟩ | ⟨u, rfl, hu⟩
  · cases u with
    | nil => exact ⟨[], by simp, hu.symm⟩
    | cons c u =>
      obtain ⟨rfl, -⟩ := List.cons.inj hu
      exact absurd ⟨inner, u, rfl, hi⟩ ht.not_closed
  · exact ⟨u, rfl, hu⟩

theorem balanced_of_depth? (h : depth? 0 t = some 0) : Balanced '(' ')' t := by
  rw [depth?_eq_depthAfter] at h
  exact balanced_of_depthAfter h

theorem balanced_iff_depth? : Balanced '(' ')' t ↔ depth? 0 t = some 0 :=
  ⟨fun h => h.depth?_eq 0, balanced_of_depth?⟩

instance (t : Text) : Decidable (Balanced '(' ')' t) := decidable_of_iff _ balanced_iff_depth?.symm

theorem closed_of_depth? (h : depth? (n + 1) t = some k) (hk : k ≤ n) : Closed t := by
  rw [depth?_eq_depthAfter] at h
  obtain ⟨inner, after, ht, hi, -⟩ := exists_closing 0 (by rwa [Nat.zero_add]) hk
  exact ⟨inner, after, ht, balanced_of_depthAfter hi⟩

/-- A parenthesis that stays open cannot have others closed behind it. -/
theorem Closed.of_open {args : Text} (h : Closed (t ++ (u ++ '(' :: args))) (hu : ')' ∉ u)
    (ha : Balanced '(' ')' args) : Closed t := by
  obtain ⟨inner, after, he, hi⟩ := h
  rcases List.append_eq_append_iff.1 he with ⟨x, rfl, hx⟩ | ⟨x, rfl, hx⟩
  · rcases List.append_eq_append_iff.1 hx with ⟨y, rfl, hy⟩ | ⟨y, rfl, hy⟩
    · cases y with
      | nil => cases hy
      | cons c y =>
        obtain ⟨rfl, rfl⟩ := List.cons.inj hy
        -- behind `y` the arguments are deeper than at their start, and so is all that comes before
        obtain ⟨n, -, hi⟩ := Option.bind_eq_some_iff.1 ((depth?_append 0 t _).symm.trans (hi.depth?_eq 0))
        obtain ⟨m, -, hi⟩ := Option.bind_eq_some_iff.1 ((depth?_append n u _).symm.trans hi)
        obtain ⟨k, hk, -⟩ := Option.bind_eq_some_iff.1 ((depth?_append 0 y _).symm.trans (ha.depth?_eq 0))
        rw [depth?_open] at hi
        have hdeep := depth?_add hk (m + 1)
        rw [Nat.zero_add, hi] at hdeep
        cases Option.some.inj hdeep
    · cases y with
      | nil => cases hy
      | cons c y =>
        obtain ⟨rfl, -⟩ := List.cons.inj hy
        exact absurd (by simp) hu
  · cases x with
    | nil =>
      cases u with
      | nil => cases hx
      | cons c u =>
        obtain ⟨rfl, -⟩ := List.cons.inj hx
        exact absurd List.mem_cons_self hu
    | cons c x =>
      obtain ⟨rfl, -⟩ := List.cons.inj hx
      exact ⟨inner, x, rfl, hi⟩

/-- A parenthesis has a partner exactly when it is closed. -/
theorem closing?_eq_none_iff : closing? ('(' :: t) = none ↔ ¬ Closed t := by
  constructor
  · rintro hn ⟨inner, after, rfl, hi⟩
    cases hn.symm.trans (closing?_balanced hi after)
  · intro h
    refine Option.eq_none_iff_forall_ne_some.2 fun i hi => ?_
    obtain ⟨inner, after, ht, hb, -⟩ := exists_partner (by decide) hi
    exact h ⟨inner, after, ht, hb⟩

instance (t : Text) : Decidable (Closed t) :=
  decidable_of_iff (closing? ('(' :: t) ≠ none) (by rw [ne_eq, closing?_eq_none_iff, Classical.not_not])

end Depth

/-- The parentheses of a walk, with the other delimiters left out. -/
theorem depth?_walk {outer : Char → Bool} {s s' : List Char} {t : Text} (h : walk outer s t = some s') :
    depth? (s.count '(') t = some (s'.count '(') := by
  induction t generalizing s with
  | nil =>
    cases h
    rfl
  | cons c t ih =>
    obtain ⟨hc, hw⟩ | ⟨hc, ho, -, hw⟩ | ⟨o, outside, hc, ho, rfl, hw⟩ := walk_cases h
    · rw [← ih hw]
      rcases closer?_isSome hc with rfl | rfl | rfl
      · rw [depth?_open, List.count_cons_self]
      iterate 2 rw [depth?_skip (by decide), List.count_cons_of_ne (by decide)]
    · rw [depth?_skip (ne_paren_of_flat (by simp [hc]) ho), ih hw]
    · rw [← ih hw]
      rcases opener?_eq_some ho with ⟨rfl, rfl⟩ | ⟨rfl, rfl⟩ | ⟨rfl, rfl⟩
      · rw [List.count_cons_self, depth?_close]
      iterate 2 rw [depth?_skip (by decide), List.count_cons_of_ne (by decide)]

theorem Nested.balanced {t : Text} (h : Nested t) : Balanced '(' ')' t :=
  balanced_of_depth? (depth?_walk h)

/-- The partner of the first parenthesis stands after the nested text behind it. -/
theorem closing?_nested {t : Text} (ht : Nested t) (rest : Text) :
    closing? ('(' :: (t ++ ')' :: rest)) = some (t.length + 1) :=
  closing?_balanced ht.balanced rest

/-- Where there are no other delimiters, balanced parentheses are properly nested delimiters. -/
theorem Balanced.nested {t : Text} (h : Balanced '(' ')' t)
    (hb : ∀ c ∈ t, c ∉ "[]\x7b\x7d".toList) : Nested t := by
  induction h with
  | nil => exact .nil
  | @cons c t hu hd _ ih =>
    have hflat : isFlat c = true := by
      have hc := hb c (by simp)
      refine isFlat_of_class (p := fun d => d != '(' && d != ')' && !"[]\x7b\x7d".toList.contains d)
        (by decide) ?_
      simp only [Bool.and_eq_true, bne_iff_ne, Bool.not_eq_true', List.contains_eq_mem, decide_eq_false_iff_not]
      exact ⟨⟨hu, hd⟩, hc⟩
    simp only [isFlat, Bool.and_eq_true, Option.isNone_iff_eq_none] at hflat
    rw [Nested, walk_skips (by simp [hflat.1]) hflat.2 fun _ => rfl]
    exact ih fun d hd => hb d (by simp [hd])
  | @pair x y _ _ ihx ihy =>
    have hx := ihx fun c hc => hb c (by simp [hc])
    have hy := ihy fun c hc => hb c (by simp [hc])
    have hp := (NestedItem.parens hx).nested.append hy
    simpa using hp

/-- A nested list has no fault. -/
theorem splitCommasFrom_faults {s : List Char} {t : Text} (h : walk (fun _ => true) s t = some []) :
    (splitCommasFrom s t).2 = [] := by
  induction t generalizing s with
  | nil =>
    cases h
    rfl
  | cons c t ih =>
    obtain ⟨hc, hw⟩ | ⟨hc, ho, -, hw⟩ | ⟨o, rest, hc, ho, rfl, hw⟩ := walk_cases h
    · have hne : c ≠ ',' := by
        rintro rfl
        simp [closer?] at hc
      have hn : nest s c = (c :: s, []) := by simp [nest, hc]
      rw [splitCommasFrom_step (.inl hne) hn, ih hw]
    · by_cases hcomma : c = ',' ∧ s = []
      · obtain ⟨rfl, rfl⟩ := hcomma
        simp [splitCommasFrom, ih hw]
      · have hn : nest s c = (s, []) := by simp [nest, hc, ho]
        rw [splitCommasFrom_step (Decidable.not_and_iff_or_not.1 hcomma) hn, ih hw]
    · have hn : nest (o :: rest) c = (rest, []) := by simp [nest, hc, ho]
      rw [splitCommasFrom_step (.inr (List.cons_ne_nil o rest)) hn, ih hw]

end FixedForm.Text
