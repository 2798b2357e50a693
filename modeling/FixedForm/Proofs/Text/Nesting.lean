import FixedForm.Proofs.Text.Scan
import FixedForm.Text.Nesting

/-! Properly nested texts.  A text is walked with the stack of its open delimiters; the partner of a
parenthesis and the pieces of a list are then known from the walk. -/
namespace FixedForm.Text

/-- The open delimiters after a text, innermost first.  There are none to give when a delimiter is
closed out of turn, or when a character outside every delimiter lies outside `outer`. -/
def walk (outer : Char → Bool) : List Char → Text → Option (List Char)
  | stack, [] => some stack
  | stack, c :: t =>
    if (closer? c).isSome then walk outer (c :: stack) t
    else
      match opener? c, stack with
      | none, [] => if outer c then walk outer [] t else none
      | none, top :: rest => walk outer (top :: rest) t
      | some _, [] => none
      | some o, top :: rest => if top == o then walk outer rest t else none

/-- The delimiters of the text nest properly. -/
def Nested (t : Text) : Prop := walk (fun _ => true) [] t = some []

/-- The delimiters nest properly and no comma stands outside all of them. -/
def NestedItem (t : Text) : Prop := walk (· != ',') [] t = some []

instance (t : Text) : Decidable (Nested t) := inferInstanceAs (Decidable (_ = _))

instance (t : Text) : Decidable (NestedItem t) := inferInstanceAs (Decidable (_ = _))

/-- The open delimiters after one character. -/
def walkStep (outer : Char → Bool) (s : List Char) (c : Char) : Option (List Char) :=
  if (closer? c).isSome then some (c :: s)
  else
    match opener? c, s with
    | none, [] => if outer c then some [] else none
    | none, top :: rest => some (top :: rest)
    | some _, [] => none
    | some o, top :: rest => if top == o then some rest else none

section Step
variable {outer : Char → Bool} {s s' : List Char} {c o : Char} {t : Text}

theorem walk_cons (outer : Char → Bool) (s : List Char) (c : Char) (t : Text) :
    walk outer s (c :: t) = (walkStep outer s c).bind fun s' => walk outer s' t := by
  rw [walk.eq_def]
  unfold walkStep
  dsimp only
  split
  · rfl
  · cases opener? c with
    | none =>
      cases s with
      | nil =>
        dsimp only
        split <;> rfl
      | cons top s => rfl
    | some o =>
      cases s with
      | nil => rfl
      | cons top s =>
        dsimp only
        split <;> rfl

theorem walkStep_opens (hc : (closer? c).isSome = true) : walkStep outer s c = some (c :: s) :=
  if_pos hc

theorem walkStep_skips (hc : (closer? c).isSome = false) (ho : opener? c = none)
    (hs : s = [] → outer c = true) : walkStep outer s c = some s := by
  unfold walkStep
  rw [hc, ho]
  cases s with
  | nil => exact if_pos (hs rfl)
  | cons top s => rfl

theorem walkStep_closes (hc : (closer? c).isSome = false) (ho : opener? c = some o) :
    walkStep outer (o :: s) c = some s := by
  unfold walkStep
  rw [hc, ho]
  exact if_pos (beq_self_eq_true o)

theorem walk_opens (hc : (closer? c).isSome = true) : walk outer s (c :: t) = walk outer (c :: s) t := by
  rw [walk_cons, walkStep_opens hc, Option.bind_some]

theorem walk_skips (hc : (closer? c).isSome = false) (ho : opener? c = none)
    (hs : s = [] → outer c = true) : walk outer s (c :: t) = walk outer s t := by
  rw [walk_cons, walkStep_skips hc ho hs, Option.bind_some]

theorem walk_closes (hc : (closer? c).isSome = false) (ho : opener? c = some o) :
    walk outer (o :: s) (c :: t) = walk outer s t := by
  rw [walk_cons, walkStep_closes hc ho, Option.bind_some]

/-- A character opens a delimiter, or closes the innermost one, or is none. -/
theorem walkStep_cases (h : walkStep outer s c = some s') :
    ((closer? c).isSome = true ∧ s' = c :: s) ∨
    ((closer? c).isSome = false ∧ opener? c = none ∧ (s = [] → outer c = true) ∧ s' = s) ∨
    (∃ o, (closer? c).isSome = false ∧ opener? c = some o ∧ s = o :: s') := by
  cases hc : (closer? c).isSome with
  | true =>
    rw [walkStep_opens hc] at h
    exact .inl ⟨rfl, (Option.some.inj h).symm⟩
  | false =>
    refine .inr ?_
    unfold walkStep at h
    rw [hc] at h
    cases ho : opener? c with
    | none =>
      rw [ho] at h
      cases s with
      | nil =>
        obtain ⟨hx, hs⟩ := Option.ite_none_right_eq_some.1 h
        exact .inl ⟨rfl, rfl, fun _ => hx, (Option.some.inj hs).symm⟩
      | cons top s => exact .inl ⟨rfl, rfl, nofun, (Option.some.inj h).symm⟩
    | some o =>
      rw [ho] at h
      cases s with
      | nil => cases h
      | cons top s =>
        obtain ⟨he, hs⟩ := Option.ite_none_right_eq_some.1 h
        rw [eq_of_beq he, Option.some.inj hs]
        exact .inr ⟨o, rfl, rfl, rfl⟩

theorem walk_cases (h : walk outer s (c :: t) = some s') :
    ((closer? c).isSome = true ∧ walk outer (c :: s) t = some s') ∨
    ((closer? c).isSome = false ∧ opener? c = none ∧ (s = [] → outer c = true) ∧
      walk outer s t = some s') ∨
    (∃ o rest, (closer? c).isSome = false ∧ opener? c = some o ∧ s = o :: rest ∧
      walk outer rest t = some s') := by
  rw [walk_cons] at h
  obtain ⟨next, hstep, hnext⟩ := Option.bind_eq_some_iff.1 h
  obtain ⟨hc, rfl⟩ | ⟨hc, ho, hs, rfl⟩ | ⟨o, hc, ho, rfl⟩ := walkStep_cases hstep
  · exact .inl ⟨hc, hnext⟩
  · exact .inr (.inl ⟨hc, ho, hs, hnext⟩)
  · exact .inr (.inr ⟨o, next, hc, ho, rfl, hnext⟩)

end Step

theorem walk_append (outer : Char → Bool) (s : List Char) (t u : Text) :
    walk outer s (t ++ u) = (walk outer s t).bind fun s' => walk outer s' u := by
  induction t generalizing s with
  | nil => rfl
  | cons c t ih => simp only [List.cons_append, walk_cons, ih, Option.bind_assoc]

/-- A walk does not look below the delimiters that it starts with. -/
theorem walk_under {outer inner : Char → Bool} {s s' : List Char} {t : Text} (base : List Char)
    (hbase : base ≠ [] ∨ ∀ c, outer c = true → inner c = true) (h : walk outer s t = some s') :
    walk inner (s ++ base) t = some (s' ++ base) := by
  induction t generalizing s with
  | nil =>
    cases h
    rfl
  | cons c t ih =>
    obtain ⟨hc, hw⟩ | ⟨hc, ho, hs, hw⟩ | ⟨o, rest, hc, ho, rfl, hw⟩ := walk_cases h
    · rw [walk_opens hc]
      exact ih hw
    · rw [walk_skips hc ho fun he => ?_]
      · exact ih hw
      · obtain ⟨rfl, hb⟩ := List.append_eq_nil_iff.1 he
        rcases hbase with hne | himp
        · exact absurd hb hne
        · exact himp c (hs rfl)
    · rw [List.cons_append, walk_closes hc ho]
      exact ih hw

namespace Nested
variable {t u : Text}

theorem walk_eq (h : Nested t) {outer : Char → Bool} {s : List Char} (hs : s ≠ []) :
    walk outer s t = some s := by
  simpa using walk_under s (.inl hs) h

theorem nil : Nested [] := rfl

theorem append (ht : Nested t) (hu : Nested u) : Nested (t ++ u) := by
  rw [Nested, walk_append, ht]
  exact hu

end Nested

namespace NestedItem
variable {t u : Text}

theorem nested (h : NestedItem t) : Nested t := by
  have hw : walk (fun _ => true) ([] ++ []) t = some ([] ++ []) :=
    walk_under [] (.inr fun _ _ => rfl) h
  exact hw

theorem nil : NestedItem [] := rfl

theorem append (ht : NestedItem t) (hu : NestedItem u) : NestedItem (t ++ u) := by
  rw [NestedItem, walk_append, ht]
  exact hu

/-- A nested text between delimiters is one item, whatever commas it holds. -/
theorem enclosed {o c : Char} (hoc : o = '(' ∧ c = ')' ∨ o = '[' ∧ c = ']') (h : Nested t) :
    NestedItem (o :: t ++ [c]) := by
  have hw : walk (· != ',') [o] t = some [o] := h.walk_eq (by simp)
  have ho : walk (· != ',') [] (o :: t ++ [c]) = walk (· != ',') [o] (t ++ [c]) := by
    rcases hoc with ⟨rfl, -⟩ | ⟨rfl, -⟩ <;> rfl
  rw [NestedItem, ho, walk_append, hw]
  rcases hoc with ⟨rfl, rfl⟩ | ⟨rfl, rfl⟩ <;> rfl

theorem parens (h : Nested t) : NestedItem ('(' :: t ++ [')']) := enclosed (.inl ⟨rfl, rfl⟩) h

end NestedItem

/-- A character that is no delimiter. -/
def isFlat (c : Char) : Bool := (closer? c).isNone && (opener? c).isNone

theorem walk_flat {outer : Char → Bool} {t : Text} (h : ∀ c ∈ t, isFlat c = true)
    (ho : ∀ c ∈ t, outer c = true) : walk outer [] t = some [] := by
  induction t with
  | nil => rfl
  | cons c t ih =>
    have hc := h c (by simp)
    simp only [isFlat, Bool.and_eq_true, Option.isNone_iff_eq_none] at hc
    have ht := ih (fun d hd => h d (by simp [hd])) (fun d hd => ho d (by simp [hd]))
    simpa [walk, hc.1, hc.2, ho c (by simp)] using ht

theorem NestedItem.of_flat {t : Text} (h : ∀ c ∈ t, isFlat c = true) (hc : ',' ∉ t) :
    NestedItem t :=
  walk_flat h fun c hm => by simpa using fun he : c = ',' => hc (he ▸ hm)

theorem closer?_isSome {c : Char} (h : (closer? c).isSome = true) :
    c = '(' ∨ c = '[' ∨ c = '\x7b' := by
  unfold closer? at h
  split at h <;> simp_all

theorem opener?_eq_some {c o : Char} (h : opener? c = some o) :
    (c = ')' ∧ o = '(') ∨ (c = ']' ∧ o = '[') ∨ (c = '\x7d' ∧ o = '\x7b') := by
  unfold opener? at h
  split at h <;> simp_all [eq_comm]

/-- A class of characters without delimiters holds only flat ones. -/
theorem isFlat_of_class {p : Char → Bool} (hp : "()[]\x7b\x7d".toList.all (!p ·) = true) {c : Char}
    (hc : p c = true) : isFlat c = true := by
  cases hf : isFlat c with
  | true => rfl
  | false =>
    have hmem : c ∈ "()[]\x7b\x7d".toList := by
      simp only [isFlat, Bool.and_eq_false_iff, Option.isNone_eq_false_iff] at hf
      rcases hf with h | h
      · rcases closer?_isSome h with rfl | rfl | rfl <;> decide
      · obtain ⟨o, ho⟩ := Option.isSome_iff_exists.1 h
        rcases opener?_eq_some ho with ⟨rfl, -⟩ | ⟨rfl, -⟩ | ⟨rfl, -⟩ <;> decide
    have hno := List.all_eq_true.1 hp c hmem
    simp [hc] at hno

theorem ne_paren_of_flat {c : Char} (hc : ¬ (closer? c).isSome = true) (ho : opener? c = none) :
    c ≠ '(' ∧ c ≠ ')' := by
  refine ⟨?_, ?_⟩
  · rintro rfl
    exact hc rfl
  · rintro rfl
    exact absurd ho (by decide)

section Balance
variable {up down c : Char}

theorem balance_up (d i : Nat) (t : Text) :
    balance up down d i (up :: t) = balance up down (d + 1) (i + 1) t :=
  if_pos (beq_self_eq_true up)

theorem balance_down (hne : up ≠ down) (d i : Nat) (t : Text) :
    balance up down (d + 2) i (down :: t) = balance up down (d + 1) (i + 1) t :=
  (if_neg (by simpa using hne.symm)).trans (if_pos (beq_self_eq_true down))

theorem balance_last (hne : up ≠ down) (i : Nat) (t : Text) : balance up down 1 i (down :: t) = some i :=
  (if_neg (by simpa using hne.symm)).trans (if_pos (beq_self_eq_true down))

theorem balance_skip (hc : c ≠ up ∧ c ≠ down) (d i : Nat) (t : Text) :
    balance up down d i (c :: t) = balance up down d (i + 1) t :=
  (if_neg (by simpa using hc.1)).trans (if_neg (by simpa using hc.2))

end Balance

/-- `t` put in front of the first piece. -/
def prepend (t : Text) : List Text → List Text
  | [] => [t]
  | p :: ps => (t ++ p) :: ps

theorem splitCommasFrom_ne_nil (s : List Char) (t : Text) : (splitCommasFrom s t).1 ≠ [] := by
  cases t with
  | nil => simp [splitCommasFrom]
  | cons c t =>
    rw [splitCommasFrom]
    split
    · simp
    · cases h : (splitCommasFrom (nest s c).1 t).1 <;> simp [pushFirst, h]

theorem pushFirst_prepend (c : Char) (t : Text) (ps : List Text) :
    pushFirst c (prepend t ps) = prepend (c :: t) ps := by
  cases ps <;> simp [pushFirst, prepend]

theorem prepend_nil {ps : List Text} (h : ps ≠ []) : prepend [] ps = ps := by
  cases ps with
  | nil => exact absurd rfl h
  | cons p ps => rfl

theorem splitCommasFrom_step {s s' : List Char} {c : Char} (hc : c ≠ ',' ∨ s ≠ [])
    (hn : nest s c = (s', [])) (t : Text) :
    splitCommasFrom s (c :: t) =
      (pushFirst c (splitCommasFrom s' t).1, (splitCommasFrom s' t).2) := by
  have h : ¬ (c == ',' && s.isEmpty) = true := by simpa [Decidable.imp_iff_not_or] using hc
  rw [splitCommasFrom, if_neg h]
  simp [hn]

/-- A walk that meets no comma outside its delimiters stays within one piece and shows no fault. -/
theorem splitCommasFrom_walk {s s' : List Char} {t : Text} (h : walk (· != ',') s t = some s')
    (rest : Text) :
    splitCommasFrom s (t ++ rest) =
      (prepend t (splitCommasFrom s' rest).1, (splitCommasFrom s' rest).2) := by
  have hne (c : Char) (hc : (closer? c).isSome = true ∨ ∃ o, opener? c = some o) : c ≠ ',' := by
    rintro rfl
    simp [closer?, opener?] at hc
  induction t generalizing s with
  | nil =>
    cases h
    rw [List.nil_append, prepend_nil (splitCommasFrom_ne_nil _ _)]
  | cons c t ih =>
    obtain ⟨hc, hw⟩ | ⟨hc, ho, hs, hw⟩ | ⟨o, outside, hc, ho, rfl, hw⟩ := walk_cases h
    · have hn : nest s c = (c :: s, []) := by simp [nest, hc]
      rw [List.cons_append, splitCommasFrom_step (.inl (hne c (.inl hc))) hn, ih hw, pushFirst_prepend]
    · have hn : nest s c = (s, []) := by cases s <;> simp [nest, hc, ho]
      have hor : c ≠ ',' ∨ s ≠ [] := by
        cases s with
        | nil => exact .inl (by simpa using hs rfl)
        | cons top s => exact .inr nofun
      rw [List.cons_append, splitCommasFrom_step hor hn, ih hw, pushFirst_prepend]
    · have hn : nest (o :: outside) c = (outside, []) := by simp [nest, hc, ho]
      rw [List.cons_append, splitCommasFrom_step (.inl (hne c (.inr ⟨o, ho⟩))) hn, ih hw,
        pushFirst_prepend]

theorem splitCommas_item {t : Text} (h : NestedItem t) : splitCommas t = ([t], []) := by
  have hw := splitCommasFrom_walk h []
  simpa [splitCommas, splitCommasFrom, prepend] using hw

theorem splitCommas_cons {t : Text} (h : NestedItem t) (rest : Text) :
    splitCommas (t ++ ',' :: rest) = (t :: (splitCommas rest).1, (splitCommas rest).2) := by
  have hw := splitCommasFrom_walk h (',' :: rest)
  simpa [splitCommas, splitCommasFrom, prepend] using hw

theorem nestedItem_trimStart {t : Text} (h : NestedItem t) : NestedItem t.trimStart := by
  induction t with
  | nil => exact h
  | cons c t ih =>
    rw [trimStart, List.dropWhile_cons]
    split
    · next hb =>
      refine ih ?_
      have hf := isFlat_of_class (p := isBlank) (by decide) hb
      simp only [isFlat, Bool.and_eq_true, Option.isNone_iff_eq_none] at hf
      have hn : c ≠ ',' := by
        rintro rfl
        exact absurd hb (by decide)
      simpa [NestedItem, walk, hf.1, hf.2, hn] using h
    · exact h

theorem trimStart_item (t rest : Text) :
    trimStart (t ++ ',' :: rest) = trimStart t ++ ',' :: rest := by
  cases hb : t.allBlank with
  | true =>
    rw [trimStart_run hb (.cons (by decide)), trimStart_of_allBlank hb]
    rfl
  | false =>
    have hne : (t.dropWhile isBlank).isEmpty = false := by
      cases he : (t.dropWhile isBlank).isEmpty with
      | false => rfl
      | true =>
        have hn : trimStart t = [] := by simpa [trimStart] using he
        rw [← allBlank_trimStart, hn] at hb
        exact Bool.noConfusion hb
    rw [trimStart, List.dropWhile_append, hne]
    rfl

/-- An item leaves the open delimiters as they are, wherever it stands. -/
theorem NestedItem.walk_eq {t : Text} (h : NestedItem t) {outer : Char → Bool}
    (ho : ∀ c, c ≠ ',' → outer c = true) (s : List Char) : walk outer s t = some s := by
  have hw : walk outer ([] ++ s) t = some ([] ++ s) :=
    walk_under s (.inr fun c hc => ho c (by simpa using hc)) h
  simpa using hw

/-- Flat characters open and close nothing. -/
theorem walk_of_flat {outer : Char → Bool} {t u : Text} (h : ∀ c ∈ t, isFlat c = true)
    {s s' : List Char} (hw : walk outer s (t ++ u) = some s') : walk outer s t = some s := by
  induction t generalizing s with
  | nil => rfl
  | cons c t ih =>
    have hc := h c (by simp)
    simp only [isFlat, Bool.and_eq_true, Option.isNone_iff_eq_none] at hc
    obtain ⟨ho, -⟩ | ⟨hn, ho, hs, hw⟩ | ⟨o, rest, -, ho, -⟩ := walk_cases hw
    · simp [hc.1] at ho
    · rw [walk_skips hn ho hs, ih (fun d hd => h d (by simp [hd])) hw]
    · simp [hc.2] at ho

/-- Where a walk ends with nothing open, each delimiter that it starts with is closed in its turn. -/
theorem exists_close {outer : Char → Bool} {o : Char} {p s : List Char} {t : Text}
    (h : walk outer (p ++ o :: s) t = some []) : ∃ inner c after, t = inner ++ c :: after ∧
      opener? c = some o ∧ walk (fun _ => true) p inner = some [] ∧ walk outer s after = some [] := by
  induction t generalizing p with
  | nil => simp [walk] at h
  | cons c t ih =>
    obtain ⟨hc, h⟩ | ⟨hc, ho, -, h⟩ | ⟨o', rest, hc, ho, hs, h⟩ := walk_cases h
    · obtain ⟨inner, d, after, rfl, hd, hw, ha⟩ := ih (p := c :: p) h
      exact ⟨c :: inner, d, after, rfl, hd, by rw [walk_opens hc, hw], ha⟩
    · obtain ⟨inner, d, after, rfl, hd, hw, ha⟩ := ih h
      exact ⟨c :: inner, d, after, rfl, hd, by rw [walk_skips hc ho fun _ => rfl, hw], ha⟩
    · cases p with
      | nil =>
        obtain ⟨rfl, rfl⟩ := List.cons.inj hs
        exact ⟨[], c, t, rfl, ho, rfl, h⟩
      | cons top p =>
        obtain ⟨rfl, rfl⟩ := List.cons.inj hs
        obtain ⟨inner, d, after, rfl, hd, hw, ha⟩ := ih h
        exact ⟨c :: inner, d, after, rfl, hd, by rw [walk_closes hc ho, hw], ha⟩

theorem mem_of_mem_splitCommasFrom {stack : List Char} {t p : Text} (h : p ∈ (splitCommasFrom stack t).1) :
    ∀ c ∈ p, c ∈ t := by
  induction t generalizing stack p with
  | nil =>
    simp only [splitCommasFrom, List.mem_singleton] at h
    simp [h]
  | cons d t ih =>
    rw [splitCommasFrom] at h
    split at h
    · rcases List.mem_cons.1 h with rfl | h
      · simp
      · exact fun c hc => List.mem_cons_of_mem _ (ih h c hc)
    · have hi := @ih (nest stack d).1
      simp only at h
      generalize (splitCommasFrom (nest stack d).1 t).1 = ps at h hi
      cases ps with
      | nil =>
        simp only [pushFirst, List.mem_singleton] at h
        simp [h]
      | cons q qs =>
        rcases List.mem_cons.1 h with rfl | h
        · intro c hc
          rcases List.mem_cons.1 hc with rfl | hc
          · simp
          · exact List.mem_cons_of_mem _ (hi (by simp) c hc)
        · exact fun c hc => List.mem_cons_of_mem _ (hi (by simp [h]) c hc)

/-- The pieces of a nested text are nested, and the first closes what was open before it. -/
theorem splitCommasFrom_items {s : List Char} {t : Text}
    (h : walk (fun _ => true) s t = some []) : ∃ p ps, (splitCommasFrom s t).1 = p :: ps ∧
      walk (· != ',') s p = some [] ∧ ∀ q ∈ ps, NestedItem q := by
  induction t generalizing s with
  | nil => exact ⟨[], [], rfl, h, by simp⟩
  | cons c t ih =>
    have hpush {s' : List Char} {p : Text} {ps : List Text} (hor : c ≠ ',' ∨ s ≠ [])
        (hn : nest s c = (s', [])) (he : (splitCommasFrom s' t).1 = p :: ps) :
        (splitCommasFrom s (c :: t)).1 = (c :: p) :: ps := by
      rw [splitCommasFrom_step hor hn, he, pushFirst]
    obtain ⟨hc, hw⟩ | ⟨hc, ho, -, hw⟩ | ⟨o, rest, hc, ho, rfl, hw⟩ := walk_cases h
    · obtain ⟨p, ps, he, hp, hps⟩ := ih hw
      have hne : c ≠ ',' := by
        rintro rfl
        simp [closer?] at hc
      exact ⟨c :: p, ps, hpush (.inl hne) (by simp [nest, hc]) he, by rw [walk_opens hc, hp], hps⟩
    · obtain ⟨p, ps, he, hp, hps⟩ := ih hw
      by_cases hcomma : c = ',' ∧ s = []
      · obtain ⟨rfl, rfl⟩ := hcomma
        exact ⟨[], p :: ps, by simp [splitCommasFrom, he], rfl, List.forall_mem_cons.2 ⟨hp, hps⟩⟩
      · have hor : c ≠ ',' ∨ s ≠ [] := Decidable.not_and_iff_or_not.1 hcomma
        refine ⟨c :: p, ps, hpush hor (by simp [nest, hc, ho]) he, ?_, hps⟩
        rw [walk_skips hc ho fun hs => by simpa [hs] using hor, hp]
    · obtain ⟨p, ps, he, hp, hps⟩ := ih hw
      exact ⟨c :: p, ps, hpush (.inr (by simp)) (by simp [nest, hc, ho]) he,
        by rw [walk_closes hc ho, hp], hps⟩

theorem nestedItem_splitCommas {t : Text} (h : Nested t) : ∀ p ∈ (splitCommas t).1, NestedItem p := by
  obtain ⟨p, ps, he, hp, hps⟩ := splitCommasFrom_items h
  rw [splitCommas, he]
  exact List.forall_mem_cons.2 ⟨hp, hps⟩

theorem nestedItem_trimEnd {t : Text} (h : NestedItem t) : NestedItem t.trimEnd := by
  obtain ⟨g, ht, hblank⟩ := exists_trimEnd t
  rw [ht, NestedItem, walk_append] at h
  obtain ⟨s, hw, hg⟩ := Option.bind_eq_some_iff.1 h
  have hflat : ∀ c ∈ g, isFlat c = true := fun c hc => isFlat_of_class (by decide) (mem_of_allBlank hblank c hc)
  have hstay := walk_of_flat (u := []) hflat (by rwa [List.append_nil])
  rw [hg] at hstay
  rwa [← Option.some.inj hstay] at hw

theorem nestedItem_trim {t : Text} (h : NestedItem t) : NestedItem t.trim :=
  nestedItem_trimEnd (nestedItem_trimStart h)

theorem splitCommas_join {items : List Text} (hne : items ≠ []) (h : ∀ t ∈ items, NestedItem t) :
    splitCommas (join "," items) = (items, []) := by
  induction items with
  | nil => exact absurd rfl hne
  | cons t items ih =>
    have ht := h t List.mem_cons_self
    cases items with
    | nil =>
      rw [join, List.intercalate_singleton]
      exact splitCommas_item ht
    | cons u items =>
      have hrest := ih (List.cons_ne_nil u items) fun v hv => h v (List.mem_cons_of_mem t hv)
      rw [join, List.intercalate_cons_cons, List.append_assoc]
      refine (splitCommas_cons ht _).trans ?_
      change (t :: (splitCommas (join "," (u :: items))).1, (splitCommas (join "," (u :: items))).2) = _
      rw [hrest]

theorem nested_join {items : List Text} (h : ∀ t ∈ items, NestedItem t) : Nested (join "," items) := by
  induction items with
  | nil => rfl
  | cons t items ih =>
    have ht := (h t List.mem_cons_self).nested
    cases items with
    | nil =>
      rw [join, List.intercalate_singleton]
      exact ht
    | cons u items =>
      have hrest := ih fun v hv => h v (List.mem_cons_of_mem t hv)
      rw [join, List.intercalate_cons_cons]
      exact (ht.append (by decide : Nested ",".toList)).append hrest

/-- How many `up` are open after a text when `depth` of them are open before it; none when a `down`
closes nothing. -/
def depthAfter (up down : Char) : (depth : Nat) → Text → Option Nat
  | depth, [] => some depth
  | depth, c :: t =>
    if c == up then depthAfter up down (depth + 1) t
    else if c == down then
      match depth with
      | 0 => none
      | d + 1 => depthAfter up down d t
    else depthAfter up down depth t

section Balanced
variable {up down : Char} {t u : Text}

theorem depthAfter_append (k : Nat) (t u : Text) :
    depthAfter up down k (t ++ u) = (depthAfter up down k t).bind (depthAfter up down · u) := by
  fun_induction depthAfter up down k t with
  | case1 => rfl
  | case2 k c t hc ih => simpa [depthAfter, hc] using ih
  | case3 c t hu hd => simp [depthAfter, hu, hd]
  | case4 c t hu hd k ih => simpa [depthAfter, hu, hd] using ih
  | case5 k c t hu hd ih => simpa [depthAfter, hu, hd] using ih

theorem depthAfter_free {t : Text} (ht : ∀ c ∈ t, c ≠ up ∧ c ≠ down) (k : Nat) :
    depthAfter up down k t = some k := by
  induction t with
  | nil => rfl
  | cons c t ih =>
    obtain ⟨hu, hd⟩ := ht c (by simp)
    have hi := ih fun d hd => ht d (by simp [hd])
    simpa [depthAfter, hu, hd] using hi

/-- A character opens, or closes what is open, or is neither. -/
theorem depthAfter_cases {c : Char} {n k : Nat} (h : depthAfter up down n (c :: t) = some k) :
    (c = up ∧ depthAfter up down (n + 1) t = some k) ∨
    (∃ m, (c ≠ up ∧ c = down) ∧ n = m + 1 ∧ depthAfter up down m t = some k) ∨
    ((c ≠ up ∧ c ≠ down) ∧ depthAfter up down n t = some k) := by
  by_cases hu : c = up
  · exact .inl ⟨hu, by simpa [depthAfter, hu] using h⟩
  by_cases hd : c = down
  · cases n with
    | zero => simp [depthAfter, hd, hd ▸ hu] at h
    | succ m => exact .inr (.inl ⟨m, ⟨hu, hd⟩, rfl, by simpa [depthAfter, hd, hd ▸ hu] using h⟩)
  · exact .inr (.inr ⟨⟨hu, hd⟩, by simpa [depthAfter, hu, hd] using h⟩)

theorem depthAfter_add {n k : Nat} (h : depthAfter up down n t = some k) (d : Nat) :
    depthAfter up down (n + d) t = some (k + d) := by
  fun_induction depthAfter up down n t with
  | case1 k =>
    cases h
    rfl
  | case2 k c t hc ih => simpa [depthAfter, hc, Nat.add_right_comm k 1 d] using ih h
  | case3 => cases h
  | case4 c t hu hd k ih => simpa [depthAfter, hu, hd, Nat.add_right_comm k 1 d] using ih h
  | case5 k c t hu hd ih => simpa [depthAfter, hu, hd] using ih h

/-- A text that closes one of those open before it does so behind a text that closes the `p` inner ones and no
more. -/
theorem exists_closing {n k : Nat} (p : Nat) (h : depthAfter up down (p + n + 1) t = some k) (hk : k ≤ n) :
    ∃ inner after, t = inner ++ down :: after ∧ depthAfter up down p inner = some 0 ∧
      depthAfter up down n after = some k := by
  induction t generalizing p with
  | nil =>
    cases h
    omega
  | cons c t ih =>
    obtain ⟨rfl, h⟩ | ⟨m, ⟨hu, rfl⟩, hm, h⟩ | ⟨hc, h⟩ := depthAfter_cases h
    · obtain ⟨inner, after, rfl, hi, ha⟩ := ih (p + 1) (by rwa [Nat.add_right_comm p 1 n])
      exact ⟨c :: inner, after, rfl, by simpa [depthAfter] using hi, ha⟩
    · obtain rfl : m = p + n := by omega
      cases p with
      | zero => exact ⟨[], t, rfl, rfl, by rwa [Nat.zero_add] at h⟩
      | succ p =>
        obtain ⟨inner, after, rfl, hi, ha⟩ := ih p (by rwa [Nat.add_right_comm p n 1])
        exact ⟨c :: inner, after, rfl, by simpa [depthAfter, hu] using hi, ha⟩
    · obtain ⟨inner, after, rfl, hi, ha⟩ := ih p h
      exact ⟨c :: inner, after, rfl, by simpa [depthAfter, hc] using hi, ha⟩

/-- A balance is counted on behind a text that closes what it opens. -/
theorem balance_depthAfter {t : Text} {k m : Nat} (h : depthAfter up down k t = some m)
    (d i : Nat) (rest : Text) :
    balance up down (k + d + 1) i (t ++ rest) = balance up down (m + d + 1) (i + t.length) rest := by
  have hlen (c : Char) (t : Text) (i : Nat) : i + (c :: t).length = i + 1 + t.length := by
    rw [List.length_cons]
    omega
  fun_induction depthAfter up down k t generalizing i with
  | case1 k =>
    cases h
    rfl
  | case2 k c t hc ih =>
    rw [hlen, ← ih h (i + 1), List.cons_append, balance.eq_def]
    simp [hc, Nat.add_right_comm k 1 d]
  | case3 => cases h
  | case4 c t hu hd k ih =>
    rw [hlen, ← ih h (i + 1), List.cons_append, balance.eq_def, Nat.add_right_comm k 1 d]
    simp [hu, hd]
  | case5 k c t hu hd ih =>
    rw [hlen, ← ih h (i + 1), List.cons_append, balance.eq_def]
    simp [hu, hd]

/-- Every `up` has its `down`, and nothing else is closed. -/
inductive Balanced (up down : Char) : Text → Prop where
  | nil : Balanced up down []
  | cons {c : Char} {t : Text} (hu : c ≠ up) (hd : c ≠ down) (ht : Balanced up down t) :
    Balanced up down (c :: t)
  | pair {t u : Text} (ht : Balanced up down t) (hu : Balanced up down u) :
    Balanced up down (up :: (t ++ down :: u))

namespace Balanced

theorem append (ht : Balanced up down t) (hu : Balanced up down u) : Balanced up down (t ++ u) := by
  induction ht with
  | nil => exact hu
  | cons hc hd _ ih => exact .cons hc hd ih
  | pair hx _ _ ihy =>
    rw [List.cons_append, List.append_assoc, List.cons_append]
    exact .pair hx ihy

theorem of_forall (h : ∀ c ∈ t, c ≠ up ∧ c ≠ down) : Balanced up down t := by
  induction t with
  | nil => exact .nil
  | cons c t ih =>
    obtain ⟨hu, hd⟩ := h c (by simp)
    exact .cons hu hd (ih fun d hd => h d (by simp [hd]))

theorem reverse (h : Balanced up down t) : Balanced down up t.reverse := by
  induction h with
  | nil => exact .nil
  | cons hu hd _ ih =>
    rw [List.reverse_cons]
    exact ih.append (.cons hd hu .nil)
  | @pair x y _ _ ihx ihy =>
    have htext : (up :: (x ++ down :: y)).reverse = y.reverse ++ down :: (x.reverse ++ up :: []) := by simp
    rw [htext]
    exact ihy.append (.pair ihx .nil)

theorem depthAfter_eq (hne : up ≠ down) (h : Balanced up down t) (k : Nat) : depthAfter up down k t = some k := by
  induction h generalizing k with
  | nil => rfl
  | cons hu hd _ ih => simpa [depthAfter, hu, hd] using ih k
  | pair _ _ iht ihu => simp [depthAfter, depthAfter_append, iht, ihu, hne.symm]

/-- A balanced text is passed over. -/
theorem balance_eq (hne : up ≠ down) (h : Balanced up down t) (d i : Nat) (rest : Text) :
    balance up down (d + 1) i (t ++ rest) = balance up down (d + 1) (i + t.length) rest := by
  have hpass := balance_depthAfter (h.depthAfter_eq hne 0) d i rest
  rwa [Nat.zero_add] at hpass

end Balanced

/-- By the length of the text: a pair and what follows it are shorter. -/
theorem balanced_of_depthAfter (h : depthAfter up down 0 t = some 0) : Balanced up down t := by
  induction hlen : t.length using Nat.strongRecOn generalizing t with
  | ind m ih =>
    subst hlen
    cases t with
    | nil => exact .nil
    | cons c t =>
      obtain ⟨rfl, h⟩ | ⟨m, -, hm, -⟩ | ⟨hc, h⟩ := depthAfter_cases h
      · obtain ⟨inner, after, rfl, hi, ha⟩ := exists_closing (n := 0) 0 h (Nat.le_refl 0)
        have hlen : (inner ++ down :: after).length = inner.length + (after.length + 1) := List.length_append
        rw [List.length_cons, hlen] at ih
        exact .pair (ih inner.length (by omega) hi rfl) (ih after.length (by omega) ha rfl)
      · cases hm
      · exact .cons hc.1 hc.2 (ih t.length (by simp) h rfl)

theorem balance_pair (hne : up ≠ down) (h : Balanced up down t) (rest : Text) :
    balance up down 0 0 (up :: (t ++ down :: rest)) = some (t.length + 1) := by
  rw [balance_up, h.balance_eq hne 0 1, balance_last hne, Nat.add_comm]

theorem balance_cases (hne : up ≠ down) (d i : Nat) (t : Text) :
    balance up down (d + 1) i t = none ∨ ∃ inner after, t = inner ++ down :: after ∧
      depthAfter up down d inner = some 0 ∧ balance up down (d + 1) i t = some (i + inner.length) := by
  induction t generalizing d i with
  | nil => exact .inl rfl
  | cons c t ih =>
    have hstep {d' : Nat} (hb : balance up down (d + 1) i (c :: t) = balance up down (d' + 1) (i + 1) t)
        (hd : ∀ u, depthAfter up down d (c :: u) = depthAfter up down d' u) :
        balance up down (d + 1) i (c :: t) = none ∨ ∃ inner after, c :: t = inner ++ down :: after ∧
          depthAfter up down d inner = some 0 ∧ balance up down (d + 1) i (c :: t) = some (i + inner.length) := by
      rw [hb]
      refine (ih d' (i + 1)).imp_right ?_
      rintro ⟨inner, after, rfl, hi, hb⟩
      exact ⟨c :: inner, after, rfl, by rwa [hd], by rw [hb, List.length_cons, Nat.add_right_comm, Nat.add_assoc]⟩
    by_cases hu : c = up
    · subst hu
      exact hstep (balance_up ..) fun u => by simp [depthAfter]
    by_cases hd : c = down
    · subst hd
      cases d with
      | zero => exact .inr ⟨[], t, rfl, rfl, balance_last hne i t⟩
      | succ d => exact hstep (balance_down hne ..) fun u => by simp [depthAfter, hu]
    · exact hstep (balance_skip ⟨hu, hd⟩ ..) fun u => by simp [depthAfter, hu, hd]

/-- The partner of a delimiter at the start of a text stands behind a balanced part. -/
theorem exists_partner {i j : Nat} (hne : up ≠ down) (h : balance up down 0 j (up :: t) = some i) :
    ∃ inner after, t = inner ++ down :: after ∧ Balanced up down inner ∧ i = j + 1 + inner.length := by
  rw [balance_up] at h
  obtain hnone | ⟨inner, after, ht, hi, hb⟩ := balance_cases hne 0 (j + 1) t
  · cases hnone.symm.trans h
  · exact ⟨inner, after, ht, balanced_of_depthAfter hi, Option.some.inj (h.symm.trans hb)⟩

/-- The partner of a parenthesis, from either side. -/
theorem closing?_balanced (h : Balanced '(' ')' t) (rest : Text) :
    closing? ('(' :: (t ++ ')' :: rest)) = some (t.length + 1) :=
  balance_pair (by decide) h rest

theorem opening?_balanced (h : Balanced '(' ')' t) (before : Text) :
    opening? (before ++ '(' :: (t ++ [')'])) = some before.length := by
  have htext : (before ++ '(' :: (t ++ [')'])).reverse = ')' :: (t.reverse ++ '(' :: before.reverse) := by
    simp
  rw [opening?, htext, balance_pair (by decide) h.reverse]
  simp only [Option.map_some, List.length_append, List.length_cons, List.length_reverse,
    List.length_nil, Option.some.injEq]
  omega

end Balanced

end FixedForm.Text
