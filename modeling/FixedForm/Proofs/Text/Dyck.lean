import FixedForm.Proofs.Text.Parens

/-! Lists between delimiters of three kinds.  No fault is seen exactly in the texts of a grammar, and a text of
the grammar is cut at the commas that stand outside all delimiters. -/
namespace FixedForm.Text

/-- Each delimiter that is opened is closed by its partner, and between the two stands a text of the same
kind. -/
inductive Dyck : Text → Prop where
  | nil : Dyck []
  | flat {c : Char} {t : Text} (hc : isFlat c = true) (ht : Dyck t) : Dyck (c :: t)
  | pair {o c : Char} {t u : Text} (hc : closer? o = some c) (ht : Dyck t) (hu : Dyck u) :
    Dyck (o :: (t ++ c :: u))

section Partner
variable {o c : Char}

theorem opener?_of_closer? (h : closer? o = some c) : opener? c = some o ∧ (closer? c).isSome = false := by
  rcases closer?_isSome (Option.isSome_of_eq_some h) with rfl | rfl | rfl <;>
    cases h <;> decide

theorem closer?_of_opener? (h : opener? c = some o) : closer? o = some c := by
  rcases opener?_eq_some h with ⟨rfl, rfl⟩ | ⟨rfl, rfl⟩ | ⟨rfl, rfl⟩ <;> rfl

theorem isFlat_iff : isFlat c = true ↔ (closer? c).isSome = false ∧ opener? c = none := by
  simp [isFlat]

end Partner

section Grammar
variable {t : Text}

theorem Dyck.nested (h : Dyck t) : Nested t := by
  induction h with
  | nil => exact .nil
  | flat hc _ ih =>
    obtain ⟨hc, ho⟩ := isFlat_iff.1 hc
    rw [Nested, walk_skips hc ho fun _ => rfl]
    exact ih
  | pair hc _ _ iht ihu =>
    obtain ⟨ho, hno⟩ := opener?_of_closer? hc
    rw [Nested, walk_opens (by rw [hc]; rfl), walk_append, iht.walk_eq (List.cons_ne_nil _ _), Option.bind_some,
      walk_closes hno ho]
    exact ihu

/-- By the length of the text: what a delimiter encloses and what follows its partner are shorter. -/
theorem dyck_of_nested (h : Nested t) : Dyck t := by
  induction hlen : t.length using Nat.strongRecOn generalizing t with
  | ind m ih =>
    subst hlen
    cases t with
    | nil => exact .nil
    | cons c t =>
      obtain ⟨-, hw⟩ | ⟨hc, ho, -, hw⟩ | ⟨o, rest, -, -, hs, -⟩ := walk_cases h
      · obtain ⟨inner, d, after, rfl, hd, hi, ha⟩ := exists_close (p := []) hw
        have hlen : (inner ++ d :: after).length = inner.length + (after.length + 1) := List.length_append
        rw [List.length_cons, hlen] at ih
        exact .pair (closer?_of_opener? hd) (ih inner.length (by omega) hi rfl) (ih after.length (by omega) ha rfl)
      · exact .flat (isFlat_iff.2 ⟨hc, ho⟩) (ih t.length (by simp) hw rfl)
      · cases hs

theorem dyck_iff_nested : Dyck t ↔ Nested t := ⟨Dyck.nested, dyck_of_nested⟩

instance (t : Text) : Decidable (Dyck t) := decidable_of_iff _ dyck_iff_nested.symm

end Grammar

section Faults
variable {s : List Char} {c : Char} {t : Text}

/-- A character that shows no fault is a step of the walk. -/
theorem walkStep_of_nest (h : (nest s c).2 = []) : walkStep (fun _ => true) s c = some (nest s c).1 := by
  unfold nest at h ⊢
  cases hc : (closer? c).isSome with
  | true => rw [walkStep_opens hc, if_pos rfl]
  | false =>
    cases ho : opener? c with
    | none => cases s <;> simp [walkStep, hc, ho]
    | some o =>
      cases s with
      | nil => simp [hc, ho] at h
      | cons top s =>
        by_cases he : top = o
        · simp [walkStep, hc, ho, he]
        · simp [hc, ho, he] at h

theorem splitCommasFrom_faults_iff : (splitCommasFrom s t).2 = [] ↔ walk (fun _ => true) s t = some [] := by
  refine ⟨fun h => ?_, splitCommasFrom_faults⟩
  induction t generalizing s with
  | nil =>
    cases s with
    | nil => rfl
    | cons top s => cases h
  | cons c t ih =>
    rw [splitCommasFrom] at h
    split at h
    · next hcomma =>
      obtain ⟨hc, hs⟩ := Bool.and_eq_true_iff.1 hcomma
      obtain rfl := eq_of_beq hc
      obtain rfl := List.isEmpty_iff.1 hs
      rw [walk_skips (by decide) (by decide) fun _ => rfl]
      exact ih h
    · obtain ⟨hseen, hfaults⟩ := List.append_eq_nil_iff.1 h
      rw [walk_cons, walkStep_of_nest hseen]
      exact ih hfaults

end Faults

/-! ### Pieces and cuts -/

section Pieces
variable {ps : List Text} {c : Char} {i : Nat}

theorem join_cons (p : Text) (h : ps ≠ []) : join "," (p :: ps) = p ++ ',' :: join "," ps := by
  obtain ⟨q, ps, rfl⟩ := List.exists_cons_of_ne_nil h
  simp [join, List.intercalate_cons_cons]

theorem join_pushFirst (c : Char) (ps : List Text) (h : ps ≠ []) :
    join "," (pushFirst c ps) = c :: join "," ps := by
  obtain ⟨p, ps, rfl⟩ := List.exists_cons_of_ne_nil h
  cases ps with
  | nil => simp [pushFirst, join]
  | cons q ps =>
    rw [pushFirst, join_cons _ (List.cons_ne_nil q ps), join_cons _ (List.cons_ne_nil q ps)]
    rfl

theorem join_splitCommasFrom (s : List Char) (t : Text) : join "," (splitCommasFrom s t).1 = t := by
  induction t generalizing s with
  | nil => simp [splitCommasFrom, join]
  | cons c t ih =>
    rw [splitCommasFrom]
    split
    · next hcomma =>
      obtain rfl := eq_of_beq (Bool.and_eq_true_iff.1 hcomma).1
      rw [join_cons [] (splitCommasFrom_ne_nil [] t), ih]
      rfl
    · rw [join_pushFirst c _ (splitCommasFrom_ne_nil _ t), ih]

/-- The pieces, put together with commas, are cut at place `i`. -/
def IsCut (ps : List Text) (i : Nat) : Prop :=
  ∃ before after, ps = before ++ after ∧ before ≠ [] ∧ after ≠ [] ∧ i = (join "," before).length

theorem isCut_cons {p : Text} : IsCut (p :: ps) i ↔
    ∃ before after, ps = before ++ after ∧ after ≠ [] ∧ i = (join "," (p :: before)).length := by
  constructor
  · rintro ⟨before, after, he, hb, ha, rfl⟩
    obtain ⟨b, before, rfl⟩ := List.exists_cons_of_ne_nil hb
    obtain ⟨rfl, hps⟩ := List.cons.inj he
    exact ⟨before, after, hps, ha, rfl⟩
  · rintro ⟨before, after, rfl, ha, rfl⟩
    exact ⟨p :: before, after, rfl, List.cons_ne_nil p before, ha, rfl⟩

theorem not_isCut_single (p : Text) (i : Nat) : ¬ IsCut [p] i := by
  rw [isCut_cons]
  rintro ⟨before, after, he, ha, -⟩
  exact ha (List.append_eq_nil_iff.1 he.symm).2

theorem isCut_pushFirst (h : ps ≠ []) : IsCut (pushFirst c ps) i ↔ ∃ j, i = j + 1 ∧ IsCut ps j := by
  obtain ⟨p, ps, rfl⟩ := List.exists_cons_of_ne_nil h
  have hlength (before : List Text) :
      (join "," ((c :: p) :: before)).length = (join "," (p :: before)).length + 1 :=
    congrArg List.length (join_pushFirst c (p :: before) (List.cons_ne_nil p before))
  simp only [pushFirst, isCut_cons, hlength]
  constructor
  · rintro ⟨before, after, hps, ha, rfl⟩
    exact ⟨_, rfl, before, after, hps, ha, rfl⟩
  · rintro ⟨j, rfl, before, after, hps, ha, rfl⟩
    exact ⟨before, after, hps, ha, rfl⟩

theorem isCut_comma (h : ps ≠ []) : IsCut ([] :: ps) i ↔ i = 0 ∨ ∃ j, i = j + 1 ∧ IsCut ps j := by
  rw [isCut_cons]
  constructor
  · rintro ⟨before, after, hps, ha, rfl⟩
    cases before with
    | nil => exact .inl rfl
    | cons q before =>
      have hq := List.cons_ne_nil q before
      refine .inr ⟨_, ?_, q :: before, after, hps, hq, ha, rfl⟩
      rw [join_cons [] hq, List.nil_append, List.length_cons]
  · rintro (rfl | ⟨j, rfl, before, after, rfl, hb, ha, rfl⟩)
    · exact ⟨[], ps, rfl, h, rfl⟩
    · refine ⟨before, after, rfl, ha, ?_⟩
      rw [join_cons [] hb, List.nil_append, List.length_cons]

end Pieces

/-- Before place `i` as many delimiters are opened as are closed, when `depth` are open at the start. -/
def IsOuter (depth : Nat) (t : Text) (i : Nat) : Prop :=
  depth + (t.take i).countP (fun c => (closer? c).isSome) = (t.take i).countP fun c => (opener? c).isSome

instance (depth : Nat) (t : Text) (i : Nat) : Decidable (IsOuter depth t i) := inferInstanceAs (Decidable (_ = _))

section Outer
variable {i : Nat} {s s' : List Char} {c : Char} {t : Text}

theorem isOuter_step (h : walkStep (fun _ => true) s c = some s') :
    IsOuter s.length (c :: t) (i + 1) ↔ IsOuter s'.length t i := by
  simp only [IsOuter, List.take_succ_cons, List.countP_cons]
  obtain ⟨hc, rfl⟩ | ⟨hc, ho, -, rfl⟩ | ⟨o, hc, ho, rfl⟩ := walkStep_cases h
  · have ho : (opener? c).isSome = false := by
      rcases closer?_isSome hc with rfl | rfl | rfl <;> rfl
    simp only [hc, ho, List.length_cons, if_true, Bool.false_eq_true, if_false]
    omega
  · simp [hc, ho]
  · simp only [hc, ho, List.length_cons, Option.isSome_some, if_true, Bool.false_eq_true, if_false]
    omega

theorem nest_of_walkStep (h : walkStep (fun _ => true) s c = some s') : nest s c = (s', []) := by
  obtain ⟨hc, rfl⟩ | ⟨hc, ho, -, rfl⟩ | ⟨o, hc, ho, rfl⟩ := walkStep_cases h
  · simp [nest, hc]
  · simp [nest, hc, ho]
  · simp [nest, hc, ho]

/-- The pieces of a nested text are cut at the commas where nothing is open. -/
theorem isCut_splitCommasFrom (h : walk (fun _ => true) s t = some []) :
    IsCut (splitCommasFrom s t).1 i ↔ t[i]? = some ',' ∧ IsOuter s.length t i := by
  induction t generalizing s i with
  | nil => simp [splitCommasFrom, not_isCut_single]
  | cons c t ih =>
    rw [walk_cons] at h
    obtain ⟨s', hstep, hw⟩ := Option.bind_eq_some_iff.1 h
    have hne := splitCommasFrom_ne_nil s' t
    by_cases hcomma : c = ',' ∧ s = []
    · obtain ⟨rfl, rfl⟩ := hcomma
      obtain rfl : [] = s' := Option.some.inj hstep
      have hsplit : (splitCommasFrom [] (',' :: t)).1 = [] :: (splitCommasFrom [] t).1 := rfl
      rw [hsplit, isCut_comma hne]
      cases i with
      | zero => simp [IsOuter]
      | succ i =>
        rw [isOuter_step hstep]
        simp [ih hw]
    · rw [splitCommasFrom_step (Decidable.not_and_iff_or_not.1 hcomma) (nest_of_walkStep hstep),
        isCut_pushFirst hne]
      cases i with
      | zero => simpa [IsOuter] using hcomma
      | succ i =>
        rw [isOuter_step hstep]
        simp [ih hw]

end Outer

/-- The pieces with their commas are the text; a fault is seen exactly when the delimiters do not nest; and
where they nest, the cuts are the commas outside all delimiters and the pieces nest too. -/
theorem splitCommas_exact (t : Text) : join "," (splitCommas t).1 = t ∧ ((splitCommas t).2 = [] ↔ Dyck t) ∧
    (Dyck t → (∀ i, IsCut (splitCommas t).1 i ↔ t[i]? = some ',' ∧ IsOuter 0 t i) ∧
      ∀ p ∈ (splitCommas t).1, Dyck p) := by
  refine ⟨join_splitCommasFrom [] t, splitCommasFrom_faults_iff.trans dyck_iff_nested.symm, fun h =>
    ⟨fun i => ?_, ?_⟩⟩
  · exact isCut_splitCommasFrom h.nested
  · exact fun p hp => dyck_of_nested (nestedItem_splitCommas h.nested p hp).nested

/-- Three kinds of delimiters, one inside the other. -/
theorem splitCommas_exact_sample : Dyck "f(a,[b,c]),\x7bd\x7d," ∧
    IsCut (splitCommas "f(a,[b,c]),\x7bd\x7d,").1 10 ∧ ¬ IsCut (splitCommas "f(a,[b,c]),\x7bd\x7d,").1 6 := by
  have hdyck : Dyck "f(a,[b,c]),\x7bd\x7d," := by decide
  obtain ⟨hcut, -⟩ := (splitCommas_exact "f(a,[b,c]),\x7bd\x7d,").2.2 hdyck
  rw [hcut, hcut]
  decide

end FixedForm.Text
