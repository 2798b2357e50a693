import FixedForm.Proofs.Text.Classes
import FixedForm.Reference.Bracket
import Mathlib.Data.List.TakeDrop
import Mathlib.Data.Option.Basic
import Mathlib.Logic.Relation

/-! The simplifier as a string rewriting system.  Every pass of every rule is a sequence of single
replacements, each in the text as it stands, so a property of brackets is shown on one replacement. -/
namespace FixedForm.Simplify
open Text

/-- The sum or the difference of two numbers. -/
def combine (op : Char) (a b : Text) : Count :=
  if op = '+' then (Count.ofDigits a).add (.ofDigits b) else (Count.ofDigits a).sub (.ofDigits b)

/-- Where `old` follows `before`, nearest character first, it may become `new`. -/
inductive Rewrite (before : Text) : (old new : Text) → Prop where
  | word {g w g' : Text} (hgroup : isGroup before = true) (hg : g.allBlank = true) (hg' : g'.allBlank = true)
      (hne : w ≠ []) (hw : ∀ c ∈ w, isWord c = true) : Rewrite before ('(' :: (g ++ (w ++ (g' ++ [')'])))) w
  | groupSum {a b : Text} {op : Char} (hgroup : isGroup before = true) (hop : op = '+' ∨ op = '-')
      (ha : a.isDigits = true) (hb : b.isDigits = true) :
      Rewrite before ('(' :: (a ++ op :: (b ++ [')'])))
        (if (combine op a b).isNegative then "(" ++ (combine op a b).render ++ ")" else (combine op a b).render)
  | indexSum {a b : Text} {op : Char} (hop : op = '+' ∨ op = '-') (ha : a.isDigits = true)
      (hb : b.isDigits = true) :
      Rewrite before ('[' :: (a ++ op :: (b ++ [']']))) ("[" ++ (combine op a b).render ++ "]")
  | undo {o op op' c : Char} {x : Text} (ho : o = '[' ∨ o = '(') (hc : c = ']' ∨ c = ')')
      (hop : (op = '+' ∧ op' = '-') ∨ (op = '-' ∧ op' = '+')) (hne : x ≠ [])
      (hx : ∀ d ∈ x, d ≠ '(' ∧ d ≠ ')') :
      Rewrite before (o :: '(' :: (x ++ [op, '1', ')', op', '1', c])) (o :: (x ++ [c]))
  | collect {op : Char} {x a b : Text} (hop : op = '+' ∨ op = '-') (hne : x ≠ [])
      (hx : ∀ d ∈ x, d ≠ '(' ∧ d ≠ ')') (ha : a ≠ [] ∧ ∀ d ∈ a, isWord d = true)
      (hb : b ≠ [] ∧ ∀ d ∈ b, isWord d = true) :
      Rewrite before ('(' :: '(' :: (x ++ op :: (a ++ ')' :: op :: (b ++ [')']))))
        ('(' :: '(' :: (x ++ ')' :: op :: '(' :: '(' :: (a ++ ')' :: '+' :: '(' :: (b ++ [')', ')', ')']))))

/-! ### The parts of a match -/

section Parts
variable {t rest x : Text}

theorem eq_of_sum? {v : Count} (h : sum? t = some (v, rest)) :
    ∃ (a b : Text) (op : Char), (op = '+' ∨ op = '-') ∧ a.isDigits = true ∧ b.isDigits = true ∧
      t = a ++ op :: (b ++ rest) ∧ v = combine op a b := by
  obtain ⟨⟨a, u⟩, ha, hrest⟩ := Option.bind_eq_some_iff.1 h
  obtain ⟨rfl, had⟩ := eq_of_digits? ha
  dsimp only at hrest
  split at hrest
  · obtain ⟨⟨b, w⟩, hb, hv⟩ := Option.map_eq_some_iff.1 hrest
    obtain ⟨rfl, hbd⟩ := eq_of_digits? hb
    obtain ⟨rfl, rfl⟩ := Prod.mk.inj hv
    exact ⟨a, b, '+', .inl rfl, had, hbd, rfl, (if_pos rfl).symm⟩
  · obtain ⟨⟨b, w⟩, hb, hv⟩ := Option.map_eq_some_iff.1 hrest
    obtain ⟨rfl, hbd⟩ := eq_of_digits? hb
    obtain ⟨rfl, rfl⟩ := Prod.mk.inj hv
    exact ⟨a, b, '-', .inr rfl, had, hbd, rfl, (if_neg (by decide)).symm⟩
  · cases hrest

theorem eq_of_flatGroup? (h : flatGroup? t = some (x, rest)) :
    t = x ++ ')' :: rest ∧ ∀ c ∈ x, c ≠ '(' ∧ c ≠ ')' := by
  rw [flatGroup?, List.span_eq_takeWhile_dropWhile] at h
  split at h
  · next inner rest' hspan =>
    cases h
    obtain ⟨hinner, hrest⟩ := Prod.mk.inj hspan
    refine ⟨by rw [← hinner, ← hrest, List.takeWhile_append_dropWhile], ?_⟩
    intro c hc
    have hall := List.all_eq_true.1 List.all_takeWhile c (hinner ▸ hc)
    simpa using hall
  · cases h

theorem eq_of_beforeTail? {tail : Text} (h : beforeTail? tail t = some x) : t = x ++ tail ∧ x ≠ [] := by
  rw [beforeTail?] at h
  split at h
  · next c rest hafter =>
    cases h
    have ht := congrArg List.reverse (eq_of_after? hafter)
    exact ⟨by simpa using ht, by simp⟩
  · cases h

/-- Blanks in front of a text. -/
theorem exists_blanks (t : Text) : ∃ g : Text, g.allBlank = true ∧ t = g ++ t.trimStart :=
  ⟨t.takeWhile isBlank, allBlank_takeWhile, List.takeWhile_append_dropWhile.symm⟩

end Parts

/-! ### What each rule does -/

/-- The rule replaces as `Rewrite` says. -/
def Rewrites (rule : Rule) : Prop := ∀ before t new left, rule before t = some (new, left) →
  ∃ old, t = old ++ left ∧ Rewrite before old new

theorem rewrites_word : Rewrites word := by
  intro before t new left h
  simp only [word, Option.bind_eq_bind, Option.bind_eq_some_iff, Option.guard_eq_some',
    Option.some.injEq, Prod.mk.injEq] at h
  obtain ⟨-, hb, u, hu, ⟨w, v⟩, hw, z, hz, rfl, rfl⟩ := h
  obtain ⟨htrim, hne, hword⟩ := eq_of_word? hw
  obtain ⟨g, hg, hu'⟩ := exists_blanks u
  obtain ⟨g', hg', hv⟩ := exists_blanks v
  refine ⟨'(' :: (g ++ (w ++ (g' ++ [')']))), ?_, .word hb hg hg' hne hword⟩
  rw [eq_of_after? hu, hu', htrim, hv, eq_of_after? hz]
  simp

theorem rewrites_groupSum : Rewrites groupSum := by
  intro before t new left h
  simp only [groupSum, Option.bind_eq_bind, Option.bind_eq_some_iff, Option.guard_eq_some',
    Option.some.injEq, Prod.mk.injEq] at h
  obtain ⟨-, hb, u, hu, ⟨v, w⟩, hsum, z, hz, rfl, rfl⟩ := h
  obtain ⟨a, b, op, hop, had, hbd, rfl, rfl⟩ := eq_of_sum? hsum
  obtain rfl := eq_of_after? hz
  obtain rfl := eq_of_after? hu
  exact ⟨'(' :: (a ++ op :: (b ++ [')'])), by simp, .groupSum hb hop had hbd⟩

theorem rewrites_indexSum : Rewrites indexSum := by
  intro before t new left h
  simp only [indexSum, Option.bind_eq_bind, Option.bind_eq_some_iff, Option.some.injEq, Prod.mk.injEq] at h
  obtain ⟨u, hu, ⟨v, w⟩, hsum, z, hz, rfl, rfl⟩ := h
  obtain ⟨a, b, op, hop, had, hbd, rfl, rfl⟩ := eq_of_sum? hsum
  obtain rfl := eq_of_after? hz
  obtain rfl := eq_of_after? hu
  exact ⟨'[' :: (a ++ op :: (b ++ [']'])), by simp, .indexSum hop had hbd⟩

theorem rewrites_undo {op op' : Char} (hop : (op = '+' ∧ op' = '-') ∨ (op = '-' ∧ op' = '+')) :
    Rewrites (undo [op, '1'] [op', '1']) := by
  intro before t new left h
  rw [undo.eq_def] at h
  split at h
  · next o t =>
    simp only [Option.bind_eq_bind, Option.bind_eq_some_iff, Option.guard_eq_some'] at h
    obtain ⟨-, ho, ⟨group, u⟩, hgroup, x, hx, v, hv, hlast⟩ := h
    split at hlast
    · cases hlast
    · next c w =>
      split at hlast
      · next hc =>
        cases hlast
        obtain ⟨rfl, hflat⟩ := eq_of_flatGroup? hgroup
        obtain ⟨rfl, hne⟩ := eq_of_beforeTail? hx
        obtain rfl := eq_of_after? hv
        refine ⟨o :: '(' :: (x ++ [op, '1', ')', op', '1', c]), by simp, ?_⟩
        exact .undo (by simpa using ho) (by simpa using hc) hop hne fun d hd => hflat d (by simp [hd])
      · cases hlast
  · cases h

theorem rewrites_collect {op : Char} (hop : op = '+' ∨ op = '-') : Rewrites (collect op) := by
  intro before t new left h
  simp only [collect, Option.bind_eq_bind, Option.bind_eq_some_iff, Option.guard_eq_some',
    Option.some.injEq, Prod.mk.injEq] at h
  obtain ⟨u, hu, ⟨group, v⟩, hgroup, -, ha, x, hx, w, hw, ⟨b, y⟩, hb, z, hz, rfl, rfl⟩ := h
  obtain ⟨rfl, hflat⟩ := eq_of_flatGroup? hgroup
  obtain ⟨hlead, hne⟩ := eq_of_beforeTail? hx
  obtain ⟨rfl, hbword⟩ := eq_of_word? hb
  obtain rfl := eq_of_after? hz
  obtain rfl := eq_of_after? hw
  obtain rfl := eq_of_after? hu
  let a := (Text.spanEnd isWord group).2
  have hgroup : group = x ++ op :: a := by
    have hspan := spanEnd_append isWord group
    rw [hlead] at hspan
    simpa using hspan.symm
  have hword : a ≠ [] ∧ ∀ c ∈ a, isWord c = true := by
    refine ⟨by simpa using ha, fun c hc => ?_⟩
    exact List.all_eq_true.1 List.all_takeWhile c (List.mem_reverse.1 hc)
  refine ⟨'(' :: '(' :: (x ++ op :: (a ++ ')' :: op :: (b ++ [')']))), ?_, ?_⟩
  · nth_rewrite 1 [hgroup]
    simp
  · have hr : Rewrite before _ _ :=
      .collect hop hne (fun c hc => hflat c (by rw [hgroup]; simp [hc])) hword hbword
    simpa using hr

theorem rewrites_rules : ∀ rule ∈ rules, Rewrites rule := by
  intro rule h
  simp only [rules, List.mem_cons, List.not_mem_nil, or_false] at h
  rcases h with rfl | rfl | rfl | rfl | rfl | rfl | rfl
  · exact rewrites_word
  · exact rewrites_groupSum
  · exact rewrites_indexSum
  · exact rewrites_undo (.inl ⟨rfl, rfl⟩)
  · exact rewrites_undo (.inr ⟨rfl, rfl⟩)
  · exact rewrites_collect (.inr rfl)
  · exact rewrites_collect (.inl rfl)

/-! ### Passes over a text -/

/-- One replacement somewhere in a text. -/
inductive Move : Text → Text → Prop where
  | intro (lead rest : Text) {old new : Text} (h : Rewrite lead.reverse old new) :
      Move (lead ++ (old ++ rest)) (lead ++ (new ++ rest))

/-- Any number of replacements, one after the other. -/
abbrev Reaches : Text → Text → Prop := Relation.ReflTransGen Move

/-- Behind a match the rest is replaced first: a match is read in the text that stood before. -/
theorem reaches_substituteFrom {rule : Rule} (hrule : Rewrites rule) (before t : Text) :
    Reaches (before.reverse ++ t) (before.reverse ++ substituteFrom rule before t) := by
  fun_induction substituteFrom rule before t with
  | case1 => exact .refl
  | case2 before c rest _ ih => simpa using ih
  | case3 before c rest new left hmatch _ seen ih =>
    obtain ⟨old, hold, hrewrite⟩ := hrule before (c :: rest) new left hmatch
    have hseen : seen = old := by simp [seen, hold]
    rw [hseen, List.reverse_append, List.reverse_reverse, List.append_assoc] at ih
    rw [hold]
    refine Relation.ReflTransGen.tail (b := before.reverse ++ (old ++ substituteFrom rule (old.reverse ++ before) left))
      (by simpa using ih) ?_
    rw [hseen]
    exact .intro before.reverse _ (by rwa [List.reverse_reverse])
  | case4 before c rest new left _ _ ih => simpa using ih

theorem reaches_substituteAll {rules : List Rule} (hrules : ∀ rule ∈ rules, Rewrites rule) (t : Text) :
    Reaches t (t.substituteAll rules) := by
  induction rules generalizing t with
  | nil => exact .refl
  | cons rule rules ih =>
    have hfirst : Reaches t (t.substitute rule) := reaches_substituteFrom (hrules rule (by simp)) [] t
    exact hfirst.trans (ih (fun r hr => hrules r (by simp [hr])) _)

theorem reaches_iterate (passes : Nat) (t : Text) : Reaches t (iterate passes t) := by
  induction passes generalizing t with
  | zero => exact .refl
  | succ passes ih =>
    rw [iterate]
    split
    · exact .refl
    · exact (reaches_substituteAll rewrites_rules t).trans (ih _)

/-- The simplifier replaces by its rules and does nothing else. -/
theorem reaches_simplifySubscript (t : Text) : Reaches t (simplifySubscript t) := reaches_iterate 10 t

end FixedForm.Simplify
