import FixedForm.Proofs.Spelling.Power

/-! A statement without quotes has no capitals once it is spelled, so it is none of the labels of the
output. -/
namespace FixedForm.Spelling
open Text

def hasQuote (t : Text) : Bool := t.any isQuote

def hasCapital (t : Text) : Bool := t.any fun c => isCapital c.toNat

theorem hasQuote_append (t u : Text) : hasQuote (t ++ u) = (hasQuote t || hasQuote u) :=
  List.any_append

theorem hasCapital_append (t u : Text) : hasCapital (t ++ u) = (hasCapital t || hasCapital u) :=
  List.any_append

theorem hasCapital_of_digits {t : Text} (h : ∀ c ∈ t, c.isDigit = true) : hasCapital t = false := by
  rw [hasCapital, List.any_eq_false]
  intro c hc
  have hr := isDigit_iff.1 (h c hc)
  simp only [isCapital, Bool.and_eq_true, decide_eq_true_eq]
  omega

/-- Between `t` and its end `u` stand no quotes. -/
def Passes (t u : Text) : Prop := ∃ seen, t = seen ++ u ∧ hasQuote seen = false

namespace Passes
variable {t u v : Text}

theorem trans (h : Passes t u) (h' : Passes u v) : Passes t v := by
  obtain ⟨x, rfl, hx⟩ := h
  obtain ⟨y, rfl, hy⟩ := h'
  exact ⟨x ++ y, by simp, by rw [hasQuote_append, hx, hy]; rfl⟩

theorem after? {lead : Text} (hl : hasQuote lead = false) (h : Text.after? lead t = some u) :
    Passes t u :=
  ⟨lead, eq_of_after? h, hl⟩

theorem afterFold? {lead : Text} (hl : hasQuote lead = false) (h : Text.afterFold? lead t = some u) :
    Passes t u := by
  induction lead generalizing t with
  | nil => exact ⟨[], by simpa [Text.afterFold?] using h, rfl⟩
  | cons a lead ih =>
    obtain ⟨ha, hl⟩ : isQuote a = false ∧ hasQuote lead = false := by simpa [hasQuote] using hl
    cases t with
    | nil => cases h
    | cons c t =>
      rw [Text.afterFold?] at h
      split at h
      · next hc =>
        obtain ⟨seen, rfl, hs⟩ := ih hl h
        refine ⟨c :: seen, rfl, ?_⟩
        have hq : isQuote c = false := by
          cases hq : isQuote c with
          | false => rfl
          | true =>
            rw [isQuote, Bool.or_eq_true, beq_iff_eq, beq_iff_eq] at hq
            rcases hq with rfl | rfl <;> exact absurd ha (by rw [← eq_of_beq hc]; decide)
        simpa [hasQuote, hq] using hs
      · cases h

theorem of_blanks {g : Text} (hg : g.allBlank = true) : Passes (g ++ u) u :=
  ⟨g, rfl, List.any_eq_false.2 fun c hc => by
    simp [InField.not_quote (.inl (mem_of_allBlank hg c hc))]⟩

theorem trimStart (t : Text) : Passes t t.trimStart := by
  have h : Passes (t.takeWhile isBlank ++ t.trimStart) t.trimStart := of_blanks List.all_takeWhile
  rwa [Text.trimStart, List.takeWhile_append_dropWhile] at h

theorem blanks? (h : Text.blanks? t = some u) : Passes t u := by
  obtain ⟨g, rfl, hg, -⟩ := eq_of_blanks? h
  exact of_blanks hg

theorem digits? {d : Text} (h : Text.digits? t = some (d, u)) : Passes t u := by
  have hd := digits?_isDigit h
  rw [Text.digits?] at h
  split at h
  · cases h
  · cases h
    refine ⟨_, List.takeWhile_append_dropWhile.symm, List.any_eq_false.2 fun c hc => ?_⟩
    simp [InField.not_quote (.inr (hd c hc))]

end Passes

/-- What a rule matches holds no quotes, and what it gives holds no capitals. -/
structure Clean (rule : Rule) : Prop where
  passes : ∀ {before t new left}, rule before t = some (new, left) → Passes t left
  small : ∀ {before t new left}, rule before t = some (new, left) → hasCapital new = false

theorem clean_twoWords {first second new : Text} (h₁ : hasQuote first = false)
    (h₂ : hasQuote second = false) (hn : hasCapital new = false) :
    Clean (twoWords first second new) := by
  constructor <;> intro before t new' left h <;>
    simp only [twoWords, Option.bind_eq_bind, Option.bind_eq_some_iff] at h <;>
    obtain ⟨-, -, t₁, ht₁, t₂, ht₂, t₃, ht₃, -, -, h⟩ := h <;>
    cases h
  · exact (Passes.afterFold? h₁ ht₁).trans ((Passes.blanks? ht₂).trans (Passes.afterFold? h₂ ht₃))
  · exact hn

theorem clean_starred {type size new : Text} (h₁ : hasQuote type = false) (h₂ : hasQuote size = false)
    (hn : hasCapital new = false) : Clean (starred type size new) := by
  constructor <;> intro before t new' left h <;>
    simp only [starred, Option.bind_eq_bind, Option.bind_eq_some_iff] at h <;>
    obtain ⟨-, -, t₁, ht₁, t₂, ht₂, t₃, ht₃, -, -, h⟩ := h <;>
    cases h
  · exact (Passes.afterFold? h₁ ht₁).trans ((Passes.trimStart t₁).trans ((Passes.after? (by decide) ht₂).trans
      ((Passes.trimStart t₂).trans (Passes.after? h₂ ht₃))))
  · exact hn

theorem clean_dotted {name new : Text} (h : hasQuote name = false) (hn : hasCapital new = false) :
    Clean (dotted name new) := by
  have hq : hasQuote ("." ++ name ++ ".") = false := by
    rw [hasQuote_append, hasQuote_append, h]
    rfl
  constructor <;> intro before t new' left h <;>
    obtain ⟨rest, hr, h⟩ := Option.map_eq_some_iff.1 h <;>
    cases h
  · exact Passes.afterFold? hq hr
  · exact hn

theorem mantissa?_passes {t m u : Text} (h : mantissa? t = some (m, u)) :
    Passes t u ∧ hasCapital m = false := by
  rw [mantissa?.eq_def] at h
  split at h
  · next whole rest hd =>
    cases h
    have hfraction : ∀ c ∈ rest.takeWhile Char.isDigit, c.isDigit = true :=
      List.all_eq_true.1 List.all_takeWhile
    refine ⟨(Passes.digits? hd).trans ⟨'.' :: rest.takeWhile Char.isDigit, ?_, ?_⟩, ?_⟩
    · rw [List.cons_append, List.takeWhile_append_dropWhile]
    · refine List.any_eq_false.2 fun c hc => ?_
      rcases List.mem_cons.1 hc with rfl | hc
      · decide
      · simp [InField.not_quote (.inr (hfraction c hc))]
    · rw [hasCapital_append, hasCapital_of_digits (digits?_isDigit hd), Bool.false_or,
        ← List.singleton_append, hasCapital_append, hasCapital_of_digits hfraction]
      rfl
  · next hd =>
    cases h
    exact ⟨Passes.digits? hd, hasCapital_of_digits (digits?_isDigit hd)⟩
  · split at h
    · next rest _ =>
      obtain ⟨⟨digits, u'⟩, hd, h⟩ := Option.map_eq_some_iff.1 h
      cases h
      refine ⟨Passes.trans ⟨['.'], rfl, rfl⟩ (Passes.digits? hd), ?_⟩
      rw [← List.singleton_append, hasCapital_append, hasCapital_of_digits (digits?_isDigit hd)]
      rfl
    · cases h

theorem sign_passes (t : Text) :
    Passes t (Power.sign t).2 ∧ hasCapital (Power.sign t).1 = false := by
  rw [Power.sign.eq_def]
  split
  · exact ⟨⟨['-'], rfl, rfl⟩, rfl⟩
  · exact ⟨⟨['+'], rfl, rfl⟩, rfl⟩
  · exact ⟨⟨[], rfl, rfl⟩, rfl⟩

theorem clean_doubleExponent : Clean doubleExponent := by
  have hrule {before t new left : Text} (h : doubleExponent before t = some (new, left)) :
      Passes t left ∧ hasCapital new = false := by
    simp only [doubleExponent, Option.bind_eq_bind, Option.bind_eq_some_iff] at h
    obtain ⟨-, -, ⟨m, t₁⟩, hm, t₂, ht₂, ⟨e, t₃⟩, he, -, -, h⟩ := h
    cases h
    obtain ⟨hp, hc⟩ := mantissa?_passes hm
    obtain ⟨hp', hc'⟩ := sign_passes t₂
    refine ⟨hp.trans ((Passes.afterFold? (by decide) ht₂).trans (hp'.trans (Passes.digits? he))), ?_⟩
    rw [hasCapital_append, hasCapital_append, hasCapital_append, hc, hc',
      hasCapital_of_digits (digits?_isDigit he)]
    rfl
  exact ⟨fun h => (hrule h).1, fun h => (hrule h).2⟩

namespace Clean
variable {rule : Rule}

theorem hasQuote_substitute (h : Clean rule) {t : Text} (ht : hasQuote t = true) :
    hasQuote (t.substitute rule) = true := by
  obtain ⟨q, hq, hquote⟩ := List.any_eq_true.1 ht
  refine List.any_eq_true.2 ⟨q, mem_substituteFrom (fun before t new left hm => ?_) [] hq, hquote⟩
  obtain ⟨seen, he, hs⟩ := h.passes hm
  exact ⟨seen, he, fun hmem => by simp [List.any_eq_false.1 hs q hmem] at hquote⟩

theorem hasCapital_substitute (h : Clean rule) {t : Text} (ht : hasCapital t = false) :
    hasCapital (t.substitute rule) = false := by
  refine List.any_eq_false.2 (forall_mem_substituteFrom (fun before t new left hm ht => ?_) []
    (List.any_eq_false.1 ht))
  obtain ⟨seen, rfl, -⟩ := h.passes hm
  exact ⟨List.any_eq_false.1 (h.small hm), fun c hc => ht c (List.mem_append_right _ hc)⟩

variable {rules : List Rule}

theorem hasQuote_substituteAll (h : ∀ rule ∈ rules, Clean rule) {t : Text} (ht : hasQuote t = true) :
    hasQuote (t.substituteAll rules) = true :=
  List.foldlRecOn (motive := (hasQuote · = true)) rules _ ht fun _ ht rule hr => (h rule hr).hasQuote_substitute ht

theorem hasCapital_substituteAll (h : ∀ rule ∈ rules, Clean rule) {t : Text}
    (ht : hasCapital t = false) : hasCapital (t.substituteAll rules) = false :=
  List.foldlRecOn (motive := (hasCapital · = false)) rules _ ht fun _ ht rule hr => (h rule hr).hasCapital_substitute ht

end Clean

theorem clean_typeNames : ∀ rule ∈ typeNames, Clean rule := by
  intro rule hrule
  simp only [typeNames, List.mem_cons, List.not_mem_nil, or_false] at hrule
  rcases hrule with rfl | rfl | rfl | rfl | rfl | rfl
  iterate 2 exact clean_twoWords (by decide) (by decide) (by decide)
  iterate 4 exact clean_starred (by decide) (by decide) (by decide)

theorem clean_dottedWords : ∀ rule ∈ dottedWords, Clean rule := by
  intro rule hrule
  simp only [dottedWords, List.mem_cons, List.not_mem_nil, or_false] at hrule
  rcases hrule with rfl | rfl | rfl | rfl | rfl | rfl | rfl | rfl | rfl | rfl | rfl <;>
    exact clean_dotted (by decide) (by decide)

theorem hasQuote_of_mapCode {f : Text → Text} {t : Text} (h : hasQuote (t.mapCode f) = false) :
    hasQuote t = false := by
  cases ht : hasQuote t with
  | false => rfl
  | true =>
    have hq : hasQuote (t.mapCode f) = true :=
      List.any_eq_true.2 (exists_quote_mapCode f (List.any_eq_true.1 ht))
    rw [h] at hq
    cases hq

theorem mapCode_of_not_hasQuote {f : Text → Text} {t : Text} (h : hasQuote t = false) :
    t.mapCode f = f t :=
  mapCode_of_free fun c hc => by simpa using List.any_eq_false.1 h c hc

theorem hasCapital_beforePowers {t : Text} (h : hasQuote (beforePowers t) = false) :
    hasCapital (beforePowers t) = false := by
  have hoperators : hasQuote (operators (collapseTypes (foldCase t))) = false := hasQuote_of_mapCode h
  have htypes : hasQuote (collapseTypes (foldCase t)) = false := hasQuote_of_mapCode hoperators
  have hfold : hasQuote (foldCase t) = false := by
    cases hq : hasQuote (foldCase t) with
    | false => rfl
    | true =>
      have := Clean.hasQuote_substituteAll clean_typeNames hq
      rw [← collapseTypes, htypes] at this
      cases this
  have hlower : hasCapital (foldCase t) = false := by
    rw [foldCase, mapCode_of_not_hasQuote (hasQuote_of_mapCode hfold)]
    exact List.any_eq_false.2 fun c hc => by simp [not_capital_lower hc]
  rw [beforePowers, numbers, mapCode_of_not_hasQuote hoperators, operators,
    mapCode_of_not_hasQuote htypes, collapseTypes]
  exact clean_doubleExponent.hasCapital_substitute (Clean.hasCapital_substituteAll clean_dottedWords
    (Clean.hasCapital_substituteAll clean_typeNames hlower))

/-- A power leaves a parenthesis behind. -/
theorem paren_of_replace? {t r : Text} (h : Power.replace? t = some r) : r = t ∨ '(' ∈ r := by
  fun_induction Power.replace? t with
  | case1 t _ => exact .inl (Option.some.inj h).symm
  | case2 => cases h
  | case3 t before after _ next hstep ih =>
    right
    rcases ih h with rfl | hm
    · simp only [Power.step?, Option.bind_eq_bind, Option.bind_eq_some_iff] at hstep
      obtain ⟨_, -, _, -, hn⟩ := hstep
      rw [← Option.some.inj hn]
      simp
    · exact hm

/-- The characters of a label line. -/
theorem mem_of_isLabelLine {t : Text} (h : Statement.isLabelLine t.trim = true) {c : Char} (hc : c ∈ t) :
    isBlank c = true ∨ isWord c = true ∨ c = ':' := by
  cases hb : isBlank c with
  | true => exact .inl rfl
  | false =>
    have hm : c ∈ t.trim := by
      have hstart : c ∈ t.trimStart := mem_dropWhile_of_not hc hb
      exact List.mem_reverse.2 (mem_dropWhile_of_not (List.mem_reverse.2 hstart) hb)
    rw [Statement.isLabelLine] at h
    split at h
    · next w rest hw =>
      obtain ⟨he, -, hword⟩ := eq_of_word? hw
      simp only [Bool.and_eq_true] at h
      rw [he] at hm
      rcases List.mem_append.1 hm with hm | hm
      · exact .inr (.inl (hword c hm))
      · rcases List.mem_cons.1 hm with rfl | hm
        · exact .inr (.inr rfl)
        · have := mem_of_allBlank h.1.1.1 c hm
          simp [hb] at this
    · cases h

theorem not_mem_of_isLabelLine {t : Text} (h : Statement.isLabelLine t.trim = true) {c : Char}
    (hb : isBlank c = false) (hw : isWord c = false) (hc : c ≠ ':') : c ∉ t := by
  intro hm
  rcases mem_of_isLabelLine h hm with h | h | h
  · simp [h] at hb
  · simp [h] at hw
  · exact hc h

/-- A statement that is spelled like a label has no capitals. -/
theorem hasCapital_of_isLabelLine {t : Text}
    (h : Statement.isLabelLine (normalize t).1.trim = true) : hasCapital (normalize t).1 = false := by
  have heq : (normalize t).1 = beforePowers t := by
    have hparen : '(' ∉ (normalize t).1 :=
      not_mem_of_isLabelLine h (by decide) (by decide) (by decide)
    simp only [normalize] at hparen ⊢
    split at hparen
    · next r hr => exact (paren_of_replace? hr).resolve_right hparen
    · rfl
  rw [heq] at h ⊢
  refine hasCapital_beforePowers (List.any_eq_false.2 fun c hc hq => ?_)
  rw [isQuote, Bool.or_eq_true, beq_iff_eq, beq_iff_eq] at hq
  rcases hq with rfl | rfl <;>
    exact not_mem_of_isLabelLine h (by decide) (by decide) (by decide) hc

end FixedForm.Spelling
