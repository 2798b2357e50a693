import FixedForm.Proofs.Spelling.Literal
import FixedForm.Proofs.Spelling.Operand

/-! Spelled statements have no capitals outside their literals.  The changes of spelling keep the quotes in
their order, so what was code is code, and what they write is in lower case. -/
namespace FixedForm

namespace Text
open Spelling (hasCapital)

/-- No capital stands outside the literals of the text.  `quote` opened the literal that it starts in. -/
def SmallFrom : (quote : Option Char) → Text → Prop
  | _, [] => True
  | none, c :: t => if isQuote c then SmallFrom (some c) t else isCapital c.toNat = false ∧ SmallFrom none t
  | some q, c :: t => SmallFrom (if c == q then none else some q) t

/-- No capital stands outside the literals of the text. -/
def SmallCode (t : Text) : Prop := SmallFrom none t

section Small
variable {x y t u v : Text} {q : Char}

theorem smallFrom_closed (hy : q ∉ y) : SmallFrom (some q) (y ++ q :: t) ↔ SmallCode t := by
  induction y with
  | nil => simp [SmallFrom, SmallCode]
  | cons c y ih =>
    obtain ⟨hc, hy⟩ : q ≠ c ∧ q ∉ y := by simpa using hy
    rw [List.cons_append, SmallFrom, if_neg (by simpa using hc.symm)]
    exact ih hy

theorem smallFrom_unclosed (hy : q ∉ y) : SmallFrom (some q) y := by
  induction y with
  | nil => trivial
  | cons c y ih =>
    obtain ⟨hc, hy⟩ : q ≠ c ∧ q ∉ y := by simpa using hy
    rw [SmallFrom, if_neg (by simpa using hc.symm)]
    exact ih hy

theorem smallCode_code {c : Char} (hc : isQuote c = false) :
    SmallCode (c :: t) ↔ isCapital c.toNat = false ∧ SmallCode t := by
  rw [SmallCode, SmallFrom, if_neg (by simp [hc]), SmallCode]

theorem smallCode_quote (hq : isQuote q = true) : SmallCode (q :: t) ↔ SmallFrom (some q) t := by
  rw [SmallCode, SmallFrom, if_pos hq]

theorem smallCode_free (hx : ∀ c ∈ x, isQuote c = false) :
    SmallCode (x ++ t) ↔ hasCapital x = false ∧ SmallCode t := by
  induction x with
  | nil => simp [hasCapital]
  | cons c x ih =>
    rw [List.forall_mem_cons] at hx
    rw [List.cons_append, smallCode_code hx.1, ih hx.2]
    simp [hasCapital, and_assoc]

theorem smallCode_of_free (hx : ∀ c ∈ x, isQuote c = false) : SmallCode x ↔ hasCapital x = false := by
  have h := smallCode_free (t := []) hx
  rw [List.append_nil] at h
  exact h.trans (and_iff_left trivial)

theorem smallCode_open (hx : ∀ c ∈ x, isQuote c = false) (hq : isQuote q = true) (hy : q ∉ y) :
    SmallCode (x ++ q :: y) ↔ hasCapital x = false := by
  rw [smallCode_free hx, smallCode_quote hq]
  exact and_iff_left (smallFrom_unclosed hy)

theorem smallCode_closed (hx : ∀ c ∈ x, isQuote c = false) (hq : isQuote q = true) (hy : q ∉ y) :
    SmallCode (x ++ q :: (y ++ q :: t)) ↔ hasCapital x = false ∧ SmallCode t := by
  rw [smallCode_free hx, smallCode_quote hq, smallFrom_closed hy]

/-- Behind code and whole literals the text is small as well. -/
theorem SmallCode.of_append {P : Text → Prop} (hu : Quoted P false u) (h : SmallCode (u ++ v)) : SmallCode v := by
  induction hu with
  | nil => exact h
  | code hc _ ih => exact ih ((smallCode_code hc).1 h).2
  | literal hq hx _ _ ih =>
    simp only [List.cons_append, List.append_assoc] at h
    exact ih ((smallFrom_closed hx).1 ((smallCode_quote hq).1 h))
  | unclosed _ _ _ htail => cases htail

end Small

/-- `r` is the text with some characters left out and some put in, none of them a quote and none that is
put in a capital. -/
inductive Edited : (t r : Text) → Prop
  | nil : Edited [] []
  | keep (c : Char) {t r : Text} (h : Edited t r) : Edited (c :: t) (c :: r)
  | drop {c : Char} {t r : Text} (hc : isQuote c = false) (h : Edited t r) : Edited (c :: t) r
  | put {c : Char} {t r : Text} (hc : isQuote c = false) (hs : isCapital c.toNat = false) (h : Edited t r) :
    Edited t (c :: r)

namespace Edited
variable {t r u s x : Text}

theorem refl (t : Text) : Edited t t := by
  induction t with
  | nil => exact .nil
  | cons c t ih => exact .keep c ih

theorem append (h : Edited t r) (h' : Edited u s) : Edited (t ++ u) (r ++ s) := by
  induction h with
  | nil => exact h'
  | keep c _ ih => exact .keep c ih
  | drop hc _ ih => exact .drop hc ih
  | put hc hs _ ih => exact .put hc hs ih

theorem dropped (hx : ∀ c ∈ x, isQuote c = false) : Edited x [] := by
  induction x with
  | nil => exact .nil
  | cons c x ih =>
    rw [List.forall_mem_cons] at hx
    exact .drop hx.1 (ih hx.2)

theorem blanks (hx : x.allBlank = true) : Edited x [] :=
  dropped fun c hc => not_quote_of_class (by decide) (mem_of_allBlank hx c hc)

theorem added (hx : (x.all fun c => !isQuote c && !isCapital c.toNat) = true) : Edited [] x := by
  induction x with
  | nil => exact .nil
  | cons c x ih =>
    obtain ⟨⟨hc, hs⟩, hx⟩ : (isQuote c = false ∧ isCapital c.toNat = false) ∧ _ := by simpa using hx
    exact .put hc hs (ih (by simpa using hx))

theorem smallFrom (h : Edited t r) {quote : Option Char} (hq : ∀ q, quote = some q → isQuote q = true)
    (ht : SmallFrom quote t) : SmallFrom quote r := by
  induction h generalizing quote with
  | nil => trivial
  | keep c _ ih =>
    cases quote with
    | none =>
      simp only [SmallFrom] at ht ⊢
      split
      · next hc =>
        rw [if_pos hc] at ht
        exact ih (fun q he => Option.some.inj he ▸ hc) ht
      · next hc =>
        rw [if_neg hc] at ht
        exact ⟨ht.1, ih hq ht.2⟩
    | some q =>
      refine ih (fun d hd => ?_) ht
      split at hd
      · cases hd
      · exact hq d hd
  | @drop c _ _ hc _ ih =>
    cases quote with
    | none => exact ih hq ((smallCode_code hc).1 ht).2
    | some q =>
      have hne : ¬ (c == q) = true := fun he => by
        rw [eq_of_beq he, hq q rfl] at hc
        cases hc
      rw [SmallFrom, if_neg hne] at ht
      exact ih hq ht
  | @put c _ _ hc hs _ ih =>
    cases quote with
    | none => exact (smallCode_code hc).2 ⟨hs, ih hq ht⟩
    | some q =>
      have hne : ¬ (c == q) = true := fun he => by
        rw [eq_of_beq he, hq q rfl] at hc
        cases hc
      rw [SmallFrom, if_neg hne]
      exact ih hq ht

theorem smallCode (h : Edited t r) (ht : SmallCode t) : SmallCode r := h.smallFrom (fun _ he => nomatch he) ht

end Edited

end Text

namespace Power
open Text

theorem edited_dropParens (group : Text) : Edited group (dropParens group) := by
  rw [dropParens]
  split
  · next inner h =>
    split
    · exact .refl group
    · cases group with
      | nil => cases h
      | cons c t =>
        rw [between?] at h
        split at h
        · next hends =>
          cases h
          obtain ⟨rfl, hlast⟩ : c = '(' ∧ t.getLast? = some ')' := by simpa using hends
          obtain ⟨x, rfl⟩ := List.getLast?_eq_some_iff.1 hlast
          have hinner := (Edited.refl x).append (Edited.dropped (x := [')']) (by simp [isQuote]))
          rw [List.dropLast_concat]
          exact .drop rfl (by simpa using hinner)
        · cases h
  · exact .refl group

theorem Operand.edited {w x : Text} (h : Operand w x) : Edited w x := by
  cases h with
  | word | call => exact .refl _
  | group => exact edited_dropParens _

theorem edited_step? {before after next : Text} (h : step? before after = some next) :
    Edited (before ++ '*' :: '*' :: after) next := by
  simp only [step?, Option.bind_eq_bind, Option.bind_eq_some_iff] at h
  obtain ⟨⟨b, base⟩, hb, ⟨e, a⟩, he, h⟩ := h
  cases h
  obtain ⟨w, g, rfl, hg, hw⟩ := base?_operand hb
  obtain ⟨g', s, w', x, rfl, hg', -, rfl, hw'⟩ := exponent?_operand he
  have hlead : Edited [] "pow(".toList := .added (by decide)
  have hcomma : Edited "**".toList ", ".toList := .drop rfl (.drop rfl (.added (by decide)))
  have hclose : Edited [] ")".toList := .added (by decide)
  have hall := (Edited.refl b).append (hlead.append (hw.edited.append ((Edited.blanks hg).append (hcomma.append
    ((Edited.blanks hg').append ((Edited.refl s).append (hw'.edited.append (hclose.append (.refl a)))))))))
  simpa using hall

theorem smallCode_replace? {t r : Text} (ht : SmallCode t) (h : replace? t = some r) : SmallCode r := by
  fun_induction replace? t with
  | case1 t _ => rwa [← Option.some.inj h]
  | case2 => cases h
  | case3 t before after hcut next hstep ih =>
    rw [eq_of_cut? hcut] at ht
    exact ih ((edited_step? hstep).smallCode ht) h

end Power

namespace Spelling
open Text

theorem smallCode_mapCode {f : Text → Text} (hf : ∀ x, (∀ c ∈ x, isQuote c = false) → hasCapital x = false →
      (∀ c ∈ f x, isQuote c = false) ∧ hasCapital (f x) = false) {t : Text} (ht : SmallCode t) :
    SmallCode (t.mapCode f) := by
  induction t using literal_induction with
  | code x hx =>
    obtain ⟨hfx, hc⟩ := hf x hx ((smallCode_of_free hx).1 ht)
    rw [mapCode_of_free hx]
    exact (smallCode_of_free hfx).2 hc
  | unclosed x q y hx hq hy =>
    obtain ⟨hfx, hc⟩ := hf x hx ((smallCode_open hx hq hy).1 ht)
    rw [mapCode_open f hx hq hy]
    exact (smallCode_open hfx hq hy).2 hc
  | closed x q y t hx hq hy ih =>
    obtain ⟨hcode, hrest⟩ := (smallCode_closed hx hq hy).1 ht
    obtain ⟨hfx, hc⟩ := hf x hx hcode
    rw [mapCode_closed f hx hq hy]
    exact (smallCode_closed hfx hq hy).2 ⟨hc, ih hrest⟩

theorem smallCode_foldCase {t : Text} (ht : IsHeld t) : SmallCode (foldCase t) := by
  have hlower (x : Text) : hasCapital x.lower = false :=
    List.any_eq_false.2 fun c hc => by simp [not_capital_lower hc]
  rw [foldCase]
  induction t using literal_induction with
  | code x hx =>
    rw [mapCode_of_free hx]
    exact (smallCode_of_free (not_quote_lower ht hx)).2 (hlower x)
  | unclosed x q y hx hq hy =>
    have hfree := not_quote_lower (fun c hc => ht c (by simp [hc])) hx
    rw [mapCode_open lower hx hq hy]
    exact (smallCode_open hfree hq hy).2 (hlower x)
  | closed x q y t hx hq hy ih =>
    have hfree := not_quote_lower (fun c hc => ht c (by simp [hc])) hx
    rw [mapCode_closed lower hx hq hy]
    exact (smallCode_closed hfree hq hy).2 ⟨hlower x, ih fun c hc => ht c (by simp [hc])⟩

theorem smallCode_collapseTypes {t : Text} (ht : SmallCode t) : SmallCode (collapseTypes t) := by
  have hmark {q : Char} (hq : isQuote q = true) := collapseTypes_mark (IsMark.of_quote hq)
  induction t using literal_induction with
  | code x hx =>
    exact (smallCode_of_free (free_collapseTypes hx)).2
      (Clean.hasCapital_substituteAll clean_typeNames ((smallCode_of_free hx).1 ht))
  | unclosed x q y hx hq hy =>
    rw [hmark hq]
    exact (smallCode_open (free_collapseTypes hx) hq (not_mem_collapseTypes (.of_quote hq) hy)).2
      (Clean.hasCapital_substituteAll clean_typeNames ((smallCode_open hx hq hy).1 ht))
  | closed x q y t hx hq hy ih =>
    obtain ⟨hcode, hrest⟩ := (smallCode_closed hx hq hy).1 ht
    rw [hmark hq, hmark hq]
    exact (smallCode_closed (free_collapseTypes hx) hq (not_mem_collapseTypes (.of_quote hq) hy)).2
      ⟨Clean.hasCapital_substituteAll clean_typeNames hcode, ih hrest⟩

/-- A spelled statement holds capitals in its literals only. -/
theorem smallCode_normalize {t : Text} (ht : IsHeld t) : SmallCode (normalize t).1 := by
  have hbefore : SmallCode (beforePowers t) := by
    rw [beforePowers]
    refine smallCode_mapCode (fun x hx hc => ?_) (smallCode_mapCode (fun x hx hc => ?_)
      (smallCode_collapseTypes (smallCode_foldCase ht)))
    · exact ⟨free_substitute clean_doubleExponent quoteFree_doubleExponent hx,
        clean_doubleExponent.hasCapital_substitute hc⟩
    · exact ⟨free_substituteAll clean_dottedWords quoteFree_dottedWords hx,
        Clean.hasCapital_substituteAll clean_dottedWords hc⟩
  simp only [normalize]
  split
  · next r hr => exact Power.smallCode_replace? hbefore hr
  · exact hbefore

end Spelling

end FixedForm
