import FixedForm.Intrinsic
import FixedForm.Proofs.Spelling.Literal

/-! Changes outside literals.  A change of code that writes no quotes leaves the parts of a text where they are,
so changes follow each other as functions do and no literal is touched. -/
namespace FixedForm

namespace Text

/-- A text as code and literals in turn: code holds no quotes, and a literal runs from its quote to the next one
of the same kind, or to the end where there is none. -/
inductive HasParts : Text → List Stretch → Prop where
  | code {x : Text} (hx : ∀ c ∈ x, isQuote c = false) : HasParts x [.code x]
  | unclosed {x y : Text} {q : Char} (hx : ∀ c ∈ x, isQuote c = false) (hq : isQuote q = true) (hy : q ∉ y) :
    HasParts (x ++ q :: y) [.code x, .literal (q :: y)]
  | closed {x y t : Text} {q : Char} {parts : List Stretch} (hx : ∀ c ∈ x, isQuote c = false)
    (hq : isQuote q = true) (hy : q ∉ y) (ht : HasParts t parts) :
    HasParts (x ++ q :: (y ++ q :: t)) (.code x :: .literal (q :: (y ++ [q])) :: parts)

section Parts
variable {t : Text} {parts : List Stretch} {f g : Text → Text}

theorem hasParts_stretches (t : Text) : HasParts t t.stretches := by
  induction t using literal_induction with
  | code x hx =>
    rw [stretches_free hx]
    exact .code hx
  | unclosed x q y hx hq hy =>
    rw [stretches_open hx hq hy]
    exact .unclosed hx hq hy
  | closed x q y t hx hq hy ih =>
    rw [stretches_closed hx hq hy]
    exact .closed hx hq hy ih

theorem HasParts.stretches_eq (h : HasParts t parts) : t.stretches = parts := by
  induction h with
  | code hx => exact stretches_free hx
  | unclosed hx hq hy => exact stretches_open hx hq hy
  | closed hx hq hy _ ih => rw [stretches_closed hx hq hy, ih]

/-- A change of code that writes no quotes, on texts of units. -/
def WritesNoQuotes (f : Text → Text) : Prop :=
  ∀ x, IsHeld x → (∀ c ∈ x, isQuote c = false) → ∀ c ∈ f x, isQuote c = false

/-- Only the code of the parts is changed. -/
theorem HasParts.mapCode (hf : WritesNoQuotes f) (ht : IsHeld t) (h : HasParts t parts) :
    HasParts (mapCode f t) (parts.map (Stretch.mapCode f)) := by
  induction h with
  | code hx =>
    rw [mapCode_of_free hx]
    exact .code (hf _ ht hx)
  | @unclosed x y q hx hq hy =>
    rw [mapCode_open f hx hq hy]
    exact .unclosed (hf x (fun c hc => ht c (by simp [hc])) hx) hq hy
  | @closed x y t q parts hx hq hy _ ih =>
    rw [mapCode_closed f hx hq hy]
    exact .closed (hf x (fun c hc => ht c (by simp [hc])) hx) hq hy (ih fun c hc => ht c (by simp [hc]))

theorem mapCode_id (t : Text) : mapCode id t = t := by
  induction t using literal_induction with
  | code x hx => exact mapCode_of_free hx
  | unclosed x q y hx hq hy => exact mapCode_open id hx hq hy
  | closed x q y t hx hq hy ih => rw [mapCode_closed id hx hq hy, ih, id]

theorem mapCode_mapCode (hf : WritesNoQuotes f) (ht : IsHeld t) (g : Text → Text) :
    mapCode g (mapCode f t) = mapCode (g ∘ f) t := by
  have hparts := ((hasParts_stretches t).mapCode hf ht).stretches_eq
  have hcomp : Stretch.mapCode g ∘ Stretch.mapCode f = Stretch.mapCode (g ∘ f) := by
    funext s
    cases s <;> rfl
  rw [Text.mapCode, hparts, List.map_map, hcomp]
  rfl

theorem literals_of_writesNoQuotes (hf : WritesNoQuotes f) (ht : IsHeld t) :
    literals (mapCode f t) = literals t :=
  literals_mapCode (fun x hx hheld => hf x hheld hx) ht

end Parts

end Text

namespace Intrinsic
open Text Spelling

theorem rename_spec {name new before t new' left : Text} (h : rename name new before t = some (new', left)) :
    new' = new ∧ left <:+ t := by
  simp only [rename, Option.bind_eq_bind, Option.bind_eq_some_iff] at h
  obtain ⟨-, -, t₁, ht₁, -, -, h⟩ := h
  cases h
  exact ⟨rfl, after?_suffix ht₁⟩

theorem absolute_spec {before t new left : Text} (h : absolute before t = some (new, left)) :
    new = "std::abs" ∧ left <:+ t := by
  rw [absolute] at h
  split at h
  · cases h
  · exact rename_spec h

theorem remainder_spec {before t new left : Text} (h : remainder before t = some (new, left)) :
    (∀ c ∈ new, isQuote c = false) ∧ left <:+ t := by
  simp only [remainder, Option.bind_eq_bind, Option.bind_eq_some_iff] at h
  obtain ⟨-, -, t₁, ht₁, t₂, ht₂, ⟨a, t₃⟩, ha, t₄, ht₄, ⟨b, t₅⟩, hb, t₆, ht₆, h⟩ := h
  obtain ⟨rfl, rfl⟩ := Prod.mk.inj (Option.some.inj h)
  have hword {w u rest : Text} (h : word? u = some (w, rest)) : (∀ c ∈ w, isQuote c = false) ∧ rest <:+ u := by
    obtain ⟨rfl, -, hw⟩ := eq_of_word? h
    exact ⟨fun c hc => not_quote_of_word (hw c hc), List.suffix_append w rest⟩
  have hmark {lead u rest : Text} (h : after? lead u.trimStart = some rest) : rest <:+ u :=
    (after?_suffix h).trans (trimStart_suffix u)
  constructor
  · intro c hc
    simp only [List.mem_append] at hc
    rcases hc with (((hc | hc) | hc) | hc) | hc
    · exact not_quote_of_all (t := "(") rfl c hc
    · exact (hword ha).1 c hc
    · exact not_quote_of_all (t := " % ") rfl c hc
    · exact (hword hb).1 c hc
    · exact not_quote_of_all (t := ")") rfl c hc
  · have hlast : t₆ <:+ t₄ := (hmark ht₆).trans ((hword hb).2.trans (trimStart_suffix t₄))
    have hfirst : t₄ <:+ t₂ := (hmark ht₄).trans ((hword ha).2.trans (trimStart_suffix t₂))
    exact hlast.trans (hfirst.trans ((hmark ht₂).trans (after?_suffix ht₁)))

/-- The rules write no quotes and leave the end of the text. -/
theorem rules_spec {rule : Rule} (hrule : rule ∈ rules) {before t new left : Text}
    (h : rule before t = some (new, left)) : (∀ c ∈ new, isQuote c = false) ∧ left <:+ t := by
  have hrename {name new' : Text} (hn : (new'.all fun c => !isQuote c) = true)
      (h : rename name new' before t = some (new, left)) : (∀ c ∈ new, isQuote c = false) ∧ left <:+ t := by
    obtain ⟨rfl, hs⟩ := rename_spec h
    exact ⟨not_quote_of_all hn, hs⟩
  simp only [rules, List.mem_cons, List.not_mem_nil, or_false] at hrule
  rcases hrule with rfl | rfl | rfl | rfl | rfl | rfl
  iterate 4 exact hrename (by decide) h
  · obtain ⟨rfl, hs⟩ := absolute_spec h
    exact ⟨not_quote_of_all rfl, hs⟩
  · exact remainder_spec h

end Intrinsic

namespace Spelling
open Text

theorem writesNoQuotes_lower : WritesNoQuotes lower := fun _ hheld hx => not_quote_lower hheld hx

theorem writesNoQuotes_operators : WritesNoQuotes (substituteAll dottedWords) :=
  fun _ _ hx => free_substituteAll clean_dottedWords quoteFree_dottedWords hx

theorem writesNoQuotes_numbers : WritesNoQuotes (substitute doubleExponent) :=
  fun _ _ hx => free_substitute clean_doubleExponent quoteFree_doubleExponent hx

theorem writesNoQuotes_intrinsics : WritesNoQuotes (substituteAll Intrinsic.rules) :=
  fun _ _ hx => free_substituteAll_end (fun _ hr _ _ _ _ h => (Intrinsic.rules_spec hr h).2)
    (fun _ hr _ _ _ _ h => (Intrinsic.rules_spec hr h).1) hx

/-- Changes of code follow each other as functions do, and leave the literals as they are and in their order, a
last one without its closing quote included.  So do lower case, operators, exponents and intrinsics. -/
theorem mapCode_functor {t : Text} {f : Text → Text} (ht : IsHeld t) (hf : WritesNoQuotes f) (g : Text → Text) :
    mapCode id t = t ∧ mapCode g (mapCode f t) = mapCode (g ∘ f) t ∧
    (∃ parts, HasParts t parts ∧ literals t = parts.filterMap Stretch.literal? ∧
      HasParts (mapCode f t) (parts.map (Stretch.mapCode f))) ∧
    literals (mapCode f t) = literals t ∧ literals (foldCase t) = literals t ∧
    literals (operators t) = literals t ∧ literals (numbers t) = literals t ∧
    literals (Intrinsic.replace t) = literals t :=
  ⟨mapCode_id t, mapCode_mapCode hf ht g, ⟨_, hasParts_stretches t, rfl, (hasParts_stretches t).mapCode hf ht⟩,
    literals_of_writesNoQuotes hf ht, literals_of_writesNoQuotes writesNoQuotes_lower ht,
    literals_of_writesNoQuotes writesNoQuotes_operators ht, literals_of_writesNoQuotes writesNoQuotes_numbers ht,
    literals_of_writesNoQuotes writesNoQuotes_intrinsics ht⟩

/-- Two literals with nothing between them, and one that does not end. -/
def sampleQuotes : Text := ofString "X.EQ.'It''S'.OR.\"Y"

theorem mapCode_functor_sample : IsHeld sampleQuotes ∧ WritesNoQuotes lower ∧
    operators (foldCase sampleQuotes) = mapCode (substituteAll dottedWords ∘ lower) sampleQuotes ∧
    literals (foldCase sampleQuotes) = ["'It'".toList, "'S'".toList, "\"Y".toList] := by
  have hheld : IsHeld sampleQuotes := isHeld_ofString _
  have hlits : literals sampleQuotes = ["'It'".toList, "'S'".toList, "\"Y".toList] := by decide +kernel
  obtain ⟨-, hcomp, -, -, hfold, -⟩ := mapCode_functor hheld writesNoQuotes_lower (substituteAll dottedWords)
  exact ⟨hheld, writesNoQuotes_lower, hcomp, hfold.trans hlits⟩

end Spelling

end FixedForm
