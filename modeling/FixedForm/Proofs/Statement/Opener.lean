import FixedForm.Proofs.Statement.Shape
import FixedForm.Proofs.Text.Classes

/-! The word that a statement starts with.  Every form but the assignment fits only behind words of its
own, so that a statement can have no form before its own unless they share the word. -/
namespace FixedForm
open Text

section Outside
variable {t : Text}

theorem outside_of_wordEnds (h : t.wordEnds = true) : StartsOutside isWord t := by
  cases t with
  | nil => exact .nil
  | cons c t => exact .cons (by simpa [wordEnds] using h)

theorem outside_of_allBlank (h : t.allBlank = true) : StartsOutside isWord t := by
  simpa using outside_word_gap h .nil

theorem outside_of_blanks? (h : t.blanks?.isSome = true) : StartsOutside isWord t := by
  obtain ⟨rest, h⟩ := Option.isSome_iff_exists.1 h
  obtain ⟨g, rfl, hg, hne⟩ := eq_of_blanks? h
  exact .append hne (outside_of_allBlank hg)

theorem outside_of_trimStart (h : StartsOutside isWord t.trimStart) : StartsOutside isWord t := by
  have hsplit : t.takeWhile isBlank ++ t.trimStart = t := List.takeWhile_append_dropWhile
  rw [← hsplit]
  exact outside_word_gap allBlank_takeWhile h

theorem outside_of_startsWith {c : Char} (hc : isWord c = false) (h : startsWith [c] t = true) :
    StartsOutside isWord t := by
  obtain ⟨rest, h⟩ := Option.isSome_iff_exists.1 h
  rw [eq_of_after? h]
  exact .cons hc

end Outside

namespace Statement

/-- The word that a statement starts with, if it starts with one. -/
def opener (t : Text) : Text := t.takeWhile isWord

/-- The words that open the statements of a shape.  A conditional may also start with a brace. -/
def openers : Shape → List Text
  | .header => "subroutine" :: "function" :: BaseType.all.map BaseType.name
  | .unitEnd => ["end"]
  | .declaration => BaseType.all.map BaseType.name
  | .parameter => ["parameter"]
  | .external => ["external"]
  | .intrinsic => ["intrinsic"]
  | .implicit => ["implicit"]
  | .loop => ["do"]
  | .loopEnd => ["enddo", "end", "continue"]
  | .conditional => ["if", "else", "elseif", "endif", "end", ""]
  | .goto => ["go", "goto"]
  | .call => ["call"]
  | .returns => ["return"]
  | _ => []

section Fits
variable {t : Text}

theorem opener_of_after? {lead rest : Text} (h : after? lead t = some rest) (hlead : lead.all isWord = true)
    (hr : StartsOutside isWord rest) : opener t = lead := by
  rw [eq_of_after? h]
  exact takeWhile_run (List.all_eq_true.1 hlead) hr

theorem eq_of_hasKeyword {word : Text} (h : hasKeyword word t = true) :
    ∃ rest, after? word t = some rest ∧ StartsOutside isWord rest := by
  rw [hasKeyword] at h
  cases hr : after? word t with
  | none => simp [hr] at h
  | some rest => exact ⟨rest, rfl, outside_of_wordEnds (by simpa [hr] using h)⟩

theorem opener_of_hasKeyword {word : Text} (h : hasKeyword word t = true) (hw : word.all isWord = true) :
    opener t = word := by
  obtain ⟨rest, hr, hout⟩ := eq_of_hasKeyword h
  exact opener_of_after? hr hw hout

theorem eq_of_baseType {b : BaseType} {rest : Text} (h : BaseType.lead? t = some (b, rest)) :
    t = b.name ++ rest := by
  obtain ⟨b', -, hb⟩ := List.exists_of_findSome?_eq_some h
  obtain ⟨rest', hr, he⟩ := Option.map_eq_some_iff.1 hb
  cases he
  exact eq_of_after? hr

theorem eq_of_unitKind {k : UnitKind} {rest : Text} (h : UnitKind.lead? t = some (k, rest)) :
    t = k.name ++ rest := by
  rw [UnitKind.lead?] at h
  cases hs : after? "subroutine" t with
  | some u =>
    rw [hs] at h
    cases h
    exact eq_of_after? hs
  | none =>
    rw [hs] at h
    obtain ⟨u, hu, he⟩ := Option.map_eq_some_iff.1 h
    cases he
    exact eq_of_after? hu

theorem opener_baseType {b : BaseType} {rest : Text} (hr : StartsOutside isWord rest) :
    opener (b.name ++ rest) ∈ BaseType.all.map BaseType.name := by
  have hword : b.name.all isWord = true := by cases b <;> rfl
  have hmem : b ∈ BaseType.all := by cases b <;> decide
  rw [opener, takeWhile_run (List.all_eq_true.1 hword) hr]
  exact List.mem_map_of_mem hmem

/-- Behind a type word come blanks or a star. -/
theorem outside_of_afterType? {rest : Text} (h : Header.afterType? t = some rest) : StartsOutside isWord t := by
  rw [Header.afterType?] at h
  split at h
  · next u hu =>
    exact outside_of_trimStart (hu ▸ .cons (by decide))
  · exact outside_of_blanks? (Option.isSome_of_eq_some h)

theorem opener_header (h : (Header.parse? t).isSome = true) : opener t ∈ openers .header := by
  obtain ⟨header, h⟩ := Option.isSome_iff_exists.1 h
  obtain ⟨⟨base, u⟩, htype, h⟩ := Option.bind_eq_some_iff.1 h
  obtain ⟨⟨kind, v⟩, hkind, h⟩ := Option.bind_eq_some_iff.1 h
  obtain ⟨name, hgap, -⟩ := Option.bind_eq_some_iff.1 h
  rw [Header.type?] at htype
  split at htype
  · cases htype
    have hword : kind.name.all isWord = true := by cases kind <;> rfl
    rw [eq_of_unitKind hkind, opener,
      takeWhile_run (List.all_eq_true.1 hword) (outside_of_blanks? (Option.isSome_of_eq_some hgap))]
    cases kind <;> decide
  · next b rest hb =>
    obtain ⟨_, hrest, -⟩ := Option.map_eq_some_iff.1 htype
    rw [eq_of_baseType hb]
    exact List.mem_cons_of_mem _ (List.mem_cons_of_mem _ (opener_baseType (outside_of_afterType? hrest)))

theorem opener_isEnd (h : isEnd t = true) : opener t = "end".toList := by
  rw [isEnd] at h
  split at h
  · cases h
  · next rest hr =>
    refine opener_of_after? hr (by decide) ?_
    rcases Bool.or_eq_true_iff.1 h with h | h
    · exact outside_of_allBlank h
    · cases hb : rest.blanks? with
      | none => simp [hb] at h
      | some _ => exact outside_of_blanks? (Option.isSome_of_eq_some hb)

theorem opener_of_paren {word : Text} (hw : word.all isWord = true)
    (h : ((after? word t).map fun t => startsWith "(" t.trimStart).getD false = true) : opener t = word := by
  cases hr : after? word t with
  | none => simp [hr] at h
  | some rest =>
    rw [hr] at h
    exact opener_of_after? hr hw (outside_of_trimStart (outside_of_startsWith (c := '(') (by decide) h))

theorem opener_isDeclaration (h : isDeclaration t = true) : opener t ∈ openers .declaration := by
  rw [isDeclaration] at h
  split at h
  · cases h
  · next b rest hb =>
    rw [eq_of_baseType hb]
    exact opener_baseType (outside_of_wordEnds (Bool.and_eq_true_iff.1 h).1)

/-- `end`, a gap and a second word. -/
theorem opener_of_endOf? {word rest : Text} (h : endOf? word t = some rest) : opener t = "end".toList := by
  obtain ⟨u, hu, h⟩ := Option.bind_eq_some_iff.1 h
  obtain ⟨v, hv, -⟩ := Option.bind_eq_some_iff.1 h
  exact opener_of_after? hu (by decide) (outside_of_blanks? (Option.isSome_of_eq_some hv))

theorem opener_isLoopEnd (h : isLoopEnd t = true) : opener t ∈ openers .loopEnd := by
  obtain ⟨rest?, hmem, hrest⟩ := List.any_eq_true.1 h
  cases rest? with
  | none => cases hrest
  | some rest =>
    have hout : StartsOutside isWord rest := outside_of_allBlank hrest
    simp only [List.mem_cons, List.not_mem_nil, or_false] at hmem
    rcases hmem with h | h | h
    · rw [opener_of_after? h.symm (by decide) hout]
      decide
    · rw [opener_of_endOf? h.symm]
      decide
    · rw [opener_of_after? h.symm (by decide) hout]
      decide

theorem opener_isLoop (h : isLoop t = true) : opener t = "do".toList := by
  rw [isLoop] at h
  split at h
  · cases h
  · next rest hr => exact opener_of_after? hr (by decide) (outside_of_wordEnds (Bool.and_eq_true_iff.1 h).1)

theorem opener_isConditional (h : isConditional t = true) : opener t ∈ openers .conditional := by
  simp only [isConditional, Bool.or_eq_true, or_assoc] at h
  rcases h with h | h | h | h | h | h
  · rw [opener_of_paren (by decide) h]
    decide
  · rw [opener_of_hasKeyword h (by decide)]
    decide
  · rw [opener_of_hasKeyword h (by decide)]
    decide
  · rw [opener_of_hasKeyword h (by decide)]
    decide
  · cases hr : endOf? "if" t with
    | none =>
      rw [hr] at h
      cases h
    | some rest =>
      rw [opener_of_endOf? hr]
      decide
  · cases hr : after? "\x7d" t with
    | none =>
      rw [hr] at h
      cases h
    | some rest =>
      have hnone : opener ("\x7d" ++ rest) = "".toList := rfl
      rw [eq_of_after? hr, hnone]
      decide

theorem opener_isGoto (h : isGoto t = true) : opener t ∈ openers .goto := by
  rw [isGoto] at h
  cases hr : afterGoto? t with
  | none => simp [hr] at h
  | some rest =>
    have hout : StartsOutside isWord rest := outside_of_wordEnds (by simpa [hr] using h)
    obtain ⟨u, hgo, hto⟩ := Option.bind_eq_some_iff.1 hr
    have hu : u = u.takeWhile isBlank ++ ("to" ++ rest) := by
      rw [← eq_of_after? hto]
      exact List.takeWhile_append_dropWhile.symm
    by_cases hgap : u.takeWhile isBlank = []
    · rw [hgap] at hu
      have ht : t = "goto" ++ rest := (eq_of_after? hgo).trans (hu ▸ rfl)
      have hword : ∀ c ∈ "goto".toList, isWord c = true := List.all_eq_true.1 (by decide)
      rw [ht, opener, takeWhile_run hword hout]
      decide
    · rw [opener_of_after? hgo (by decide) (hu ▸ .append hgap (outside_of_allBlank allBlank_takeWhile))]
      decide

theorem opener_isCall (h : isCall t = true) : opener t = "call".toList := by
  obtain ⟨_, h⟩ := Option.isSome_iff_exists.1 h
  obtain ⟨_, h, -⟩ := Option.bind_eq_some_iff.1 h
  obtain ⟨rest, hr, h⟩ := Option.bind_eq_some_iff.1 h
  exact opener_of_after? hr (by decide) (outside_of_blanks? (Option.isSome_of_eq_some h))

/-- A form before the assignment fits only behind a word that opens it. -/
theorem opener_mem {f : Shape × (Text → Bool)} (hf : f ∈ forms.take 13) (h : f.2 t = true) :
    opener t ∈ openers f.1 := by
  have hkeyword {word : Text} (hw : word.all isWord = true) (h : hasKeyword word t = true) :
      opener t ∈ [word] := List.mem_singleton.2 (opener_of_hasKeyword h hw)
  simp only [forms, List.take_succ_cons, List.take_zero, List.mem_cons, List.not_mem_nil, or_false] at hf
  rcases hf with rfl | rfl | rfl | rfl | rfl | rfl | rfl | rfl | rfl | rfl | rfl | rfl | rfl
  · exact opener_header h
  · exact List.mem_singleton.2 (opener_isEnd h)
  · exact List.mem_singleton.2 (opener_of_paren (by decide) h)
  iterate 3 exact hkeyword (by decide) h
  · exact opener_isDeclaration h
  · exact opener_isLoopEnd h
  · exact List.mem_singleton.2 (opener_isLoop h)
  · exact opener_isConditional h
  · exact opener_isGoto h
  · exact List.mem_singleton.2 (opener_isCall h)
  · exact hkeyword (by decide) h

end Fits

/-- A statement has the shape of a form that fits, when none of the first `m` forms fits and its word opens
none of those that follow. -/
theorem shape_of_opener {t w : Text} {k : Shape} {fits : Text → Bool} (m n : Nat) (hn : n ≤ 13)
    (hm : (forms.take m).find? (fun f => f.2 t) = none) (hw : opener t = w)
    (hfree : ((forms.take n).drop m).all (fun f => !(openers f.1).contains w) = true)
    (hk : forms.drop n = (k, fits) :: forms.drop (n + 1)) (hs : fits t = true) : shape t = k := by
  refine shape_eq_of_find? n (List.find?_eq_none.2 fun f hf hfits => ?_) hk hs
  rw [← List.take_append_drop m (forms.take n)] at hf
  rcases List.mem_append.1 hf with hf | hf
  · rw [List.take_take] at hf
    exact List.find?_eq_none.1 hm f ((List.take_sublist_take_left (Nat.min_le_left m n)).subset hf) hfits
  · have hmem := opener_mem ((List.take_sublist_take_left hn).subset (List.drop_subset _ _ hf)) hfits
    have hnone := List.all_eq_true.1 hfree f hf
    rw [hw] at hmem
    simp [hmem] at hnone

/-- A statement of another shape than the assignment starts with a word that opens its shape. -/
theorem opener_of_shape {t : Text} (ha : shape t ≠ .assignment) (ho : shape t ≠ .other) :
    opener t ∈ openers (shape t) := by
  have hsplit : forms = forms.take 13 ++ [(.assignment, isAssignment)] := rfl
  rw [shape] at ha ho ⊢
  cases hf : forms.find? fun f => f.2 t with
  | none =>
    rw [hf] at ho
    exact absurd rfl ho
  | some f =>
    rw [hf] at ha
    have hmem := List.mem_of_find?_eq_some hf
    rw [hsplit, List.mem_append, List.mem_singleton] at hmem
    rcases hmem with hmem | rfl
    · exact opener_mem hmem (by simpa using List.find?_some hf)
    · exact absurd rfl ha

end Statement

end FixedForm
