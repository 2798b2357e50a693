import FixedForm.Proofs.Reference.Attached
import FixedForm.Proofs.Reference.Step
import Mathlib.Data.List.Basic

/-! Simplified indices do not show in what is found.  The scan looks back at what it has written, but
no further than the mark that closes the last reference, and that mark is the same in both forms. -/
namespace FixedForm

theorem Text.getLast?_append_of {t u : Text} {c : Char} (h : u.getLast? = some c) :
    (t ++ u).getLast? = some c := by
  rw [List.getLast?_append, h, Option.some_or]

namespace Simplify
open Text

/-- A replacement leaves the brackets around an index. -/
theorem Move.brackets {t u : Text} (h : Move t u) (ht : t.head? = some '[' ∧ t.getLast? = some ']') :
    u.head? = some '[' ∧ u.getLast? = some ']' := by
  cases h with
  | @intro lead rest old new h =>
    obtain ⟨o, c, a, rfl, hshape⟩ := h.shape
    refine ⟨?_, ?_⟩
    · cases lead with
      | cons d lead => exact ht.1
      | nil =>
        obtain rfl : o = '[' := Option.some.inj ht.1
        obtain ⟨-, ho, -⟩ | ⟨b, rfl, -⟩ := hshape.result
        · cases ho
        · rfl
    · have hlast := ht.2
      rw [← List.append_assoc, List.getLast?_append] at hlast ⊢
      cases hrest : rest.getLast? with
      | some d => simpa [hrest] using hlast
      | none =>
        have hc : (o :: (a ++ [c])).getLast? = some c := List.getLast?_concat (l := o :: a)
        rw [hrest, Option.none_or, getLast?_append_of hc] at hlast
        rw [hlast] at hc
        refine getLast?_append_of ?_
        rcases hshape.getLast?_eq with he | he
        · rw [he, hc]
        · rw [hc] at he
          cases he

/-- A simplified index keeps its brackets. -/
theorem simplifySubscript_brackets {t : Text} (h : t.head? = some '[' ∧ t.getLast? = some ']') :
    (simplifySubscript t).head? = some '[' ∧ (simplifySubscript t).getLast? = some ']' := by
  have hreach := reaches_simplifySubscript t
  generalize simplifySubscript t = u at hreach
  induction hreach with
  | refl => exact h
  | tail _ hmove ih => exact hmove.brackets ih

end Simplify

namespace Reference
open Text

/-- The two texts are equal, or they are from behind marks that close a reference. -/
def SameEnd (out out' : Text) : Prop :=
  out = out' ∨ ∃ p p' c c' s, (c = ']' ∨ c = ')') ∧ (c' = ']' ∨ c' = ')') ∧ out = p ++ c :: s ∧ out' = p' ++ c' :: s

namespace SameEnd
variable {out out' : Text}

theorem append (h : SameEnd out out') (w : Text) : SameEnd (out ++ w) (out' ++ w) := by
  rcases h with rfl | ⟨p, p', c, c', s, hc, hc', rfl, rfl⟩
  · exact .inl rfl
  · exact .inr ⟨p, p', c, c', s ++ w, hc, hc', by simp, by simp⟩

theorem of_getLast? {c c' : Char} (hc : c = ']' ∨ c = ')') (hc' : c' = ']' ∨ c' = ')')
    (h : out.getLast? = some c) (h' : out'.getLast? = some c') : SameEnd out out' := by
  obtain ⟨p, rfl⟩ := List.getLast?_eq_some_iff.1 h
  obtain ⟨p', rfl⟩ := List.getLast?_eq_some_iff.1 h'
  exact .inr ⟨p, p', c, c', [], hc, hc', rfl, rfl⟩

/-- The end of a text, last character first and without blanks, as far as the mark. -/
theorem trimEnd_reverse {p : Text} {c : Char} {s : Text} (hc : c = ']' ∨ c = ')') :
    (trimEnd (p ++ c :: s)).reverse = s.reverse.dropWhile isBlank ++ c :: p.reverse := by
  have hsolid : isBlank c = false := by rcases hc with rfl | rfl <;> decide
  rw [trimEnd, List.reverse_reverse, List.reverse_append, List.reverse_cons, List.append_assoc,
    List.dropWhile_append]
  split
  · next hnil => simp [List.isEmpty_iff.1 hnil, hsolid]
  · rfl

/-- Neither of the marks stands before a whole argument. -/
theorem isWhole_eq (h : SameEnd out out') (after : Text) : isWhole out after = isWhole out' after := by
  rcases h with rfl | ⟨p, p', c, c', s, hc, hc', rfl, rfl⟩
  · rfl
  · rw [isWhole, isWhole, lastMark, lastMark, ← List.head?_reverse, ← List.head?_reverse, trimEnd_reverse hc,
      trimEnd_reverse hc', List.head?_append, List.head?_append]
    cases (s.reverse.dropWhile isBlank).head? with
    | some d => rfl
    | none => rcases hc with rfl | rfl <;> rcases hc' with rfl | rfl <;> rfl

theorem declares_eq (h : SameEnd out out') :
    startsWith "::" out.trimEnd.reverse = startsWith "::" out'.trimEnd.reverse := by
  rcases h with rfl | ⟨p, p', c, c', s, hc, hc', rfl, rfl⟩
  · rfl
  · have hne {d : Char} (hd : d = ']' ∨ d = ')') : (d == ':') = false := by rcases hd with rfl | rfl <;> decide
    have hpair (d e : Char) (u : Text) : startsWith "::" (d :: e :: u) = (d == ':' && e == ':') := by
      cases hd : d == ':' <;> cases he : e == ':' <;> simp_all [startsWith, after?]
    rw [trimEnd_reverse hc, trimEnd_reverse hc']
    -- the marks are no colons, so only a pair of colons behind them counts
    rcases s.reverse.dropWhile isBlank with _ | ⟨d, _ | ⟨e, u⟩⟩
    iterate 2 simp [startsWith, after?, hne hc, hne hc']
    · rw [List.cons_append, List.cons_append, hpair, List.cons_append, List.cons_append, hpair]

theorem unresolved_eq (h : SameEnd out out') (top : Bool) (symbol : Option Symbol) (name : Text) :
    unresolved top symbol name out = unresolved top symbol name out' := by
  cases symbol with
  | some s => rfl
  | none => simp only [unresolved, h.declares_eq]

end SameEnd

/-- A text between brackets. -/
def IsIndex (t : Text) : Prop := t.head? = some '[' ∧ t.getLast? = some ']'

/-- As many terms as the array has dimensions. -/
def FitsRank (s : Symbol) (n : Nat) : Prop := (s.kind = .vector ∧ n = 1) ∨ (s.kind = .matrix ∧ n = 2)

theorem bracket?_of_fitsRank {s : Symbol} {n : Nat} (h : FitsRank s n) (reference : Text) (terms : List Text) :
    ∃ issues, ∀ settled : List Text, settled.length = n → ∃ text,
      bracket? s reference terms settled = (some text, issues) ∧ IsIndex text := by
  rcases h with ⟨hk, rfl⟩ | ⟨hk, rfl⟩
  · refine ⟨[], fun settled hn => ?_⟩
    obtain ⟨index, rfl⟩ := List.length_eq_one_iff.1 hn
    exact ⟨vectorSubscript index, by simp only [bracket?, hk], rfl, getLast?_append_of (u := ")-1]") rfl⟩
  · refine ⟨if terms.any (·.contains ',') then [.ambiguous reference .nestedList] else [], fun settled hn => ?_⟩
    obtain ⟨row, column, rfl⟩ := List.length_eq_two.1 hn
    exact ⟨matrixSubscript row column (leadingDimension s), by simp only [bracket?, hk], rfl,
      getLast?_append_of (u := ")]") rfl⟩

/-- Whether a reference has an index, and what is found in it, depends on the number of its terms. -/
theorem bracket?_uniform (s : Symbol) (reference : Text) (terms : List Text) (n : Nat) :
    ∃ issues, (∀ settled : List Text, settled.length = n → ∃ text,
        bracket? s reference terms settled = (some text, issues) ∧ IsIndex text) ∨
      ∀ settled : List Text, settled.length = n → bracket? s reference terms settled = (none, issues) := by
  by_cases h : FitsRank s n
  · obtain ⟨issues, hissues⟩ := bracket?_of_fitsRank h reference terms
    exact ⟨issues, .inl hissues⟩
  · refine ⟨[.ambiguous reference (.indexCount s.kind s.name terms.length)], .inr fun settled hn => ?_⟩
    rw [bracket?]
    · intro index hk hs
      exact h (.inl ⟨hk, by rw [← hn, hs]; rfl⟩)
    · intro row column hk hs
      exact h (.inr ⟨hk, by rw [← hn, hs]; rfl⟩)

theorem IsIndex.simplified {t : Text} (h : IsIndex t) (b : Bool) :
    IsIndex (if b then simplifySubscript t else t) := by
  cases b with
  | true => exact Simplify.simplifySubscript_brackets h
  | false => exact h

section Render
variable (scope scope' : ReferenceScope) (s : Symbol) (inner : Text) (terms : List Text)
  {settled settled' : List Text} (callee : Option Text) {out out' : Text} (after : Text)

/-- What is written for a reference ends with a mark that closes it. -/
theorem render_closed : ∃ c, (c = ']' ∨ c = ')') ∧
    (render scope s inner terms settled callee out after).1.getLast? = some c := by
  obtain ⟨issues, hb | hb⟩ := bracket?_uniform s (s.name ++ "(" ++ inner ++ ")") terms settled.length
  · obtain ⟨text, he, hindex⟩ := hb settled rfl
    rw [render, he]
    exact ⟨']', .inl rfl, getLast?_append_of (hindex.simplified scope.simplify).2⟩
  · rw [render, hb settled rfl]
    exact ⟨')', .inr rfl, getLast?_append_of (u := ")") rfl⟩

/-- References with as many terms, behind texts with the same end. -/
theorem render_issues_eq (hn : settled.length = settled'.length) (h : SameEnd out out') :
    (render scope s inner terms settled callee out after).2 =
      (render scope' s inner terms settled' callee out' after).2 := by
  obtain ⟨issues, hb | hb⟩ := bracket?_uniform s (s.name ++ "(" ++ inner ++ ")") terms settled'.length
  · obtain ⟨text, he, -⟩ := hb settled hn
    obtain ⟨text', he', -⟩ := hb settled' rfl
    rw [render, render, he, he', h.isWhole_eq]
  · rw [render, render, hb settled hn, hb settled' rfl]

theorem rewritten_closed (stack : List (Option Text)) (out rest : Text) : ∃ c, (c = ']' ∨ c = ')') ∧
    (rewritten scope stack out rest s inner).1.getLast? = some c :=
  render_closed scope s inner (listItems inner) stack.head?.join rest

end Render

section Scan
variable {symbols : SymbolTable} {simplify : Bool} {top : Bool} {call : Option (Nat × Text)} {i : Nat}
  {stack stack' : List (Option Text)} {out out' source written rest : Text} {issues : List Issue}

/-- A step with one form of the indices is a step with the other, behind a text with the same end. -/
theorem Step.other (h : Step ⟨symbols, simplify⟩ top call i stack out source written rest stack' issues)
    (hout : SameEnd out out') (simplify' : Bool)
    (ih : ∀ u : Text, u.length < source.length →
      (scan ⟨symbols, simplify⟩ false none 0 [] [] u).2 = (scan ⟨symbols, simplify'⟩ false none 0 [] [] u).2) :
    ∃ written', Step ⟨symbols, simplify'⟩ top call i stack out' source written' rest stack' issues ∧
      SameEnd (out ++ written) (out' ++ written') := by
  cases h with
  | copy h => exact ⟨_, .copy h, hout.append _⟩
  | plain hw hg ha hc =>
    rw [hout.unresolved_eq]
    exact ⟨_, .plain hw hg ha hc, hout.append _⟩
  | callable hw hg ha hc => exact ⟨_, .callable hw hg ha hc, hout.append _⟩
  | @array w g inner _ s hw hg ha hi =>
    have hterms : (settle ⟨symbols, simplify⟩ inner).flatMap Prod.snd =
        (settle ⟨symbols, simplify'⟩ inner).flatMap Prod.snd := by
      rw [settle, settle, List.flatMap_map, List.flatMap_map]
      rw [List.flatMap, List.flatMap]
      refine congrArg List.flatten (List.map_congr_left fun u hu => ih u ?_)
      have hlen := length_le_of_mem_listItems hu
      simp only [List.length_append, List.length_cons]
      omega
    have hissues : (rewritten ⟨symbols, simplify⟩ stack out rest s inner).2 =
        (rewritten ⟨symbols, simplify'⟩ stack out' rest s inner).2 :=
      render_issues_eq _ _ s inner _ _ rest (by simp [settle]) hout
    have hfound : found ⟨symbols, simplify⟩ stack out rest s inner =
        found ⟨symbols, simplify'⟩ stack out' rest s inner := by
      rw [found, found, hterms, hissues]
    obtain ⟨c, hc, hlast⟩ := rewritten_closed ⟨symbols, simplify⟩ s inner stack out rest
    obtain ⟨c', hc', hlast'⟩ := rewritten_closed ⟨symbols, simplify'⟩ s inner stack out' rest
    rw [hfound]
    exact ⟨_, .array hw hg ha hi,
      .of_getLast? hc hc' (getLast?_append_of hlast) (getLast?_append_of hlast')⟩
  | unclosed hw hg ha ht => exact ⟨_, .unclosed hw hg ha ht, hout.append _⟩
  | opens => exact ⟨_, .opens, hout.append _⟩
  | closes hs => exact ⟨_, .closes hs, hout.append _⟩
  | stray hs => exact ⟨_, .stray hs, hout.append _⟩

/-- The form of the indices does not show in what a scan finds. -/
theorem scan_issues_eq (symbols : SymbolTable) (simplify simplify' top : Bool) (call : Option (Nat × Text))
    (i : Nat) (stack : List (Option Text)) {out out' : Text} (hout : SameEnd out out') (rest : Text) :
    (scan ⟨symbols, simplify⟩ top call i stack out rest).2 =
      (scan ⟨symbols, simplify'⟩ top call i stack out' rest).2 := by
  induction hlen : rest.length using Nat.strongRecOn generalizing rest top call i stack out out' with
  | ind n ih =>
    subst hlen
    cases rest with
    | nil => rw [scan_nil, scan_nil]
    | cons c t =>
      obtain ⟨source, written, rest, stack', issues, ht, hstep⟩ :=
        exists_step ⟨symbols, simplify⟩ top call i stack out c t
      rw [ht] at ih ⊢
      have hpos := List.length_pos_iff.2 hstep.source_ne_nil
      obtain ⟨written', hstep', hend⟩ := hstep.other hout simplify' fun u hu =>
        ih u.length (by simp; omega) false none 0 [] (.inl rfl) u rfl
      rw [hstep.scan_eq, hstep'.scan_eq]
      exact congrArg (issues ++ ·) (ih rest.length (by simp; omega) top call _ stack' hend rest rfl)

end Scan

end Reference

namespace Analysis

theorem reportAll_options (a : Analysis) (options : Options) (line : Option Nat) (issues : List Issue) :
    { a with options }.reportAll line issues = { a.reportAll line issues with options } := by
  induction issues generalizing a with
  | nil => rfl
  | cons issue issues ih => exact ih (a.report line issue)

/-- Whether indices are simplified does not show in the findings, nor in what is put up for review. -/
theorem linearize_findings_eq (a : Analysis) (line : Option Nat) (t : Text) :
    let simplified := { a with options := { a.options with simplifySubscripts := true } }.linearize line t
    let plain := { a with options := { a.options with simplifySubscripts := false } }.linearize line t
    simplified.1.diagnostics = plain.1.diagnostics ∧ simplified.1.review = plain.1.review := by
  have hissues (options options' : Options) :
      (Reference.linearize { a with options }.referenceScope t).2 =
        (Reference.linearize { a with options := options' }.referenceScope t).2 :=
    Reference.scan_issues_eq a.symbols _ _ true _ 0 [] (.inl rfl) t
  simp only [Analysis.linearize, reportAll_options, hissues _ a.options, and_self]

end Analysis

end FixedForm
