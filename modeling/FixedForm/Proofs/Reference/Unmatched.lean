import FixedForm.Proofs.Diagnostic.Report
import FixedForm.Proofs.Reference.Stable
import FixedForm.Proofs.Reference.Step

/-! Parentheses without a partner.  The scan meets them in four places, and misses none: in a text
without literals and without other delimiters it reports one exactly when they are not balanced. -/
namespace FixedForm

namespace Reference
open Text

/-- A text whose only delimiters are parentheses. -/
def Free (t : Text) : Prop := ∀ c ∈ t, isQuote c = false ∧ c ∉ "[]\x7b\x7d".toList

/-- Nothing is reported about delimiters. -/
def Sound (issues : List Issue) : Prop := ∀ issue ∈ issues, issue.code ≠ .unmatchedDelimiter

namespace Sound
variable {issues later : List Issue}

theorem nil : Sound [] := fun _ h => absurd h List.not_mem_nil

theorem append_iff : Sound (issues ++ later) ↔ Sound issues ∧ Sound later := List.forall_mem_append

theorem not_cons {issue : Issue} (h : issue.code = .unmatchedDelimiter) : ¬ Sound (issue :: later) :=
  fun hs => hs issue List.mem_cons_self h

theorem unresolved {top : Bool} {symbol : Option Symbol} {name before : Text} :
    Sound (Reference.unresolved top symbol name before) := by
  cases symbol <;> simp only [Sound, Reference.unresolved] <;> split <;> simp [Issue.code]

theorem bracket? {s : Symbol} {reference : Text} {terms settled : List Text} :
    Sound (Reference.bracket? s reference terms settled).2 := by
  simp only [Sound, Reference.bracket?]
  split
  · simp
  · split <;> simp [Issue.code]
  · simp [Issue.code]

theorem passing {s : Symbol} {reference : Text} {callee : Option Text} {whole : Bool} :
    Sound (Reference.passing s reference callee whole).2 := by
  cases callee with
  | none => exact nil
  | some callee =>
    simp only [Sound, Reference.passing]
    split
    · split <;> simp [Issue.code]
    · simp [Issue.code]

theorem render {scope : ReferenceScope} {s : Symbol} {inner : Text} {terms settled : List Text}
    {callee : Option Text} {before after : Text} :
    Sound (Reference.render scope s inner terms settled callee before after).2 := by
  have hb : Sound (Reference.bracket? s (s.name ++ "(" ++ inner ++ ")") terms settled).2 := bracket?
  rw [Reference.render]
  split
  · next h =>
    rw [h] at hb
    exact hb
  · next h =>
    rw [h] at hb
    exact append_iff.2 ⟨hb, passing⟩

end Sound

theorem Free.left {t u : Text} (h : Free (t ++ u)) : Free t := fun c hc => h c (List.mem_append_left u hc)

theorem Free.right {t u : Text} (h : Free (t ++ u)) : Free u := fun c hc => h c (List.mem_append_right t hc)

/-- The terms of a balanced list are balanced. -/
theorem balanced_listItems {inner u : Text} (hi : Balanced '(' ')' inner) (hf : Free inner)
    (hu : u ∈ listItems inner) : Balanced '(' ')' u := by
  obtain ⟨p, hp, rfl⟩ := List.mem_map.1 hu
  have hn : Nested inner := hi.nested fun c hc => (hf c hc).2
  exact (nestedItem_trim (nestedItem_splitCommas hn p hp)).nested.balanced

section Step
variable {scope : ReferenceScope} {top : Bool} {call : Option (Nat × Text)} {i : Nat}
  {stack stack' : List (Option Text)} {out source written rest : Text} {issues : List Issue}

/-- The findings in a balanced reference are not about delimiters, if those in its terms are not. -/
theorem sound_found {s : Symbol} {inner : Text} (hi : Balanced '(' ')' inner) (hf : Free inner)
    (ih : ∀ u ∈ listItems inner, Sound (scan scope false none 0 [] [] u).2) :
    Sound (found scope stack out rest s inner) := by
  have hn : Nested inner := hi.nested fun c hc => (hf c hc).2
  have hlist : (splitCommas inner).2 = [] := splitCommasFrom_faults hn
  refine Sound.append_iff.2 ⟨Sound.append_iff.2 ⟨?_, ?_⟩, Sound.render⟩
  · rw [hlist]
    exact Sound.nil
  · intro issue hissue
    obtain ⟨r, hr, hissue⟩ := List.mem_flatMap.1 hissue
    obtain ⟨u, hu, rfl⟩ := List.mem_map.1 hr
    exact ih u hu issue hissue

/-- A step keeps count of the open parentheses and finds nothing wrong with them, or it finds one that
has no partner. -/
theorem Step.depth (h : Step scope top call i stack out source written rest stack' issues)
    (hf : Free source)
    (ih : ∀ u : Text, u.length < source.length → Free u → Balanced '(' ')' u →
      Sound (scan scope false none 0 [] [] u).2) :
    (depth? stack.length source = some stack'.length ∧ Sound issues) ∨
      (depth? stack.length (source ++ rest) ≠ some 0 ∧ ¬ Sound issues) := by
  cases h with
  | copy h => exact .inl ⟨depth?_flat (h.flat fun c hc => (hf c hc).1) _, Sound.nil⟩
  | plain hw hg ha hc =>
    refine .inl ⟨depth?_flat (fun c hc => flat_head hw (g := []) rfl c (by simpa using hc)) _, ?_⟩
    split
    · exact Sound.nil
    · exact Sound.unresolved
  | @callable w g _ hw hg ha hc =>
    refine .inl ⟨?_, Sound.nil⟩
    rw [depth?_opening hw hg]
    rfl
  | @array w g inner _ s hw hg ha hi =>
    have hinner : Free inner := fun c hc => hf c (by simp [hc])
    refine .inl ⟨depth?_reference hw hg hi _, sound_found hi hinner fun u hu => ?_⟩
    have hlen := length_le_of_mem_listItems hu
    exact ih u (by simp; omega) (fun c hc => hinner c (mem_of_mem_listItems hu c hc))
      (balanced_listItems hi hinner hu)
  | @unclosed w g t s hw hg ha ht =>
    refine .inr ⟨fun hd => ht ?_, Sound.not_cons rfl⟩
    rw [List.append_nil, depth?_opening hw hg] at hd
    exact closed_of_depth? hd (Nat.zero_le _)
  | opens => exact .inl ⟨depth?_open _ _, Sound.nil⟩
  | closes hs =>
    subst hs
    exact .inl ⟨depth?_close _ _, Sound.nil⟩
  | stray hs =>
    subst hs
    refine .inr ⟨?_, Sound.not_cons rfl⟩
    rw [List.length_nil, List.singleton_append, depth?_stray]
    exact fun h => nomatch h

end Step

/-- A scan finds nothing wrong with the parentheses of a text that closes those open before it, and no
others; at the top level, it does so for no other text. -/
theorem scan_sound (scope : ReferenceScope) {rest : Text} (hf : Free rest) (top : Bool)
    (call : Option (Nat × Text)) (i : Nat) (stack : List (Option Text)) (out : Text) :
    (depth? stack.length rest = some 0 → Sound (scan scope top call i stack out rest).2) ∧
      (top = true → Sound (scan scope top call i stack out rest).2 → depth? stack.length rest = some 0) := by
  induction hlen : rest.length using Nat.strongRecOn generalizing rest top call i stack out with
  | ind n ih =>
    subst hlen
    cases rest with
    | nil =>
      rw [scan_nil]
      cases stack with
      | nil => simp [Sound, depth?]
      | cons frame stack =>
        refine ⟨fun h => ?_, ?_⟩
        · simp [depth?] at h
        · rintro rfl hs
          exact absurd hs (Sound.not_cons rfl)
    | cons c t =>
      obtain ⟨source, written, rest, stack', issues, ht, hstep⟩ := exists_step scope top call i stack out c t
      rw [ht] at hf ih ⊢
      have hpos := List.length_pos_iff.2 hstep.source_ne_nil
      have hlater := ih rest.length (by simp; omega) hf.right top call (i + source.length) stack'
        (out ++ written) rfl
      have hterm (u : Text) (hu : u.length < source.length) (hfu : Free u) (hb : Balanced '(' ')' u) :
          Sound (scan scope false none 0 [] [] u).2 :=
        (ih u.length (by simp; omega) hfu false none 0 [] [] rfl).1 (hb.depth?_eq 0)
      rw [hstep.scan_eq]
      simp only [Sound.append_iff]
      rcases hstep.depth hf.left hterm with ⟨hd, hs⟩ | ⟨hd, hs⟩
      · rw [depth?_append, hd, Option.bind_some]
        exact ⟨fun h => ⟨hs, hlater.1 h⟩, fun htop h => hlater.2 htop h.2⟩
      · exact ⟨fun h => absurd h hd, fun _ h => absurd h.1 hs⟩

end Reference

namespace Analysis
open Text

/-- Parentheses are reported exactly when they are not properly nested. -/
theorem linearize_unmatched_iff (a : Analysis) (ha : a.diagnostics = []) (line : Option Nat) {t : Text}
    (ht : ∀ c ∈ t, isQuote c = false ∧ c ∉ "[]\x7b\x7d".toList) :
    (∃ d ∈ (a.linearize line t).1.diagnostics, d.code = .unmatchedDelimiter) ↔ ¬ Balanced '(' ')' t := by
  have hscan := Reference.scan_sound a.referenceScope ht true (Reference.callTarget? [] 0 t) 0 [] []
  have hsound : Reference.Sound (Reference.linearize a.referenceScope t).2 ↔ Balanced '(' ')' t := by
    rw [balanced_iff_depth?]
    exact ⟨hscan.2 rfl, hscan.1⟩
  rw [← hsound, Analysis.linearize, diagnostics_reportAll, ha, Diagnostic.exists_code_foldl_add]
  simp [Reference.Sound, Diagnostic.ofIssue]

/-- A list, a group, a reference with references in its index, and at the end one that is not closed. -/
theorem linearize_unmatched_sample :
    let unit := Reference.sampleUnit
    let closed : Text := "call s(f(x), (m(abs((v(j))), v (i)+1)))".toList
    let opened : Text := "call s(f(x), (m(abs((v(j))), v (i)+1))".toList
    unit.diagnostics = [] ∧ Balanced '(' ')' closed ∧ ¬ Balanced '(' ')' opened ∧
      (¬ ∃ d ∈ (unit.linearize none closed).1.diagnostics, d.code = .unmatchedDelimiter) ∧
      ∃ d ∈ (unit.linearize none opened).1.diagnostics, d.code = .unmatchedDelimiter := by
  intro unit closed opened
  have hclosed : Balanced '(' ')' closed := by decide
  have hopened : ¬ Balanced '(' ')' opened := by decide
  have hfree {t : Text} (h : (t.all fun c => !isQuote c && !"[]\x7b\x7d".toList.contains c) = true) :
      ∀ c ∈ t, isQuote c = false ∧ c ∉ "[]\x7b\x7d".toList := by
    simpa using h
  exact ⟨rfl, hclosed, hopened,
    fun h => (linearize_unmatched_iff unit rfl none (hfree (by decide))).1 h hclosed,
    (linearize_unmatched_iff unit rfl none (hfree (by decide))).2 hopened⟩

end Analysis

end FixedForm
