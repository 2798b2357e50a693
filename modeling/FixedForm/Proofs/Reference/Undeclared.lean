import FixedForm.Proofs.Statement.Occurrence

/-! Names before a parenthesis that nothing declares.  The scan finds one wherever it comes to it at the
top level, that is outside literals and outside the indices of arrays. -/
namespace FixedForm.Reference
open Text

/-- The text ends at the top level: it is made of literals, numbers, names, marks, and elements of arrays
whose parentheses are closed. -/
inductive AtTop (symbols : SymbolTable) : Text → Prop where
  | nil : AtTop symbols []
  | literal {q : Char} {w t : Text} (hq : isQuote q = true) (hw : q ∉ w) (ht : AtTop symbols t) :
      AtTop symbols (q :: (w ++ q :: t))
  | number {c : Char} {w t : Text} (hc : (c.isDigit || c == '.') = true) (hw : ∀ d ∈ w, isOperand d = true)
      (hr : StartsOutside isOperand t) (ht : AtTop symbols t) : AtTop symbols (c :: (w ++ t))
  | name {w t : Text} (hw : IsName w) (hr : StartsOutside isWord t) (hp : firstMark t ≠ some '(')
      (ht : AtTop symbols t) : AtTop symbols (w ++ t)
  /-- A name before a parenthesis that is no array. -/
  | opening {w g t : Text} (hw : IsName w) (hg : g.allBlank = true) (ha : symbols.array? w = none)
      (ht : AtTop symbols t) : AtTop symbols (w ++ (g ++ '(' :: t))
  | element {w g inner t : Text} (hw : IsName w) (hg : g.allBlank = true)
      (ha : (symbols.array? w).isSome = true) (hi : Balanced '(' ')' inner) (ht : AtTop symbols t) :
      AtTop symbols (w ++ (g ++ '(' :: (inner ++ ')' :: t)))
  | mark {c : Char} {t : Text} (ho : isOperand c = false) (hq : isQuote c = false) (ht : AtTop symbols t) :
      AtTop symbols (c :: t)

theorem AtTop.marks {symbols : SymbolTable} {g t : Text} (hg : (g.all fun c => !isOperand c && !isQuote c) = true)
    (ht : AtTop symbols t) : AtTop symbols (g ++ t) := by
  induction g with
  | nil => exact ht
  | cons c g ih =>
    obtain ⟨⟨ho, hq⟩, hg⟩ : (isOperand c = false ∧ isQuote c = false) ∧ _ := by simpa using hg
    exact .mark ho hq (ih (by simpa using hg))

section Reads
variable {scope : ReferenceScope} {top : Bool} {call : Option (Nat × Text)} {i : Nat}
  {stack stack' : List (Option Text)} {out q source written t : Text} {issues : List Issue}

/-- The scan of `p` before `q` comes to `q` behind an output that ends like `p`. -/
def Arrives (scope : ReferenceScope) (top : Bool) (call : Option (Nat × Text)) (i : Nat)
    (stack : List (Option Text)) (out p q : Text) : Prop :=
  ∃ stack' out', Reads scope top call i stack out p q stack' out' ∧
    ∀ seen, SameEnd out seen → SameEnd out' (seen ++ p)

theorem Arrives.step (h : Step scope top call i stack out source written (t ++ q) stack' issues)
    (ht : Arrives scope top call (i + source.length) stack' (out ++ written) t q) :
    Arrives scope top call i stack out (source ++ t) q := by
  obtain ⟨stack'', out', hreads, hend⟩ := ht
  refine ⟨stack'', out', h.reads.trans hreads, fun seen hs => ?_⟩
  rw [← List.append_assoc]
  exact hend _ (h.sameEnd hs)

theorem Arrives.mark {c : Char} (ho : isOperand c = false) (hq : isQuote c = false)
    (ht : ∀ i stack out, Arrives scope top call i stack out t q) : Arrives scope top call i stack out (c :: t) q := by
  by_cases hopen : c = '('
  · subst hopen
    exact .step .opens (ht _ _ _)
  by_cases hclose : c = ')'
  · subst hclose
    cases hs : stack with
    | nil => exact .step (.stray rfl) (ht _ _ _)
    | cons frame stack => exact .step (.closes rfl) (ht _ _ _)
  · exact .step (.copy (.mark ho hq hopen hclose)) (ht _ _ _)

theorem Arrives.blanks {g : Text} (hg : g.allBlank = true)
    (ht : ∀ i stack out, Arrives scope top call i stack out t q) :
    ∀ i stack out, Arrives scope top call i stack out (g ++ t) q := by
  have hmarks := marks_of_blanks hg
  induction g with
  | nil => exact ht
  | cons c g ih =>
    obtain ⟨hc, hg⟩ := List.forall_mem_cons.1 hmarks
    intro i stack out
    exact .mark hc.1 hc.2.1 (ih (List.all_eq_true.2 fun d hd => mem_of_allBlank ‹_› d (List.mem_cons_of_mem c hd)) hg)

end Reads

/-- The scan comes to what follows a text that ends at the top level, if that starts with a word. -/
theorem AtTop.arrives {scope : ReferenceScope} {p q : Text} (h : AtTop scope.symbols p)
    (hends : EndsOutside isOperand p) (hin : StartsInside isWord q) (top : Bool) (call : Option (Nat × Text))
    (i : Nat) (stack : List (Option Text)) (out : Text) : Arrives scope top call i stack out p q := by
  induction h generalizing i stack out with
  | nil => exact ⟨stack, out, .nil, fun seen hs => by rwa [List.append_nil]⟩
  | @literal c w t hq hw _ ih =>
    have hsplit : c :: (w ++ c :: t) = (c :: (w ++ [c])) ++ t := by simp
    rw [hsplit] at hends ⊢
    exact .step (.copy (.literal hq hw)) (ih hends.right _ _ _)
  | @number c w t hc hw hr _ ih =>
    rw [← List.cons_append] at hends ⊢
    have hne := hends.ne_nil (List.cons_ne_nil c w) (List.forall_mem_cons.2 ⟨operand_of_number hc, hw⟩)
    exact .step (.copy (.number hc hw (.append hne hr))) (ih hends.right _ _ _)
  | @name w t hw hr hp _ ih =>
    have hne := hends.ne_nil hw.mem_word.1 fun c hc => operand_of_word (hw.mem_word.2 c hc)
    refine .step (.copy (.name hw (.append hne hr) ?_)) (ih hends.right _ _ _)
    exact mt (firstMark_append_inside hin (by decide)).1 hp
  | @opening w g t hw hg ha _ ih =>
    have hsplit : w ++ (g ++ '(' :: t) = (w ++ (g ++ ['('])) ++ t := by simp
    have hright : EndsOutside isOperand t := (hsplit ▸ hends).right
    cases hc : scope.symbols.isCallable w with
    | true =>
      rw [hsplit]
      exact .step (.callable hw hg ha hc) (ih hright _ _ _)
    | false =>
      have hstep : Step scope top call i stack out w w (g ++ '(' :: (t ++ q)) stack _ := .plain hw hg ha hc
      rw [← List.cons_append, ← List.append_assoc] at hstep
      exact .step hstep (Arrives.blanks hg (fun _ _ _ => .mark (by decide) (by decide) (ih hright)) _ _ _)
  | @element w g inner t hw hg ha hi _ ih =>
    obtain ⟨s, hs⟩ := Option.isSome_iff_exists.1 ha
    have hsplit : w ++ (g ++ '(' :: (inner ++ ')' :: t)) = (w ++ (g ++ '(' :: (inner ++ [')']))) ++ t := by simp
    rw [hsplit] at hends ⊢
    exact .step (.array hw hg hs hi) (ih hends.right _ _ _)
  | @mark c t ho hq _ ih =>
    have hright : EndsOutside isOperand t := EndsOutside.right (t := [c]) hends
    exact .mark ho hq (ih hright)

/-- The CALL that is found has a place. -/
theorem exists_callHead {before t : Text} {i place : Nat} {name : Text}
    (h : callTarget? before i t = some (place, name)) :
    ∃ x y k, t = x ++ y ∧ CallHead (x.reverse ++ before) y k name ∧ place = i + x.length + k := by
  induction t generalizing before i with
  | nil => cases h
  | cons c t ih =>
    obtain ⟨k, name', hc, he⟩ | ⟨-, he⟩ := callTarget?_cases before i c t
    · obtain ⟨rfl, rfl⟩ := Prod.mk.inj (Option.some.inj (he.symm.trans h))
      exact ⟨[], c :: t, k, rfl, hc, rfl⟩
    · obtain ⟨x, y, k, rfl, hc, rfl⟩ := ih (he.symm.trans h)
      refine ⟨c :: x, y, k, rfl, by simpa using hc, ?_⟩
      rw [List.length_cons]
      omega

/-- Only one word ends before the blanks at the end of a text. -/
theorem eq_of_word_end {u w g u' w' g' : Text} (h : u ++ (w ++ g) = u' ++ (w' ++ g'))
    (hw : w ≠ [] ∧ ∀ c ∈ w, isWord c = true) (hw' : w' ≠ [] ∧ ∀ c ∈ w', isWord c = true)
    (hu : StartsOutside isWord u.reverse) (hu' : StartsOutside isWord u'.reverse) (hg : g.allBlank = true)
    (hg' : g'.allBlank = true) : u = u' := by
  -- read backwards: the blanks, then the word
  have hdrop {u w g : Text} (hw : w ≠ [] ∧ ∀ c ∈ w, isWord c = true) (hu : StartsOutside isWord u.reverse)
      (hg : g.allBlank = true) : (trimStart (u ++ (w ++ g)).reverse).dropWhile isWord = u.reverse := by
    have hword : ∀ c ∈ w.reverse, isWord c = true := fun c hc => hw.2 c (List.mem_reverse.1 hc)
    have hsolid : StartsOutside isBlank (w.reverse ++ u.reverse) :=
      .append (by simpa using hw.1) fun c hc => not_blank_of_word (hword c (List.mem_of_mem_head? hc))
    rw [List.reverse_append, List.reverse_append, List.append_assoc,
      trimStart_run (by rwa [allBlank_reverse]) hsolid, dropWhile_run hword hu]
  have hreverse := hdrop hw hu hg
  rw [h, hdrop hw' hu' hg'] at hreverse
  simpa using hreverse.symm

/-- The name before the parenthesis of a CALL follows the word `call`. -/
theorem followsCall_of_callTarget? {u w g t name : Text} (hw : IsName w) (hu : EndsOutside isOperand u)
    (hg : g.allBlank = true)
    (h : callTarget? [] 0 (u ++ (w ++ (g ++ '(' :: t))) = some (u.length + w.length + g.length, name)) :
    followsCall u = true := by
  obtain ⟨x, y, k, hxy, hc, hplace⟩ := exists_callHead h
  cases hc with
  | @intro g₀ _ g' rest hb hg₀ hne hn hword hg' =>
    rw [List.append_nil] at hb
    have hsplit : (u ++ (w ++ g)) ++ '(' :: t = ((x ++ ("call" ++ g₀)) ++ (name ++ g')) ++ '(' :: rest := by
      simpa using hxy
    have hlength : (u ++ (w ++ g)).length = ((x ++ ("call" ++ g₀)) ++ (name ++ g')).length := by
      have h4 : "call".toList.length = 4 := rfl
      simp only [List.length_append]
      omega
    have hu : StartsOutside isWord u.reverse := by
      have hout : StartsOutside isOperand u.reverse := fun c hc => hu c (by rwa [List.head?_reverse] at hc)
      exact hout.mono fun c => operand_of_word
    have hcall : StartsOutside isWord (x ++ ("call" ++ g₀)).reverse := by
      rw [← List.append_assoc, List.reverse_append]
      exact .append (by simpa using hne) (outside_of_allBlank (by rwa [allBlank_reverse]))
    have heq := eq_of_word_end (List.append_inj hsplit hlength).1 hw.mem_word ⟨hn, hword⟩ hu hcall hg hg'
    rw [heq]
    exact followsCall_append hb hg₀ hne

/-- A name before a parenthesis that nothing declares is found at the top level, unless it is called or a
scope stands before it. -/
theorem linearize_undeclared {scope : ReferenceScope} {t u w v : Text} (h : Occurs t u w v)
    (hp : firstMark v = some '(') (hs : scope.symbols.has w = false) (hr : isReserved w = false)
    (hcall : followsCall u = false) (htop : AtTop scope.symbols u)
    (hscope : startsWith "::" u.trimEnd.reverse = false) :
    .undeclaredReference w ∈ (linearize scope t).2 := by
  obtain ⟨g, t, rfl, hg⟩ := exists_opening hp
  have hlookup : scope.symbols.lookup? w = none := by simpa [SymbolTable.has] using hs
  have harray : scope.symbols.array? w = none := by rw [SymbolTable.array?, hlookup]; rfl
  have hcallable : scope.symbols.isCallable w = false := by rw [SymbolTable.isCallable, hlookup]; rfl
  rw [h.text_eq]
  generalize hc : callTarget? [] 0 (u ++ (w ++ (g ++ '(' :: t))) = call
  obtain ⟨stack', out', ⟨issues, hreads⟩, hend⟩ :=
    htop.arrives h.before (startsInside_name h.name (g ++ '(' :: t)) true call 0 [] []
  have hstep : Step scope true call (0 + u.length) stack' out' w w (g ++ '(' :: t) stack'
      [.undeclaredReference w] := by
    have hsame : SameEnd out' u := hend [] (.inl rfl)
    have hnot : ((call.map Prod.fst) == some (0 + u.length + w.length + g.length)) = false := by
      rw [beq_eq_false_iff_ne, Nat.zero_add]
      intro he
      obtain ⟨⟨place, name⟩, rfl, rfl⟩ := Option.map_eq_some_iff.1 he
      rw [followsCall_of_callTarget? h.name h.before hg hc] at hcall
      cases hcall
    have hfound : unresolved true (scope.symbols.lookup? w) w out' = [.undeclaredReference w] := by
      rw [hlookup, hsame.unresolved_eq]
      simp only [unresolved, hr, hscope]
      rfl
    have hplain : Step scope true call (0 + u.length) stack' out' w w (g ++ '(' :: t) stack' _ :=
      .plain h.name hg harray hcallable
    rwa [hnot, hfound, if_neg Bool.false_ne_true] at hplain
  rw [linearize, hc, hreads, hstep.scan_eq]
  simp

end FixedForm.Reference
