import FixedForm.Proofs.Reference.CallTarget
import FixedForm.Proofs.Reference.Findings

/-! The scan of a first part of a text.  Where the part ends between tokens and outside the indices of
arrays, what is written for it and the parentheses it leaves open do not depend on what follows. -/
namespace FixedForm.Reference
open Text

/-! ### Where a text ends -/

/-- The last character of the text, if there is one, is not in the class. -/
def EndsOutside (p : Char → Bool) (t : Text) : Prop := ∀ c ∈ t.getLast?, p c = false

theorem endsOutside_iff {p : Char → Bool} {t : Text} : t.getLast?.all (!p ·) = true ↔ EndsOutside p t := by
  rw [EndsOutside]
  cases t.getLast? <;> simp

instance (p : Char → Bool) (t : Text) : Decidable (EndsOutside p t) := decidable_of_iff _ endsOutside_iff

/-- The first character of the text, if there is one, is in the class. -/
def StartsInside (p : Char → Bool) (t : Text) : Prop := ∀ c ∈ t.head?, p c = true

theorem startsInside_name {w : Text} (hw : IsName w) (t : Text) : StartsInside isWord (w ++ t) := by
  obtain ⟨hne, hword⟩ := hw.mem_word
  obtain ⟨c, w, rfl⟩ := List.exists_cons_of_ne_nil hne
  intro d hd
  cases hd
  exact hword c List.mem_cons_self

section Ends
variable {p : Char → Bool} {t u : Text}

theorem EndsOutside.nil : EndsOutside p [] := fun _ hc => nomatch hc

theorem EndsOutside.of_getLast? {c : Char} (hc : u.getLast? = some c) (h : p c = false) : EndsOutside p u := by
  intro d hd
  obtain rfl := Option.some.inj (hc.symm.trans hd)
  exact h

theorem EndsOutside.right (h : EndsOutside p (t ++ u)) : EndsOutside p u :=
  fun _ hc => h _ (getLast?_append_of hc)

theorem EndsOutside.append (ht : EndsOutside p t) (hu : EndsOutside p u) : EndsOutside p (t ++ u) := by
  intro c hc
  rw [Option.mem_def, List.getLast?_append] at hc
  cases hl : u.getLast? with
  | none => exact ht c (by simpa [hl] using hc)
  | some d => exact hu c (by simpa [hl] using hc)

theorem EndsOutside.append_of_ne_nil (hu : EndsOutside p u) (hne : u ≠ []) : EndsOutside p (t ++ u) := by
  obtain ⟨c, hc⟩ := Option.ne_none_iff_exists'.1 (mt List.getLast?_eq_none_iff.1 hne)
  exact .of_getLast? (getLast?_append_of hc) (hu c hc)

/-- A run of the class is not at the end of the text. -/
theorem EndsOutside.ne_nil {w : Text} (h : EndsOutside p (w ++ t)) (hne : w ≠ []) (hw : ∀ c ∈ w, p c = true) :
    t ≠ [] := by
  rintro rfl
  rw [List.append_nil] at h
  have hlast := List.getLast?_eq_some_getLast hne
  have hin := hw _ (List.getLast_mem hne)
  rw [h _ hlast] at hin
  cases hin

end Ends

/-! ### Arrays whose parentheses are closed -/

/-- Every parenthesis behind the name of an array is closed in the text: it ends outside their indices. -/
def ArraysClosed (symbols : SymbolTable) (t : Text) : Prop :=
  ∀ x w g v : Text, t = x ++ (w ++ (g ++ '(' :: v)) → EndsOutside isOperand x → IsName w → g.allBlank = true →
    (symbols.array? w).isSome = true → Closed v

namespace ArraysClosed
variable {symbols : SymbolTable} {t u : Text}

theorem right (h : ArraysClosed symbols (t ++ u)) (hcut : StartsOutside isWord u ∨ EndsOutside isOperand t) :
    ArraysClosed symbols u := by
  intro x w g v hu hx hw hg ha
  refine h (t ++ x) w g v (by rw [hu, List.append_assoc]) ?_ hw hg ha
  rcases hcut with hcut | hcut
  · -- a name at the start of the second part would continue a word
    refine hx.append_of_ne_nil ?_
    rintro rfl
    obtain ⟨c, w, rfl⟩ := List.exists_cons_of_ne_nil hw.mem_word.1
    have hword := hw.mem_word.2 c List.mem_cons_self
    rw [hcut c (by rw [hu]; rfl)] at hword
    cases hword
  · exact hcut.append hx

/-- A parenthesis that is open at the end does not close those before it. -/
theorem left {args : Text} (h : ArraysClosed symbols (t ++ (u ++ '(' :: args))) (hu : ')' ∉ u)
    (hargs : Balanced '(' ')' args) : ArraysClosed symbols t := by
  intro x w g v ht hx hw hg ha
  have hc := h x w g (v ++ (u ++ '(' :: args)) (by simp [ht]) hx hw hg ha
  exact hc.of_open hu hargs

end ArraysClosed

/-- What follows the parenthesis behind the name of an array, where a text starts with them. -/
def arrayOpening? (symbols : SymbolTable) (t : Text) : Option Text :=
  match trimStart (t.dropWhile isWord) with
  | '(' :: v =>
    if IsName (t.takeWhile isWord) ∧ (symbols.array? (t.takeWhile isWord)).isSome = true then some v else none
  | _ => none

theorem arrayOpening?_eq_some_iff {symbols : SymbolTable} {t v : Text} : arrayOpening? symbols t = some v ↔
    ∃ w g : Text, t = w ++ (g ++ '(' :: v) ∧ IsName w ∧ g.allBlank = true ∧ (symbols.array? w).isSome = true := by
  constructor
  · intro h
    rw [arrayOpening?] at h
    split at h
    · next u hu =>
      split at h
      · next hw =>
        cases h
        refine ⟨t.takeWhile isWord, (t.dropWhile isWord).takeWhile isBlank, ?_, hw.1, allBlank_takeWhile, hw.2⟩
        rw [← hu, trimStart, List.takeWhile_append_dropWhile, List.takeWhile_append_dropWhile]
      · cases h
    · cases h
  · rintro ⟨w, g, rfl, hw, hg, ha⟩
    have hword : StartsOutside isWord (g ++ '(' :: v) := outside_word_gap hg (.cons (by decide))
    have htrim : trimStart (g ++ '(' :: v) = '(' :: v := trimStart_run hg (.cons (by decide))
    rw [arrayOpening?, takeWhile_run hw.mem_word.2 hword, dropWhile_run hw.mem_word.2 hword, htrim]
    exact if_pos ⟨hw, ha⟩

/-- At every place between tokens, what an array opens there is closed. -/
def arraysClosed (symbols : SymbolTable) (t : Text) : Bool :=
  (List.range t.length).all fun k => !decide (EndsOutside isOperand (t.take k)) ||
    (arrayOpening? symbols (t.drop k)).all fun v => decide (Closed v)

theorem arraysClosed_iff {symbols : SymbolTable} {t : Text} :
    arraysClosed symbols t = true ↔ ArraysClosed symbols t := by
  rw [arraysClosed, List.all_eq_true]
  constructor
  · rintro h x w g v rfl hx hw hg ha
    have hlen : x.length < (x ++ (w ++ (g ++ '(' :: v))).length := by
      simp only [List.length_append, List.length_cons]
      omega
    have hk := h x.length (List.mem_range.2 hlen)
    have hv : arrayOpening? symbols (w ++ (g ++ '(' :: v)) = some v :=
      arrayOpening?_eq_some_iff.2 ⟨w, g, rfl, hw, hg, ha⟩
    rw [List.take_left, List.drop_left, hv] at hk
    simpa [hx] using hk
  · intro h k _
    rw [Bool.or_eq_true, Bool.not_eq_true', decide_eq_false_iff_not]
    refine Classical.or_iff_not_imp_left.2 fun hends => ?_
    cases hv : arrayOpening? symbols (t.drop k) with
    | none => rfl
    | some v =>
      obtain ⟨w, g, hw, hname, hg, ha⟩ := arrayOpening?_eq_some_iff.1 hv
      have hc := h (t.take k) w g v (by rw [← hw, List.take_append_drop]) (Classical.not_not.1 hends) hname hg ha
      simpa using hc

instance (symbols : SymbolTable) (t : Text) : Decidable (ArraysClosed symbols t) :=
  decidable_of_iff _ arraysClosed_iff

/-! ### Reading a part -/

/-- The scan of `p` before `q` comes to `q` with the parentheses `stack'` and the output `out'`. -/
def Reads (scope : ReferenceScope) (top : Bool) (call : Option (Nat × Text)) (i : Nat)
    (stack : List (Option Text)) (out p q : Text) (stack' : List (Option Text)) (out' : Text) : Prop :=
  ∃ issues, scan scope top call i stack out (p ++ q) =
    let r := scan scope top call (i + p.length) stack' out' q
    (r.1, issues ++ r.2)

section Reads
variable {scope : ReferenceScope} {top : Bool} {call call' : Option (Nat × Text)} {i : Nat}
  {stack stack' stack'' : List (Option Text)} {out out' out'' p p' q : Text}

theorem Reads.nil : Reads scope top call i stack out [] q stack out := ⟨[], rfl⟩

theorem Step.reads {source written rest : Text} {issues : List Issue}
    (h : Step scope top call i stack out source written rest stack' issues) :
    Reads scope top call i stack out source rest stack' (out ++ written) :=
  ⟨issues, h.scan_eq⟩

theorem Reads.trans (h : Reads scope top call i stack out p (p' ++ q) stack' out')
    (h' : Reads scope top call (i + p.length) stack' out' p' q stack'' out'') :
    Reads scope top call i stack out (p ++ p') q stack'' out'' := by
  obtain ⟨issues, h⟩ := h
  obtain ⟨issues', h'⟩ := h'
  refine ⟨issues ++ issues', ?_⟩
  rw [List.append_assoc, h, h', List.length_append, ← Nat.add_assoc]
  simp only [List.append_assoc]

theorem Reads.blanks {g : Text} (hg : g.allBlank = true) (q : Text) :
    Reads scope top call i stack out g q stack (out ++ g) := by
  induction g generalizing i out with
  | nil =>
    rw [List.append_nil]
    exact .nil
  | cons c g ih =>
    obtain ⟨hc, hg⟩ := Bool.and_eq_true_iff.1 hg
    have hmark := marks_of_blanks (g := [c]) (by simp [allBlank, hc]) c List.mem_cons_self
    have hstep : Reads scope top call i stack out [c] (g ++ q) stack (out ++ [c]) :=
      (Step.copy (.mark hmark.1 hmark.2.1 hmark.2.2.1 hmark.2.2.2)).reads
    have hrest : Reads scope top call (i + 1) stack (out ++ [c]) g q stack (out ++ [c] ++ g) := ih hg
    rw [List.append_assoc] at hrest
    exact hstep.trans hrest

end Reads

/-- From `i` on and before `j`, the two calls open the same argument lists. -/
def SameCalls (call call' : Option (Nat × Text)) (i j : Nat) : Prop :=
  ∀ k, i ≤ k → k < j → callee call k = callee call' k

theorem SameCalls.mono {call call' : Option (Nat × Text)} {i i' j j' : Nat} (h : SameCalls call call' i j)
    (hi : i ≤ i') (hj : j' ≤ j) : SameCalls call call' i' j' :=
  fun k hk hlt => h k (Nat.le_trans hi hk) (Nat.lt_of_lt_of_le hlt hj)

section Step
variable {scope : ReferenceScope} {top : Bool} {call call' : Option (Nat × Text)} {i : Nat}
  {stack stack' : List (Option Text)} {out source written rest q : Text} {issues : List Issue}

theorem getLast?_reference (w g inner : Text) : (w ++ (g ++ '(' :: (inner ++ [')']))).getLast? = some ')' :=
  getLast?_append_of (getLast?_append_of (List.getLast?_concat (l := '(' :: inner)))

/-- A step ends between tokens. -/
theorem Step.cut (h : Step scope top call i stack out source written rest stack' issues) :
    StartsOutside isWord rest ∨ EndsOutside isOperand source := by
  cases h with
  | copy h =>
    cases h with
    | @literal c w _ hq =>
      refine .inr (.of_getLast? (List.getLast?_concat (l := c :: w)) ?_)
      cases ho : isOperand c with
      | false => rfl
      | true =>
        rw [not_quote_of_operand ho] at hq
        cases hq
    | openLiteral => exact .inl .nil
    | number hc hw hr => exact .inl (hr.mono fun c => operand_of_word)
    | name hw hr => exact .inl hr
    | mark ho => exact .inr (.of_getLast? rfl ho)
  | plain hw hg => exact .inl (outside_word_gap hg (.cons (by decide)))
  | callable => exact .inr (.of_getLast? (c := '(') (getLast?_append_of (getLast?_append_of rfl)) (by decide))
  | array => exact .inr (.of_getLast? (getLast?_reference _ _ _) (by decide))
  | unclosed => exact .inl .nil
  | opens => exact .inr (.of_getLast? rfl (by decide))
  | closes => exact .inr (.of_getLast? rfl (by decide))
  | stray => exact .inr (.of_getLast? rfl (by decide))

/-- What a step writes ends like what it takes, as far as the scan looks back. -/
theorem Step.sameEnd (h : Step scope top call i stack out source written rest stack' issues) {seen : Text}
    (hs : SameEnd out seen) : SameEnd (out ++ written) (seen ++ source) := by
  cases h with
  | @array w g inner _ s =>
    obtain ⟨c, hc, hlast⟩ := rewritten_closed scope s inner stack out rest
    exact .of_getLast? hc (.inr rfl) (getLast?_append_of hlast) (getLast?_append_of (getLast?_reference w g inner))
  | _ => exact hs.append _

/-- A step opens and closes parentheses above those that it has no need of. -/
theorem Step.frames (h : Step scope top call i stack out source written rest stack' issues)
    (hq : ∀ c ∈ source, isQuote c = false) (hclosed : ArraysClosed scope.symbols (source ++ rest))
    {inner base : List (Option Text)} {k : Nat} (hs : stack = inner ++ base)
    (hd : depth? inner.length source = some k) : ∃ inner', stack' = inner' ++ base ∧ inner'.length = k := by
  have hkept (h : depth? inner.length source = some inner.length) : ∃ inner', stack = inner' ++ base ∧
      inner'.length = k := ⟨inner, hs, Option.some.inj (h.symm.trans hd)⟩
  cases h with
  | copy h => exact hkept (depth?_flat (h.flat hq) _)
  | plain hw => exact hkept (depth?_flat (fun c hc => flat_head hw (g := []) rfl c (by simpa using hc)) _)
  | @callable w g _ hw hg =>
    rw [depth?_opening hw hg] at hd
    exact ⟨some w :: inner, by rw [hs]; rfl, Option.some.inj hd⟩
  | array hw hg ha hi => exact hkept (depth?_reference hw hg hi _)
  | @unclosed w g t s hw hg ha ht =>
    exact absurd (hclosed [] w g t (by simp) .nil hw hg (by rw [ha]; rfl)) ht
  | opens =>
    rw [depth?_open] at hd
    exact ⟨callee call i :: inner, by rw [hs]; rfl, Option.some.inj hd⟩
  | closes hstack =>
    cases inner with
    | nil =>
      rw [List.length_nil, depth?_stray] at hd
      cases hd
    | cons frame inner =>
      rw [List.length_cons, depth?_close] at hd
      exact ⟨inner, (List.cons.inj (hstack.symm.trans hs)).2, Option.some.inj hd⟩
  | stray hstack =>
    obtain ⟨rfl, -⟩ := List.append_eq_nil_iff.1 (hs.symm.trans hstack)
    rw [List.length_nil, depth?_stray] at hd
    cases hd

/-- A mark that is no word is the first one before `q` only where it is the first one of all. -/
theorem firstMark_append_inside {t : Text} {c : Char} (hin : StartsInside isWord q) (hc : isWord c = false) :
    firstMark (t ++ q) = some c ↔ firstMark t = some c := by
  rw [firstMark_append]
  cases firstMark t with
  | some d => rfl
  | none =>
    refine ⟨fun h => ?_, fun h => nomatch h⟩
    have hq : StartsOutside isBlank q := fun d hd => not_blank_of_word (hin d hd)
    rw [Option.none_or, firstMark, trimStart_of_outside hq] at h
    have hword := hin c h
    rw [hc] at hword
    cases hword

theorem rewritten_append_inside (hin : StartsInside isWord q) (s : Symbol) (inner : Text) :
    rewritten scope stack out (rest ++ q) s inner = rewritten scope stack out rest s inner := by
  have hmark {c : Char} (hc : isWord c = false) :
      (firstMark (rest ++ q) == some c) = (firstMark rest == some c) := by
    rw [Bool.eq_iff_iff, beq_iff_eq, beq_iff_eq]
    exact firstMark_append_inside hin hc
  have hwhole : isWhole out (rest ++ q) = isWhole out rest := by
    rw [isWhole, isWhole, hmark (by decide), hmark (by decide)]
  rw [rewritten, rewritten, render, render, hwhole]

theorem Token.extend {u : Text} (h : Token u rest) (hq : ∀ c ∈ u, isQuote c = false)
    (hends : EndsOutside isOperand (u ++ rest)) (hin : StartsInside isWord q) : Token u (rest ++ q) := by
  cases h with
  | @literal c _ _ hc | @openLiteral c _ hc =>
    have hno := hq c List.mem_cons_self
    rw [hc] at hno
    cases hno
  | @number c w _ hc hw hr =>
    have hne := hends.ne_nil (List.cons_ne_nil c w) (List.forall_mem_cons.2 ⟨operand_of_number hc, hw⟩)
    exact .number hc hw (.append hne hr)
  | name hw hr hp =>
    have hne := hends.ne_nil hw.mem_word.1 fun c hc => operand_of_word (hw.mem_word.2 c hc)
    exact .name hw (.append hne hr) (mt (firstMark_append_inside hin (by decide)).1 hp)
  | mark ho hnq hp hp' => exact .mark ho hnq hp hp'

/-- A step is one in a longer text, too. -/
theorem Step.extend (h : Step scope top call i stack out source written rest stack' issues)
    (hq : ∀ c ∈ source, isQuote c = false) (hends : EndsOutside isOperand (source ++ rest))
    (hclosed : ArraysClosed scope.symbols (source ++ rest)) (hcall : SameCalls call call' i (i + source.length))
    (hin : StartsInside isWord q) :
    ∃ issues', Step scope top call' i stack out source written (rest ++ q) stack' issues' := by
  cases h with
  | copy h => exact ⟨_, .copy (h.extend hq hends hin)⟩
  | plain hw hg ha hc =>
    rw [List.append_assoc, List.cons_append]
    exact ⟨_, .plain hw hg ha hc⟩
  | callable hw hg ha hc => exact ⟨_, .callable hw hg ha hc⟩
  | array hw hg ha hi =>
    rw [← rewritten_append_inside hin]
    exact ⟨_, .array hw hg ha hi⟩
  | @unclosed w g t s hw hg ha ht =>
    exact absurd (hclosed [] w g t (by simp) .nil hw hg (by rw [ha]; rfl)) ht
  | opens =>
    rw [hcall i (Nat.le_refl i) (by simp)]
    exact ⟨_, .opens⟩
  | closes hs => exact ⟨_, .closes hs⟩
  | stray hs => exact ⟨_, .stray hs⟩

end Step

/-- Whatever follows `p`, if it starts with a word, the scan of `p` leaves the parentheses `stack'` open
and comes to the output `out'`. -/
structure Leaves (scope : ReferenceScope) (top : Bool) (call : Option (Nat × Text)) (i : Nat)
    (stack : List (Option Text)) (out p : Text) (stack' : List (Option Text)) (out' : Text) : Prop where
  reads : ∀ {call' : Option (Nat × Text)} {q : Text}, SameCalls call call' i (i + p.length) →
    StartsInside isWord q → Reads scope top call' i stack out p q stack' out'
  /-- The output ends like `p`, as far as the scan looks back. -/
  sameEnd : ∀ {seen : Text}, SameEnd out seen → SameEnd out' (seen ++ p)
  /-- Parentheses that `p` does not close are left open. -/
  frames : ∀ {inner base : List (Option Text)} {k : Nat}, stack = inner ++ base →
    depth? inner.length p = some k → ∃ inner', stack' = inner' ++ base ∧ inner'.length = k

/-- By the length of `p`: its first step is one before any other text, and the rest of `p` is shorter. -/
theorem exists_leaves (scope : ReferenceScope) {p : Text} (hq : ∀ c ∈ p, isQuote c = false)
    (hends : EndsOutside isOperand p) (hclosed : ArraysClosed scope.symbols p) (top : Bool)
    (call : Option (Nat × Text)) (i : Nat) (stack : List (Option Text)) (out : Text) :
    ∃ stack' out', Leaves scope top call i stack out p stack' out' := by
  induction hlen : p.length using Nat.strongRecOn generalizing p i stack out with
  | ind n ih =>
    subst hlen
    cases p with
    | nil =>
      refine ⟨stack, out, fun _ _ => .nil, fun h => by rwa [List.append_nil], fun {inner _ _} hs hd => ?_⟩
      exact ⟨inner, hs, Option.some.inj hd⟩
    | cons c t =>
      obtain ⟨source, written, rest, stack', issues, ht, hstep⟩ := exists_step scope top call i stack out c t
      rw [ht] at hq hends hclosed ih ⊢
      have hpos := List.length_pos_iff.2 hstep.source_ne_nil
      have hsource : ∀ c ∈ source, isQuote c = false := fun c hc => hq c (List.mem_append_left rest hc)
      obtain ⟨stack'', out', hrest⟩ := ih rest.length (by simp; omega)
        (fun c hc => hq c (List.mem_append_right source hc)) hends.right (hclosed.right hstep.cut)
        (i + source.length) stack' (out ++ written) rfl
      refine ⟨stack'', out', fun {call' q} hcall hin => ?_, fun {seen} hs => ?_, fun {inner base k} hs hd => ?_⟩
      · rw [List.length_append, ← Nat.add_assoc] at hcall
        obtain ⟨issues', hstep'⟩ := hstep.extend hsource hends hclosed
          (hcall.mono (Nat.le_refl i) (Nat.le_add_right _ _)) hin
        exact hstep'.reads.trans (hrest.reads (hcall.mono (Nat.le_add_right _ _) (Nat.le_refl _)) hin)
      · rw [← List.append_assoc]
        exact hrest.sameEnd (hstep.sameEnd hs)
      · rw [depth?_append] at hd
        obtain ⟨m, hm, hd⟩ := Option.bind_eq_some_iff.1 hd
        obtain ⟨inner', hs', rfl⟩ := hstep.frames hsource hclosed hs hm
        exact hrest.frames hs' hd

end FixedForm.Reference
