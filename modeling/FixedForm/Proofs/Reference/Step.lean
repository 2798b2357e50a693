import FixedForm.Proofs.Reference.Scan

/-! One step of the scan for references.  A step takes the first token, name, reference or parenthesis of
a text, with what follows it in view; the scan of a text is its first step and the scan of the rest. -/
namespace FixedForm.Reference
open Text

/-- A first part `u` of a text that is copied and holds no parenthesis outside a literal. -/
inductive Token : (u rest : Text) → Prop where
  | literal {q : Char} {w rest : Text} (hq : isQuote q = true) (hw : q ∉ w) : Token (q :: (w ++ [q])) rest
  | openLiteral {q : Char} {w : Text} (hq : isQuote q = true) (hw : q ∉ w) : Token (q :: w) []
  | number {c : Char} {w rest : Text} (hc : (c.isDigit || c == '.') = true)
      (hw : ∀ d ∈ w, isOperand d = true) (hr : StartsOutside isOperand rest) : Token (c :: w) rest
  | name {w rest : Text} (hw : IsName w) (hr : StartsOutside isWord rest)
      (hp : firstMark rest ≠ some '(') : Token w rest
  | mark {c : Char} {rest : Text} (ho : isOperand c = false) (hq : isQuote c = false) (hp : c ≠ '(')
      (hp' : c ≠ ')') : Token [c] rest

/-- The procedure whose argument list a parenthesis at place `i` opens because of a CALL. -/
def callee (call : Option (Nat × Text)) (i : Nat) : Option Text :=
  call.bind fun (place, name) => if place == i then some name else none

/-- The index terms of a reference, settled. -/
def settle (scope : ReferenceScope) (inner : Text) : List (Text × List Issue) :=
  (listItems inner).map (scan scope false none 0 [] [])

/-- A reference as it is written between `out` and `rest`, with what is found in it. -/
def rewritten (scope : ReferenceScope) (stack : List (Option Text)) (out rest : Text) (s : Symbol)
    (inner : Text) : Text × List Issue :=
  render scope s inner (listItems inner) ((settle scope inner).map Prod.fst) stack.head?.join out rest

/-- The findings in a reference: in the list of its terms, in each term, and as a whole. -/
def found (scope : ReferenceScope) (stack : List (Option Text)) (out rest : Text) (s : Symbol)
    (inner : Text) : List Issue :=
  (splitCommas inner).2.map (Issue.mismatchInSubscript · s.name) ++
    (settle scope inner).flatMap Prod.snd ++ (rewritten scope stack out rest s inner).2

section
variable (scope : ReferenceScope) (top : Bool) (call : Option (Nat × Text)) (i : Nat)
  (stack : List (Option Text)) (out : Text)

/-- The scan takes `source` before `rest`, writes `written` and finds `issues`. -/
inductive Step : (source written rest : Text) → (stack' : List (Option Text)) → (issues : List Issue) → Prop where
  | copy {u rest : Text} (h : Token u rest) : Step u u rest stack []
  /-- A name before a parenthesis that is neither an array nor callable. -/
  | plain {w g t : Text} (hw : IsName w) (hg : g.allBlank = true) (ha : scope.symbols.array? w = none)
      (hc : scope.symbols.isCallable w = false) :
      Step w w (g ++ '(' :: t) stack
        (if (call.map Prod.fst) == some (i + w.length + g.length) then []
          else unresolved top (scope.symbols.lookup? w) w out)
  | callable {w g rest : Text} (hw : IsName w) (hg : g.allBlank = true) (ha : scope.symbols.array? w = none)
      (hc : scope.symbols.isCallable w = true) :
      Step (w ++ (g ++ ['('])) (w ++ (g ++ ['('])) rest (some w :: stack) []
  | array {w g inner rest : Text} {s : Symbol} (hw : IsName w) (hg : g.allBlank = true)
      (ha : scope.symbols.array? w = some s) (hi : Balanced '(' ')' inner) :
      Step (w ++ (g ++ '(' :: (inner ++ [')']))) (rewritten scope stack out rest s inner).1 rest stack
        (found scope stack out rest s inner)
  | unclosed {w g t : Text} {s : Symbol} (hw : IsName w) (hg : g.allBlank = true)
      (ha : scope.symbols.array? w = some s) (ht : ¬ Closed t) :
      Step (w ++ (g ++ '(' :: t)) (w ++ (g ++ '(' :: t)) [] stack [.unclosedReference s.name]
  | opens {rest : Text} : Step ['('] ['('] rest (callee call i :: stack) []
  | closes {frame : Option Text} {stack' : List (Option Text)} {rest : Text} (hs : stack = frame :: stack') :
      Step [')'] [')'] rest stack' []
  | stray {rest : Text} (hs : stack = []) : Step [')'] [')'] rest [] [.mismatch (.stray ')')]

variable {scope top call i stack out} {source written rest : Text} {stack' : List (Option Text)}
  {issues : List Issue}

theorem Token.ne_nil {u rest : Text} (h : Token u rest) : u ≠ [] := by
  cases h with
  | name hw => exact hw.mem_word.1
  | _ => simp

theorem Step.source_ne_nil (h : Step scope top call i stack out source written rest stack' issues) :
    source ≠ [] := by
  cases h with
  | copy h => exact h.ne_nil
  | plain hw => exact hw.mem_word.1
  | _ => simp

theorem Token.flat {u rest : Text} (h : Token u rest) (hq : ∀ c ∈ u, isQuote c = false) :
    ∀ c ∈ u, c ≠ '(' ∧ c ≠ ')' := by
  cases h with
  | @literal q _ _ hq' | @openLiteral q _ hq' =>
    have hno := hq q List.mem_cons_self
    rw [hq'] at hno
    cases hno
  | number hc hw => exact flat_of_operand (List.forall_mem_cons.2 ⟨operand_of_number hc, hw⟩)
  | name hw => exact flat_of_word hw.mem_word.2
  | mark _ _ hp hp' => exact List.forall_mem_cons.2 ⟨⟨hp, hp'⟩, fun _ hc => absurd hc List.not_mem_nil⟩

/-- What comes before the parenthesis of a reference. -/
theorem flat_head {w g : Text} (hw : IsName w) (hg : g.allBlank = true) :
    ∀ c ∈ w ++ g, c ≠ '(' ∧ c ≠ ')' :=
  List.forall_mem_append.2 ⟨flat_of_word hw.mem_word.2, flat_of_blank hg⟩

theorem depth?_opening {w g : Text} (hw : IsName w) (hg : g.allBlank = true) (n : Nat) (t : Text) :
    depth? n (w ++ (g ++ '(' :: t)) = depth? (n + 1) t := by
  rw [← List.append_assoc, depth?_append, depth?_flat (flat_head hw hg), Option.bind_some, depth?_open]

theorem depth?_reference {w g inner : Text} (hw : IsName w) (hg : g.allBlank = true)
    (hi : Balanced '(' ')' inner) (n : Nat) : depth? n (w ++ (g ++ '(' :: (inner ++ [')']))) = some n := by
  rw [depth?_opening hw hg, depth?_append, hi.depth?_eq, Option.bind_some, depth?_close]
  rfl

theorem Token.scan_eq {u rest : Text} (h : Token u rest) :
    scan scope top call i stack out (u ++ rest) = scan scope top call (i + u.length) stack (out ++ u) rest := by
  cases h with
  | literal hq hw =>
    rw [List.cons_append, List.append_assoc]
    exact scan_literal scope top call i stack out hq hw rest
  | openLiteral hq hw =>
    rw [List.append_nil]
    exact scan_openLiteral scope top call i stack out hq hw
  | @number c w _ hc hw hr =>
    have hall : ∀ d ∈ c :: w, isOperand d = true := List.forall_mem_cons.2 ⟨operand_of_number hc, hw⟩
    have hs := scan_number scope top call i stack out hc (w ++ rest)
    rwa [← List.cons_append, takeWhile_run hall hr, dropWhile_run hall hr] at hs
  | name hw hr hp => exact scan_name scope top call i stack out hw hr hp
  | mark ho hq hp hp' => exact scan_mark scope top call i stack out ho hq hp hp' rest

/-- A step is what the scan does. -/
theorem Step.scan_eq (h : Step scope top call i stack out source written rest stack' issues) :
    scan scope top call i stack out (source ++ rest) =
      let r := scan scope top call (i + source.length) stack' (out ++ written) rest
      (r.1, issues ++ r.2) := by
  cases h with
  | copy h => exact h.scan_eq
  | plain hw hg ha hc => exact scan_plain scope top call i stack out hw hg ha hc _
  | callable hw hg ha hc =>
    have hs := scan_callable scope top call i stack out hw hg ha hc rest
    simpa [Nat.add_assoc] using hs
  | @array w g inner _ s hw hg ha hi =>
    have hs := scan_array scope top call i stack out hw hg ha hi rest
    have hlen : i + (w ++ (g ++ '(' :: (inner ++ [')']))).length =
        i + w.length + g.length + (inner.length + 1) + 1 := by
      simp only [List.length_append, List.length_cons, List.length_nil]
      omega
    rw [hlen]
    simpa only [List.append_assoc, List.cons_append, List.nil_append, rewritten, found, settle, List.map_map]
      using hs
  | unclosed hw hg ha ht =>
    rw [List.append_nil, scan_unclosed scope top call i stack out hw hg ha ht, scan_nil, scan_nil]
    rfl
  | opens => exact scan_open scope top call i stack out rest
  | closes hs =>
    subst hs
    exact scan_close scope top call i stack' out _ rest
  | stray hs =>
    subst hs
    exact scan_stray scope top call i out rest

end

section
variable (scope : ReferenceScope) (top : Bool) (call : Option (Nat × Text)) (i : Nat)
  (stack : List (Option Text)) (out : Text)

/-- Some step takes `source` before `rest`. -/
def Steps (t : Text) : Prop := ∃ source written rest stack' issues,
  t = source ++ rest ∧ Step scope top call i stack out source written rest stack' issues

theorem steps_literal {q : Char} (hq : isQuote q = true) (t : Text) :
    Steps scope top call i stack out (q :: t) := by
  by_cases h : q ∈ t
  · obtain ⟨w, rest, rfl, hw⟩ := List.eq_append_cons_of_mem h
    exact ⟨_, _, rest, _, _, by simp, .copy (.literal hq hw)⟩
  · exact ⟨_, _, [], _, _, by simp, .copy (.openLiteral hq h)⟩

theorem steps_opening {w g : Text} (hw : IsName w) (hg : g.allBlank = true) (t : Text) :
    Steps scope top call i stack out (w ++ (g ++ '(' :: t)) := by
  cases ha : scope.symbols.array? w with
  | some s =>
    by_cases hc : Closed t
    · obtain ⟨inner, rest, rfl, hi⟩ := hc
      exact ⟨_, _, rest, _, _, by simp, .array hw hg ha hi⟩
    · exact ⟨_, _, [], _, _, (List.append_nil _).symm, .unclosed hw hg ha hc⟩
  | none =>
    cases hc : scope.symbols.isCallable w with
    | true => exact ⟨_, _, t, _, _, by simp, .callable hw hg ha hc⟩
    | false => exact ⟨_, _, _, _, _, rfl, .plain hw hg ha hc⟩

/-- Every text that is not empty has a first step. -/
theorem exists_step (c : Char) (t : Text) : Steps scope top call i stack out (c :: t) := by
  have hsplit (p : Char → Bool) : c :: t = c :: t.takeWhile p ++ t.dropWhile p := by simp
  cases hq : isQuote c with
  | true => exact steps_literal scope top call i stack out hq t
  | false =>
  cases hn : (c.isDigit || c == '.') with
  | true =>
    exact ⟨_, _, _, _, _, hsplit isOperand,
      .copy (.number hn (List.all_eq_true.1 List.all_takeWhile) outside_dropWhile)⟩
  | false =>
  obtain ⟨hdigit, hpoint⟩ := Bool.or_eq_false_iff.1 hn
  cases hword : isWord c with
  | true =>
    have hw : IsName (c :: t.takeWhile isWord) := by
      refine ⟨?_, .cons hdigit⟩
      simp only [isWordText, List.isEmpty_cons, Bool.not_false, List.all_cons, hword, Bool.true_and]
      exact List.all_takeWhile
    by_cases hp : firstMark (t.dropWhile isWord) = some '('
    · obtain ⟨g, u, hu, hg⟩ := exists_opening hp
      have hs := steps_opening scope top call i stack out hw hg u
      rwa [← hu, ← hsplit isWord] at hs
    · exact ⟨_, _, _, _, _, hsplit isWord, .copy (.name hw outside_dropWhile hp)⟩
  | false =>
  by_cases ho : c = '('
  · subst ho
    exact ⟨_, _, t, _, _, rfl, .opens⟩
  by_cases hc : c = ')'
  · subst hc
    cases stack with
    | nil => exact ⟨_, _, t, _, _, rfl, .stray rfl⟩
    | cons frame stack => exact ⟨_, _, t, _, _, rfl, .closes rfl⟩
  · refine ⟨_, _, t, _, _, rfl, .copy (.mark ?_ hq ho hc)⟩
    rw [isOperand, hword, hpoint]
    rfl

end

end FixedForm.Reference
