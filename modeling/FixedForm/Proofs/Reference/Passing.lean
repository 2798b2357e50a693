import FixedForm.Proofs.Diagnostic.Report
import FixedForm.Proofs.Reference.Label
import FixedForm.Proofs.Reference.Linearize
import FixedForm.Proofs.Reference.Part
import FixedForm.Proofs.Text.Alike

/-! How an element is passed to a procedure.  Directly in the argument list, an element that is a whole
argument is passed by its address, and any other is reported as part of a computed one. -/
namespace FixedForm

namespace Reference
open Text

/-! ### Whole arguments -/

section Marks
variable {t u : Text}

theorem firstMark_item (h : NestedItem t) {c : Char} (hc : firstMark t = some c) : c ≠ ',' ∧ c ≠ ')' := by
  obtain ⟨u, hu⟩ := List.head?_eq_some_iff.1 hc
  have hn := nestedItem_trimStart h
  rw [hu] at hn
  constructor <;> rintro rfl <;> cases hn

theorem lastMark_item (h : NestedItem t) {c : Char} (hc : lastMark t = some c) : c ≠ ',' ∧ c ≠ '(' := by
  obtain ⟨u, hu⟩ := List.getLast?_eq_some_iff.1 hc
  have hn := nestedItem_trimEnd h
  rw [hu, NestedItem, walk_append] at hn
  obtain ⟨s, -, hs⟩ := Option.bind_eq_some_iff.1 hn
  constructor
  · rintro rfl
    cases s <;> cases hs
  · rintro rfl
    cases hs

theorem lastMark_eq (t : Text) : lastMark t = firstMark t.reverse := by
  rw [lastMark, firstMark, trimEnd, List.getLast?_reverse]
  rfl

theorem allBlank_eq_isNone (t : Text) : t.allBlank = (firstMark t).isNone := by
  rw [firstMark, ← allBlank_trimStart]
  have hout : StartsOutside isBlank (trimStart t) := outside_trimStart
  cases ht : trimStart t with
  | nil => rfl
  | cons c u =>
    rw [ht] at hout
    simp [allBlank, hout c rfl]

/-- An argument starts behind `o` with `front`, and with `back` it ends before `c`. -/
theorem isWhole_item {lead front back rest : Text} {o c : Char} (ho : o = '(' ∨ o = ',') (hf : NestedItem front)
    (hb : NestedItem back) (hc : c = ',' ∨ c = ')') :
    isWhole (lead ++ o :: front) (back ++ c :: rest) = (front.allBlank && back.allBlank) := by
  have hlast : lastMark (lead ++ o :: front) = (lastMark front).or (some o) := by
    rw [lastMark_eq, lastMark_eq, List.reverse_append, List.reverse_cons, List.append_assoc, firstMark_append]
    rcases ho with rfl | rfl <;> rfl
  have hfirst : firstMark (back ++ c :: rest) = (firstMark back).or (some c) := by
    rw [firstMark_append]
    rcases hc with rfl | rfl <;> rfl
  have hfront : (lastMark (lead ++ o :: front) == some '(' || lastMark (lead ++ o :: front) == some ',') =
      front.allBlank := by
    rw [hlast, ← allBlank_reverse, allBlank_eq_isNone, ← lastMark_eq]
    cases h : lastMark front with
    | none => rcases ho with rfl | rfl <;> rfl
    | some d => simpa using (lastMark_item hf h).symm
  have hback : (firstMark (back ++ c :: rest) == some ',' || firstMark (back ++ c :: rest) == some ')') =
      back.allBlank := by
    rw [hfirst, allBlank_eq_isNone]
    cases h : firstMark back with
    | none => rcases hc with rfl | rfl <;> rfl
    | some d => simpa using firstMark_item hb h
  rw [isWhole, hfront, hback]

end Marks

/-! ### Argument lists -/

/-- What makes the parenthesis behind `callee` that of its argument list.  It is a function of the
program, or the text has its first `call` before it; `tail` is the text from `callee` on. -/
inductive Called (symbols : SymbolTable) (callee tail : Text) : (lead : Text) → Prop where
  | function {u : Text} (hu : EndsOutside isOperand u) (hc : symbols.isCallable callee = true) :
      Called symbols callee tail u
  | statement {u g : Text} (hu : EndsOutside isOperand u) (hg : g.allBlank = true) (hne : g ≠ [])
      (hfirst : NoCall [] u ("call" ++ (g ++ tail))) : Called symbols callee tail (u ++ ("call" ++ g))

section Opening
variable {scope : ReferenceScope} {top : Bool} {call : Option (Nat × Text)} {i : Nat}
  {stack : List (Option Text)} {out w g : Text}

/-- The name of a procedure and the parenthesis of its argument list. -/
theorem reads_opening (hw : IsName w) (hg : g.allBlank = true) (ha : scope.symbols.array? w = none)
    (hc : scope.symbols.isCallable w = true ∨ callee call (i + w.length + g.length) = some w) (q : Text) :
    Reads scope top call i stack out (w ++ (g ++ ['('])) q (some w :: stack) (out ++ (w ++ (g ++ ['(']))) := by
  cases hcall : scope.symbols.isCallable w with
  | true => exact (Step.callable hw hg ha hcall).reads
  | false =>
    have hplace := hc.resolve_left (by simp [hcall])
    have hname : Reads scope top call i stack out w (g ++ ['('] ++ q) stack (out ++ w) := by
      rw [List.append_assoc]
      exact (Step.plain hw hg ha hcall).reads
    have hgap : Reads scope top call (i + w.length) stack (out ++ w) g ('(' :: q) stack (out ++ w ++ g) :=
      .blanks hg _
    have hopen : Reads scope top call (i + w.length + g.length) stack (out ++ w ++ g) ['('] q (some w :: stack)
        (out ++ w ++ g ++ ['(']) := by
      rw [← hplace]
      exact Step.opens.reads
    have hall := hname.trans (hgap.trans hopen)
    rwa [List.append_assoc, List.append_assoc] at hall

end Opening

section Called
variable {symbols : SymbolTable} {w tail lead g : Text}

theorem Called.endsOutside (h : Called symbols w tail lead) : EndsOutside isOperand lead := by
  cases h with
  | function hu => exact hu
  | @statement u g hu hg hne =>
    have hgap : EndsOutside isOperand g := fun c hc => (marks_of_blanks hg c (List.mem_of_getLast? hc)).1
    exact (hgap.append_of_ne_nil hne).append_of_ne_nil (by simp)

/-- The parenthesis of an argument list is known by the name before it or by its place. -/
theorem Called.callee_eq {q : Text} (h : Called symbols w (w ++ (g ++ '(' :: q)) lead) (hw : IsName w)
    (hg : g.allBlank = true) : symbols.isCallable w = true ∨
      callee (callTarget? [] 0 (lead ++ (w ++ (g ++ '(' :: q)))) (lead.length + w.length + g.length) = some w := by
  cases h with
  | function _ hc => exact .inl hc
  | @statement u b hu hb hne hfirst =>
    have hhead : CallHead (u.reverse ++ []) ("call" ++ (b ++ (w ++ (g ++ '(' :: q))))
        (4 + b.length + w.length + g.length) w := by
      refine .intro q ?_ hb hne hw.mem_word.1 hw.mem_word.2 hg
      refine wordEnds_of_outside fun c hc => ?_
      rw [List.append_nil, List.head?_reverse] at hc
      exact Bool.eq_false_iff.2 fun hword => by simpa [operand_of_word hword] using hu c hc
    have hplace : (u ++ ("call" ++ b)).length + w.length + g.length =
        0 + u.length + (4 + b.length + w.length + g.length) := by
      simp only [List.length_append]
      have h4 : "call".toList.length = 4 := rfl
      omega
    rw [List.append_assoc, List.append_assoc, callTarget?_first 0 hhead hfirst, hplace]
    exact .inr (if_pos (beq_self_eq_true _))

/-- What follows a first part of a text opens no argument list in it. -/
theorem sameCalls_callTarget? (p q : Text) :
    SameCalls (callTarget? [] 0 (p ++ q)) (callTarget? [] 0 p) 0 p.length := by
  intro k _ hk
  rcases callTarget?_append [] 0 p q with h | ⟨hnone, hplace⟩
  · rw [h]
  · rw [hnone]
    cases hcall : callTarget? [] 0 (p ++ q) with
    | none => rfl
    | some c =>
      have hle := hplace c.1 c.2 hcall
      exact if_neg (by simp; omega)

end Called

/-- A text with a reference in an argument list, cut up.  Behind the parenthesis of `callee` come the
`earlier` arguments and then one that has the reference between `front` and `back`. -/
structure ArgumentText where
  lead : Text
  callee : Text
  space : Text
  earlier : List Text
  front : Text
  name : Text
  gap : Text
  inner : Text
  back : Text
  rest : Text

namespace ArgumentText
variable (e : ArgumentText)

/-- The name of the procedure and the parenthesis of its argument list. -/
def opening : Text := e.callee ++ (e.space ++ ['('])

/-- What the list has before the reference. -/
def arguments : Text := e.earlier.flatMap (· ++ [',']) ++ e.front

/-- What comes before the reference. -/
def before : Text := e.lead ++ (e.opening ++ e.arguments)

/-- The text from the reference on. -/
def after : Text := e.name ++ (e.gap ++ '(' :: (e.inner ++ ')' :: (e.back ++ e.rest)))

def text : Text := e.before ++ e.after

/-- The reference is the whole of its argument. -/
def whole : Bool := e.front.allBlank && e.back.allBlank

end ArgumentText

/-- An element of an array in an argument list, at the level of the list and outside the indices of
other arrays. -/
structure PassedElement (symbols : SymbolTable) extends ArgumentText where
  called : Called symbols callee (toArgumentText.opening ++ (toArgumentText.arguments ++ toArgumentText.after)) lead
  isName_callee : IsName callee
  blank_space : space.allBlank = true
  nested_earlier : ∀ t ∈ earlier, NestedItem t
  nested_front : NestedItem front
  no_quote : ∀ c ∈ toArgumentText.before, isQuote c = false
  /-- The name of the array does not continue a word or a number. -/
  ends : EndsOutside isOperand toArgumentText.before
  /-- The element is in no index of another array. -/
  arraysClosed : ArraysClosed symbols toArgumentText.before
  isName : IsName name
  blank_gap : gap.allBlank = true
  symbol : Symbol
  array : symbols.array? name = some symbol
  balanced : Balanced '(' ')' inner
  fitsRank : FitsRank symbol (listItems inner).length
  nested_back : NestedItem back
  /-- Behind `back` the argument is at its end. -/
  ends_argument : rest.head? = some ',' ∨ rest.head? = some ')'

namespace PassedElement
variable {symbols : SymbolTable} (e : PassedElement symbols)

theorem isWhole_eq : isWhole e.before (e.back ++ e.rest) = e.whole := by
  obtain ⟨c, hc, rest, hrest⟩ : ∃ c, (c = ',' ∨ c = ')') ∧ ∃ rest, e.rest = c :: rest := by
    rcases e.ends_argument with h | h
    · exact ⟨',', .inl rfl, List.head?_eq_some_iff.1 h⟩
    · exact ⟨')', .inr rfl, List.head?_eq_some_iff.1 h⟩
  obtain ⟨lead, o, ho, hlead⟩ : ∃ lead o, (o = '(' ∨ o = ',') ∧ e.before = lead ++ o :: e.front := by
    rcases List.eq_nil_or_concat e.earlier with h | ⟨ts, t, h⟩
    · refine ⟨e.lead ++ (e.callee ++ e.space), '(', .inl rfl, ?_⟩
      simp [ArgumentText.before, ArgumentText.opening, ArgumentText.arguments, h]
    · refine ⟨e.lead ++ (e.callee ++ (e.space ++ '(' :: (ts.flatMap (· ++ [',']) ++ t))), ',', .inr rfl, ?_⟩
      simp [ArgumentText.before, ArgumentText.opening, ArgumentText.arguments, h]
  rw [hlead, hrest, isWhole_item ho e.nested_front e.nested_back hc, ArgumentText.whole]

theorem balanced_arguments : Balanced '(' ')' e.arguments := by
  have hearlier {ts : List Text} (h : ∀ t ∈ ts, NestedItem t) : Balanced '(' ')' (ts.flatMap (· ++ [','])) := by
    induction ts with
    | nil => exact .nil
    | cons t ts ih =>
      obtain ⟨ht, hts⟩ := List.forall_mem_cons.1 h
      exact (ht.nested.balanced.append (.cons (by decide) (by decide) .nil)).append (ih hts)
  exact (hearlier e.nested_earlier).append e.nested_front.nested.balanced

/-- The list is still open, so its name is not that of an array. -/
theorem array?_callee : symbols.array? e.callee = none := by
  cases h : symbols.array? e.callee with
  | none => rfl
  | some s =>
    have hbefore : e.before = e.lead ++ (e.callee ++ (e.space ++ '(' :: e.arguments)) := by
      simp [ArgumentText.before, ArgumentText.opening]
    have hc := e.arraysClosed e.lead e.callee e.space e.arguments hbefore e.called.endsOutside e.isName_callee
      e.blank_space (by rw [h]; rfl)
    exact absurd hc e.balanced_arguments.not_closed

/-- The parenthesis of the list is known by the name before it or by its place. -/
theorem callee_eq : symbols.isCallable e.callee = true ∨
    Reference.callee (callTarget? [] 0 e.text) (e.lead.length + e.callee.length + e.space.length) =
      some e.callee := by
  have hcalled := e.called
  have htext : e.text = e.lead ++ (e.callee ++ (e.space ++ '(' :: (e.arguments ++ e.after))) := by
    simp [ArgumentText.text, ArgumentText.before, ArgumentText.opening]
  rw [ArgumentText.opening, List.append_assoc, List.append_assoc] at hcalled
  rw [htext]
  exact hcalled.callee_eq e.isName_callee e.blank_space

theorem arraysClosed_lead : ArraysClosed symbols e.lead := by
  have hclosed := e.arraysClosed
  rw [ArgumentText.before, ArgumentText.opening, ← List.append_assoc e.callee, List.append_assoc] at hclosed
  exact hclosed.left (fun hm => (flat_head e.isName_callee e.blank_space _ hm).2 rfl) e.balanced_arguments

theorem arraysClosed_arguments : ArraysClosed symbols e.arguments := by
  have hclosed := e.arraysClosed
  rw [ArgumentText.before, ← List.append_assoc] at hclosed
  exact hclosed.right (.inr (.of_getLast? (getLast?_append_of (getLast?_append_of (getLast?_append_of rfl))) (by decide)))

/-- Whatever follows, the scan comes to the element with the argument list as the innermost parenthesis. -/
theorem exists_reads (simplify : Bool) : ∃ base out, SameEnd out e.before ∧
    ∀ {call : Option (Nat × Text)} {q : Text}, SameCalls (callTarget? [] 0 e.text) call 0 e.before.length →
      StartsInside isWord q →
      Reads ⟨symbols, simplify⟩ true call 0 [] [] e.before q (some e.callee :: base) out := by
  have hquote := e.no_quote
  have hends := e.ends
  rw [ArgumentText.before, ← List.append_assoc] at hquote hends
  obtain ⟨base, out, hl⟩ := exists_leaves ⟨symbols, simplify⟩ (p := e.lead) (fun c hc => hquote c (by simp [hc]))
    e.called.endsOutside e.arraysClosed_lead true (callTarget? [] 0 e.text) 0 [] []
  obtain ⟨stack, out', ha⟩ := exists_leaves ⟨symbols, simplify⟩ (p := e.arguments)
    (fun c hc => hquote c (List.mem_append_right _ hc)) hends.right e.arraysClosed_arguments true
    (callTarget? [] 0 e.text) (0 + (e.lead ++ e.opening).length) (some e.callee :: base) (out ++ e.opening)
  -- the arguments before the element leave the parentheses as they are
  obtain ⟨frames, rfl, hframes⟩ := ha.frames (List.nil_append _).symm (e.balanced_arguments.depth?_eq 0)
  obtain rfl := List.length_eq_zero_iff.1 hframes
  refine ⟨base, out', ?_, fun {call q} hcall hin => ?_⟩
  · rw [ArgumentText.before, ← List.append_assoc]
    exact ha.sameEnd ((hl.sameEnd (.inl rfl)).append _)
  · have hplace : symbols.isCallable e.callee = true ∨
        callee call (0 + e.lead.length + e.callee.length + e.space.length) = some e.callee := by
      refine e.callee_eq.imp_right fun h => ?_
      rw [Nat.zero_add, ← h]
      refine (hcall _ (Nat.zero_le _) ?_).symm
      simp only [ArgumentText.before, ArgumentText.opening, List.length_append, List.length_singleton]
      omega
    rw [ArgumentText.before, ← List.append_assoc] at hcall ⊢
    have hlead : Reads ⟨symbols, simplify⟩ true call 0 [] [] e.lead (e.opening ++ (e.arguments ++ q)) base out := by
      refine hl.reads (hcall.mono (Nat.le_refl 0) (by simp)) ?_
      rw [ArgumentText.opening, List.append_assoc]
      exact startsInside_name e.isName_callee _
    have hopen : Reads ⟨symbols, simplify⟩ true call (0 + e.lead.length) base out e.opening (e.arguments ++ q)
        (some e.callee :: base) (out ++ e.opening) :=
      reads_opening e.isName_callee e.blank_space e.array?_callee hplace _
    have hargs := ha.reads (hcall.mono (Nat.zero_le _) (by simp [Nat.add_assoc])) hin
    exact (hlead.trans hopen).trans hargs

/-- The element with its index, and how it is passed. -/
theorem rewritten_eq (simplify : Bool) (base : List (Option Text)) {out : Text} (hout : SameEnd out e.before) :
    ∃ index issues, IsIndex index ∧
      rewritten ⟨symbols, simplify⟩ (some e.callee :: base) out (e.back ++ e.rest) e.symbol e.inner =
        let how := passing e.symbol (e.symbol.name ++ "(" ++ e.inner ++ ")") (some e.callee) e.whole
        (how.1 ++ e.symbol.name ++ index, issues ++ how.2) := by
  obtain ⟨issues, hb⟩ := bracket?_of_fitsRank e.fitsRank (e.symbol.name ++ "(" ++ e.inner ++ ")")
    (listItems e.inner)
  obtain ⟨text, hb, hindex⟩ := hb ((settle ⟨symbols, simplify⟩ e.inner).map Prod.fst) (by simp [settle])
  refine ⟨_, issues, hindex.simplified simplify, ?_⟩
  rw [rewritten, render, hb, hout.isWhole_eq, e.isWhole_eq]
  rfl

theorem linearize_text (simplify : Bool) :
    let scope : ReferenceScope := ⟨symbols, simplify⟩
    (∃ index, IsIndex index ∧ (linearize scope e.before).1 ++
      ((if e.whole then ['&'] else []) ++ e.symbol.name ++ index) <+: (linearize scope e.text).1) ∧
    (e.whole = false →
      .computedArgument (e.symbol.name ++ "(" ++ e.inner ++ ")") e.callee ∈ (linearize scope e.text).2) := by
  intro scope
  obtain ⟨base, out, hout, hreads⟩ := e.exists_reads simplify
  have hbefore : (linearize scope e.before).1 = out := by
    have hnil : StartsInside isWord [] := fun c hc => nomatch hc
    obtain ⟨issues, h⟩ := hreads (sameCalls_callTarget? e.before e.after) hnil
    rw [List.append_nil, scan_nil] at h
    rw [linearize, h]
  obtain ⟨index, more, hindex, hrewritten⟩ := e.rewritten_eq simplify base hout
  have hstep : Step scope true (callTarget? [] 0 e.text) (0 + e.before.length) (some e.callee :: base) out
      (e.name ++ (e.gap ++ '(' :: (e.inner ++ [')']))) _ (e.back ++ e.rest) _ _ :=
    .array e.isName e.blank_gap e.array e.balanced
  have hafter : e.after = (e.name ++ (e.gap ++ '(' :: (e.inner ++ [')']))) ++ (e.back ++ e.rest) := by
    simp [ArgumentText.after]
  obtain ⟨issues, h⟩ := hreads (fun _ _ _ => rfl) (show StartsInside isWord e.after from startsInside_name e.isName _)
  rw [hafter, hstep.scan_eq, found, hrewritten, ← hafter] at h
  have htext : linearize scope e.text = _ := h
  rw [htext, hbefore]
  refine ⟨⟨index, hindex, ?_⟩, fun hwhole => ?_⟩
  · have hmark : (passing e.symbol (e.symbol.name ++ "(" ++ e.inner ++ ")") (some e.callee) e.whole).1 =
        if e.whole then ['&'] else [] := by
      cases e.whole <;> rfl
    rw [← hmark]
    exact scan_lead ..
  · simp [hwhole, passing]

end PassedElement

/-- The matrix element of `if (f(x) .gt. 0) call s(f(v(k)), (v(j)), 2*m (i,v(1)) + 1, n)`. -/
def sampleComputed : PassedElement sampleTable where
  lead := "if (f(x) .gt. 0) ".toList ++ ("call".toList ++ [' '])
  callee := "s"
  space := []
  earlier := ["f(v(k))", " (v(j))"]
  front := " 2*"
  name := "m"
  gap := " "
  inner := "i,v(1)"
  back := " + 1"
  rest := ", n)"
  symbol := { name := "m", kind := .matrix, dimensions := ["lda", "n"] }
  called := .statement (by decide) rfl (by decide) (by decide +kernel)
  isName_callee := by decide
  blank_space := List.all_nil
  nested_earlier := by decide
  nested_front := by decide
  no_quote := not_quote_of_all (by decide)
  ends := by decide
  arraysClosed := by decide +kernel
  isName := by decide
  blank_gap := allBlank_spaces 1
  array := by decide
  balanced := by decide
  fitsRank := .inr ⟨rfl, by decide⟩
  nested_back := by decide
  ends_argument := .inl rfl

theorem isName_sampleFunction : IsName "f" := by
  decide

/-- The matrix element of `y = f( x, m (i,j) )`. -/
def sampleWhole : PassedElement sampleTable where
  lead := "y = "
  callee := "f"
  space := []
  earlier := [" x"]
  front := " "
  name := "m"
  gap := " "
  inner := "i,j"
  back := " "
  rest := ")"
  symbol := { name := "m", kind := .matrix, dimensions := ["lda", "n"] }
  called := .function (by decide) (by decide)
  isName_callee := isName_sampleFunction
  blank_space := List.all_nil
  nested_earlier := by decide
  nested_front := by decide
  no_quote := not_quote_of_all (by decide)
  ends := by decide
  arraysClosed := by decide +kernel
  isName := by decide
  blank_gap := allBlank_spaces 1
  array := by decide
  balanced := by decide
  fitsRank := .inr ⟨rfl, by decide⟩
  nested_back := by decide
  ends_argument := .inr rfl

end Reference

namespace Analysis

/-- An element directly in an argument list is a whole argument and passed by its address, or it is
not and reported as part of a computed one. -/
theorem linearize_passedElement (a : Analysis) (line : Option Nat) (e : Reference.PassedElement a.symbols) :
    (∃ index, Reference.IsIndex index ∧ (a.linearize line e.before).2 ++
      ((if e.whole then ['&'] else []) ++ e.symbol.name ++ index) <+: (a.linearize line e.text).2) ∧
    (e.whole = false → ∃ d ∈ (a.linearize line e.text).1.diagnostics, d.code = .computedReference ∧
      d.message = e.symbol.name ++ "(" ++ e.inner ++ ")" ++ " is part of a computed argument to " ++ e.callee ++
        "; it is passed by value" ∧ d.line = line) := by
  obtain ⟨htext, hissue⟩ := e.linearize_text a.options.simplifySubscripts
  refine ⟨htext, fun hwhole => ?_⟩
  have hany : (a.linearize line e.text).1.diagnostics.any (Diagnostic.same (.ofIssue line
      (.computedArgument (e.symbol.name ++ "(" ++ e.inner ++ ")") e.callee))) = true := by
    rw [Analysis.linearize, diagnostics_reportAll]
    exact Diagnostic.any_foldl_add (.inr (List.mem_map_of_mem (hissue hwhole)))
  obtain ⟨d, hd, hsame⟩ := List.any_eq_true.1 hany
  simp only [Diagnostic.same, Bool.and_eq_true, beq_iff_eq] at hsame
  exact ⟨d, hd, hsame.1.1.symm, hsame.1.2.symm, hsame.2.symm⟩

/-- A CALL behind a condition, with elements in its list that are no business of it, and a function. -/
theorem linearize_passedElement_sample :
    let unit := Reference.sampleUnit
    let computed := Reference.sampleComputed
    let whole := Reference.sampleWhole
    computed.text = "if (f(x) .gt. 0) call s(f(v(k)), (v(j)), 2*m (i,v(1)) + 1, n)".toList ∧
      whole.text = "y = f( x, m (i,j) )".toList ∧ computed.whole = false ∧ whole.whole = true ∧
      (∃ d ∈ (unit.linearize none computed.text).1.diagnostics, d.code = .computedReference ∧
        d.message = "m(i,v(1)) is part of a computed argument to s; it is passed by value".toList ∧ d.line = none) ∧
      ∃ index, Reference.IsIndex index ∧ (unit.linearize none whole.before).2 ++ (['&'] ++ ['m'] ++ index) <+:
        (unit.linearize none whole.text).2 := by
  refine ⟨by decide, by decide, by decide, by decide, ?_, ?_⟩
  · obtain ⟨d, hd, hcode, hmessage, hline⟩ :=
      (linearize_passedElement Reference.sampleUnit none Reference.sampleComputed).2 (by decide)
    exact ⟨d, hd, hcode, hmessage.trans (by decide), hline⟩
  · exact (linearize_passedElement Reference.sampleUnit none Reference.sampleWhole).1

/-- In further parentheses an element is passed by value, and nothing is said about it. -/
example : Reference.linearize ⟨Reference.sampleTable, false⟩ "call s(abs(v(i)))" =
    ("call s(abs(v[(i)-1]))".toList, []) := by
  decide +kernel

end Analysis

end FixedForm
