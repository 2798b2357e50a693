import FixedForm.Proofs.Reference.CallTarget
import FixedForm.Proofs.Reference.Expression
import FixedForm.Proofs.Reference.Scan

/-! The references of an expression are settled as its tree says, wherever the expression stands. -/
namespace FixedForm.Reference
open Text

/-- The parenthesis of a CALL lies before the place. -/
def Past (call : Option (Nat × Text)) (i : Nat) : Prop := ∀ place name, call = some (place, name) → place < i

theorem Past.mono {call : Option (Nat × Text)} {i j : Nat} (h : Past call i) (hij : i ≤ j) : Past call j :=
  fun place name hc => Nat.lt_of_lt_of_le (h place name hc) hij

theorem Past.callee {call : Option (Nat × Text)} {i : Nat} (h : Past call i) :
    (call.bind fun (place, name) => if place == i then some name else none) = none := by
  cases call with
  | none => rfl
  | some c =>
    have hne : c.1 ≠ i := Nat.ne_of_lt (h c.1 c.2 rfl)
    simp [hne]

/-- An element between `out` and `rest` is passed by its address. -/
def passes (stack : List (Option Text)) (out rest : Text) : Bool :=
  stack.head?.join.isSome && isWhole out rest

/-- The text of a scan that stands within a number or not. -/
def readText (token : Bool) (scope : ReferenceScope) (top : Bool) (call : Option (Nat × Text)) (i : Nat)
    (stack : List (Option Text)) (out rest : Text) : Text :=
  if token then tokenText scope top call i stack out rest
  else scanText scope top call i stack out rest

section Marks
variable {g t : Text}

theorem marks_of_operator {t : Text} (h : ∀ c ∈ t, isMark c = true) :
    ∀ c ∈ t, isOperand c = false ∧ isQuote c = false ∧ c ≠ '(' ∧ c ≠ ')' := by
  intro c hc
  have hm := h c hc
  simp only [isMark, Bool.and_eq_true, Bool.not_eq_true'] at hm
  have hne {d : Char} (hd : isFlat d = false) : c ≠ d := by
    rintro rfl
    simp [hm.1.2] at hd
  exact ⟨hm.1.1.1.1, hm.1.1.2, hne (by decide), hne (by decide)⟩

theorem firstMark_run (hg : g.allBlank = true) {c : Char} (hc : isBlank c = false) :
    firstMark (g ++ c :: t) = some c := by
  rw [firstMark, trimStart_run hg (.cons hc)]
  rfl

theorem lastMark_run (hg : g.allBlank = true) {c : Char} (hc : isBlank c = false) :
    lastMark (t ++ [c] ++ g) = some c := by
  rw [lastMark, trimEnd_blanks hg, trimEnd_of_last hc]
  simp

end Marks

theorem passes_of_none {stack : List (Option Text)} {out rest : Text} :
    passes (none :: stack) out rest = false := rfl

section Pieces
variable (scope : ReferenceScope) (top : Bool) (call : Option (Nat × Text)) (i : Nat)
  (stack : List (Option Text)) (out : Text)

theorem scanText_blanks {g : Text} (hg : g.allBlank = true) (t : Text) :
    scanText scope top call i stack out (g ++ t) =
      scanText scope top call (i + g.length) stack (out ++ g) t :=
  scanText_marks scope top call i stack out (marks_of_blanks hg) t

theorem readText_of_outside (token : Bool) {rest : Text} (h : StartsOutside isWord rest) :
    readText token scope top call i stack out rest = scanText scope top call i stack out rest := by
  cases token with
  | false => rfl
  | true => exact tokenText_of_outside scope top call i stack out h

theorem readText_number (token : Bool) {w : Text} (hne : w ≠ [])
    (hs : StartsOutside (fun c => !(c.isDigit || c == '.')) w) (hw : ∀ c ∈ w, isOperand c = true)
    {rest : Text} (hr : StartsOutside isWord rest) :
    readText token scope top call i stack out (w ++ rest) =
      scanText scope top call (i + w.length) stack (out ++ w) rest := by
  have ht : readText token scope top call i stack out (w ++ rest) =
      tokenText scope top call i stack out (w ++ rest) := by
    cases token with
    | true => rfl
    | false =>
      obtain ⟨c, w, rfl⟩ := List.exists_cons_of_ne_nil hne
      have hc : (c.isDigit || c == '.') = true := by simpa only [Bool.not_eq_false'] using hs c rfl
      exact scanText_number scope top call i stack out hc (w ++ rest)
  rw [ht, tokenText_run _ _ _ _ _ _ hw, tokenText_of_outside _ _ _ _ _ _ hr]

theorem readText_name (token : Bool) {w rest : Text} (hw : IsName w) (hr : StartsOutside isWord rest)
    (hp : firstMark rest ≠ some '(') :
    readText token scope top call i stack out (w ++ rest) =
      scanText scope top call (i + w.length) stack (out ++ w) rest := by
  cases token with
  | false => exact scanText_name scope top call i stack out hw hr hp
  | true =>
    have ho : ∀ c ∈ w, isOperand c = true := fun c hc => operand_of_word (hw.mem_word.2 c hc)
    exact (tokenText_run scope top call i stack out ho rest).trans
      (tokenText_of_outside scope top call _ stack _ hr)

end Pieces

/-- Reading the text of an expression writes its settled text, and reading arguments up to their
parenthesis writes theirs. -/
def Settles {table : SymbolTable} : {part : Part} → Tree table part → Prop
  | .expr, e => ∀ (token top : Bool) (call : Option (Nat × Text)) (i : Nat)
      (stack : List (Option Text)) (out rest : Text), (token = true → e.leads = false) → Past call i →
      StartsOutside isWord rest → firstMark rest ≠ some '(' →
        readText token ⟨table, false⟩ top call i stack out (e.print ++ rest) =
          scanText ⟨table, false⟩ top call (i + e.print.length) stack
            (out ++ e.settled (passes stack out rest)) rest
  | .args, as => ∀ (top : Bool) (call : Option (Nat × Text)) (i : Nat) (frame : Option Text)
      (stack : List (Option Text)) (out rest : Text), Past call i →
      (lastMark out = some '(' ∨ lastMark out = some ',') →
        scanText ⟨table, false⟩ top call i (frame :: stack) out (as.print ++ ')' :: rest) =
          scanText ⟨table, false⟩ top call (i + as.print.length) (frame :: stack)
            (out ++ as.settled frame.isSome) (')' :: rest)

section Cases
variable {table : SymbolTable}

theorem settles_number (n : Numeral) : Settles (.number n : Tree table .expr) := by
  intro token top call i stack out rest _ _ hr _
  rcases n.signed with h | ⟨sign, digits, h, hs, hd⟩
  · have ht : n.text = n.lead := by rw [Numeral.text, h, List.append_nil]
    simp only [Tree.print, Tree.settled, ht]
    exact readText_number _ top call i stack out token n.ne_nil n.start n.operand hr
  · obtain ⟨hdne, hdig⟩ := mem_of_isDigits hd
    have hsign : isOperand sign = false ∧ isQuote sign = false ∧ sign ≠ '(' ∧ sign ≠ ')' := by
      rcases hs with rfl | rfl <;> decide
    have hw : isWord sign = false := by rcases hs with rfl | rfl <;> decide
    have hstart : StartsOutside (fun c => !(c.isDigit || c == '.')) digits := by
      intro c hc
      simp [hdig c (List.mem_of_mem_head? hc)]
    have hnum := readText_number ⟨table, false⟩ top call (i + n.lead.length + 1) stack
      (out ++ n.lead ++ [sign]) false hdne hstart
      (fun c hc => operand_of_word (word_of_digit (hdig c hc))) hr
    simp only [Tree.print, Tree.settled, Numeral.text, h, List.append_assoc, List.cons_append]
    rw [readText_number _ _ _ _ _ _ _ n.ne_nil n.start n.operand (.cons hw),
      scanText_mark _ _ _ _ _ _ hsign.1 hsign.2.1 hsign.2.2.1 hsign.2.2.2]
    refine hnum.trans ?_
    simp [Nat.add_assoc, Nat.add_comm 1]

theorem settles_name (w : Name) : Settles (.name w : Tree table .expr) :=
  fun token top call i stack out _ _ _ hr hp => readText_name _ top call i stack out token w.2 hr hp

theorem settles_group (p : Pad) {e : Tree table .expr} (ih : Settles e) : Settles (.group p e) := by
  intro token top call i stack out rest _ hc _ _
  have he := ih false top call (i + 1 + p.before.1.length) (none :: stack) (out ++ ['('] ++ p.before.1)
    (p.after.1 ++ ')' :: rest) (by simp) (hc.mono (by omega))
    (outside_word_gap p.after.2 (.cons (by decide)))
    (by rw [firstMark_run p.after.2 (by decide)]; decide)
  have ht : (Tree.group p e).print ++ rest =
      '(' :: (p.before.1 ++ (e.print ++ (p.after.1 ++ ')' :: rest))) := by
    simp [Tree.print, Pad.around]
  rw [ht, readText_of_outside _ _ _ _ _ _ _ (.cons (by decide)), scanText_open, hc.callee,
    scanText_blanks _ _ _ _ _ _ p.before.2]
  refine he.trans ?_
  have hlen : (Tree.group p e).print.length =
      1 + p.before.1.length + e.print.length + p.after.1.length + 1 := by
    simp only [Tree.print, Pad.around, List.length_append]
    have hp : "(".toList.length = 1 ∧ ")".toList.length = 1 := ⟨rfl, rfl⟩
    omega
  rw [scanText_blanks _ _ _ _ _ _ p.after.2, scanText_close, passes_of_none, hlen]
  simp [Tree.settled, Pad.around, Nat.add_assoc]

/-- The first and the last character of an operator, neither of which ends an argument. -/
theorem operator_ends (op : Operator) : ∃ c t u d, op.text = c :: t ∧ op.text = u ++ [d] ∧
    isWord c = false ∧ isBlank c = false ∧ isBlank d = false ∧
      (∀ x ∈ ['(', ')', ','], c ≠ x ∧ d ≠ x) := by
  cases op with
  | marks t hne h =>
    have hmark {c : Char} (hc : c ∈ t) :
        isWord c = false ∧ isBlank c = false ∧ ∀ x ∈ ['(', ')', ','], c ≠ x := by
      have hm := h c hc
      simp only [isMark, isOperand, Bool.and_eq_true, Bool.not_eq_true', Bool.or_eq_false_iff,
        bne_iff_ne] at hm
      refine ⟨hm.1.1.1.1.1, hm.1.1.1.2, fun x hx => ?_⟩
      simp only [List.mem_cons, List.not_mem_nil, or_false] at hx
      rcases hx with rfl | rfl | rfl
      · rintro rfl
        exact absurd hm.1.2 (by decide)
      · rintro rfl
        exact absurd hm.1.2 (by decide)
      · exact hm.2
    obtain ⟨c, v, hc⟩ := List.exists_cons_of_ne_nil hne
    obtain ⟨u, d, hd⟩ := List.eq_nil_or_concat t |>.resolve_left hne
    have hcm := hmark (c := c) (by simp [hc])
    have hdm := hmark (c := d) (by simp [hd])
    exact ⟨c, v, u, d, hc, by simpa [Operator.text] using hd, hcm.1, hcm.2.1, hdm.2.1,
      fun x hx => ⟨hcm.2.2 x hx, hdm.2.2 x hx⟩⟩
  | pointed w h =>
    exact ⟨'.', w ++ ['.'], '.' :: w, '.', rfl, rfl, by decide, by decide, by decide, by simp⟩

/-- Behind an operator the scan stands within a number only if that is the operator itself. -/
theorem scanText_operator (p : Pad) (op : Operator) {leads : Bool}
    (hsp : (op.isPointed && p.after.1.isEmpty && leads) = false) :
    ∃ token : Bool, (token = true → leads = false) ∧
      ∀ (scope : ReferenceScope) (top : Bool) (call : Option (Nat × Text)) (i : Nat)
        (stack : List (Option Text)) (out t : Text),
        scanText scope top call i stack out (p.around op.text ++ t) =
          readText token scope top call (i + (p.around op.text).length) stack
            (out ++ p.around op.text) t := by
  cases op with
  | marks w hne h =>
    refine ⟨false, by simp, fun scope top call i stack out t => ?_⟩
    have he : p.around w ++ t = p.before.1 ++ (w ++ (p.after.1 ++ t)) := by simp [Pad.around]
    rw [Operator.text, he, scanText_blanks _ _ _ _ _ _ p.before.2,
      scanText_marks _ _ _ _ _ _ (marks_of_operator h), scanText_blanks _ _ _ _ _ _ p.after.2]
    simp [readText, Pad.around, Nat.add_assoc]
  | pointed w h =>
    have hop : ∀ c ∈ '.' :: w ++ ['.'], isOperand c = true := by
      intro c hc
      simp only [List.cons_append, List.mem_cons, List.mem_append, List.not_mem_nil, or_false] at hc
      rcases hc with rfl | hc | rfl
      · rfl
      · exact operand_of_word (h c hc)
      · rfl
    have hpoint (scope : ReferenceScope) (top : Bool) (call : Option (Nat × Text)) (i : Nat)
        (stack : List (Option Text)) (out t : Text) :
        scanText scope top call i stack out (p.around ('.' :: w ++ ['.']) ++ t) =
          tokenText scope top call (i + p.before.1.length + ('.' :: w ++ ['.']).length) stack
            (out ++ p.before.1 ++ ('.' :: w ++ ['.'])) (p.after.1 ++ t) := by
      have he : p.around ('.' :: w ++ ['.']) ++ t =
          p.before.1 ++ (('.' :: w ++ ['.']) ++ (p.after.1 ++ t)) := by simp [Pad.around]
      rw [he, scanText_blanks _ _ _ _ _ _ p.before.2, ← tokenText_run _ _ _ _ _ _ hop]
      exact scanText_number _ _ _ _ _ _ (by decide) _
    by_cases ha : p.after.1 = []
    · refine ⟨true, fun _ => ?_, fun scope top call i stack out t => ?_⟩
      · simpa [Operator.isPointed, ha] using hsp
      · refine (hpoint scope top call i stack out t).trans ?_
        simp [readText, Pad.around, ha, Operator.text, Nat.add_assoc]
    · refine ⟨false, by simp, fun scope top call i stack out t => ?_⟩
      have hout : StartsOutside isWord (p.after.1 ++ t) :=
        .append ha (List.append_nil p.after.1 ▸ outside_word_gap p.after.2 .nil)
      refine (hpoint scope top call i stack out t).trans ?_
      rw [tokenText_of_outside _ _ _ _ _ _ hout, scanText_blanks _ _ _ _ _ _ p.after.2]
      simp [readText, Pad.around, Operator.text, Nat.add_assoc, Nat.add_comm 2]

theorem settles_binary (p : Pad) (op : Operator) {l r : Tree table .expr} (ihl : Settles l)
    (ihr : Settles r) (hsp : (op.isPointed && p.after.1.isEmpty && r.leads) = false) :
    Settles (.binary l p op r) := by
  intro token top call i stack out rest ht hc hw hp
  obtain ⟨c, t, u, d, hct, hud, hcw, hcb, hdb, hne⟩ := operator_ends op
  obtain ⟨token', ht', hop⟩ := scanText_operator p op hsp
  have hlast (out : Text) : passes stack (out ++ p.around op.text) rest = false := by
    have hl : lastMark (out ++ p.around op.text) = some d := by
      rw [Pad.around, hud, ← List.append_assoc, ← List.append_assoc, ← List.append_assoc]
      exact lastMark_run p.after.2 hdb
    simp [passes, isWhole, hl, (hne '(' (by simp)).2, (hne ',' (by simp)).2]
  have hfirst (t : Text) : firstMark (p.around op.text ++ t) = some c := by
    rw [Pad.around, hct, List.append_assoc, List.append_assoc]
    exact firstMark_run p.before.2 hcb
  have hnext (t : Text) : passes stack out (p.around op.text ++ t) = false := by
    simp [passes, isWhole, hfirst, (hne ')' (by simp)).1, (hne ',' (by simp)).1]
  have hgap (t : Text) : StartsOutside isWord (p.around op.text ++ t) := by
    rw [Pad.around, hct, List.append_assoc, List.append_assoc]
    exact outside_word_gap p.before.2 (.cons hcw)
  have hl := ihl token top call i stack out (p.around op.text ++ (r.print ++ rest)) ht hc (hgap _)
    (by rw [hfirst]; simpa using (hne '(' (by simp)).1)
  have hr := ihr token' top call (i + l.print.length + (p.around op.text).length) stack
    (out ++ l.settled false ++ p.around op.text) rest ht' (hc.mono (by omega)) hw hp
  have he : (Tree.binary l p op r).print ++ rest = l.print ++ (p.around op.text ++ (r.print ++ rest)) := by
    simp [Tree.print]
  rw [he, hl, hnext, hop, hr, hlast]
  simp [Tree.print, Tree.settled, Nat.add_assoc]

/-- The arguments of a reference, from its parenthesis on. -/
theorem scanText_args {args : Tree table .args} (ih : Settles args) (top : Bool)
    (call : Option (Nat × Text)) (i : Nat) (frame : Option Text) (stack : List (Option Text))
    (out rest : Text) (hc : Past call i) :
    scanText ⟨table, false⟩ top call i (frame :: stack) (out ++ ['(']) (args.print ++ ')' :: rest) =
      scanText ⟨table, false⟩ top call (i + args.print.length + 1) stack
        (out ++ ['('] ++ args.settled frame.isSome ++ [')']) rest := by
  have hlast : lastMark (out ++ ['(']) = some '(' := by
    simpa using lastMark_run (t := out) (g := []) rfl (c := '(') (by decide)
  rw [ih top call i frame stack _ rest hc (.inl hlast), scanText_close]
  rfl

theorem settles_apply (f : Name) (h : table.array? f.1 = none) (g : Blanks) {args : Tree table .args}
    (ih : Settles args) : Settles (.apply f h g args) := by
  intro token top call i stack out rest ht hc hw hp
  have he : (Tree.apply f h g args).print ++ rest =
      f.1 ++ (g.1 ++ '(' :: (args.print ++ ')' :: rest)) := by simp [Tree.print]
  rw [he]
  cases hcall : table.isCallable f.1 with
  | true =>
    have htok : token = false := by
      cases token with
      | false => rfl
      | true => simp [Tree.leads, hcall] at ht
    subst htok
    have ha := scanText_args ih top call (i + f.1.length + g.1.length + 1) (some f.1) stack
      (out ++ f.1 ++ g.1) rest (hc.mono (by omega))
    refine (scanText_callable ⟨table, false⟩ top call i stack out f.2 g.2 h hcall).trans (ha.trans ?_)
    simp [Tree.print, Tree.settled, hcall, Nat.add_assoc, Nat.add_comm 1]
  | false =>
    have hgap : StartsOutside isWord (g.1 ++ '(' :: (args.print ++ ')' :: rest)) :=
      outside_word_gap g.2 (.cons (by decide))
    have hname : readText token ⟨table, false⟩ top call i stack out
        (f.1 ++ (g.1 ++ '(' :: (args.print ++ ')' :: rest))) =
          scanText ⟨table, false⟩ top call (i + f.1.length) stack (out ++ f.1)
            (g.1 ++ '(' :: (args.print ++ ')' :: rest)) := by
      cases token with
      | false => exact scanText_plain ⟨table, false⟩ top call i stack out f.2 g.2 h hcall
      | true =>
        have ho : ∀ c ∈ f.1, isOperand c = true := fun c hc => operand_of_word (f.2.mem_word.2 c hc)
        exact (tokenText_run _ top call i stack out ho _).trans (tokenText_of_outside _ _ _ _ _ _ hgap)
    have hpast : Past call (i + f.1.length + g.1.length) := hc.mono (by omega)
    have ha := scanText_args ih top call (i + f.1.length + g.1.length + 1) none stack
      (out ++ f.1 ++ g.1) rest (hc.mono (by omega))
    rw [hname, scanText_blanks _ _ _ _ _ _ g.2, scanText_open, hpast.callee]
    refine ha.trans ?_
    simp [Tree.print, Tree.settled, hcall, Nat.add_assoc, Nat.add_comm 1]

/-- The text of a settled element: the name of the table and the new index. -/
theorem render_element {s : Symbol} {inner bracket : Text} {terms settled : List Text}
    {stack : List (Option Text)} {out rest : Text}
    (h : (bracket? s (s.name ++ "(" ++ inner ++ ")") terms settled).1 = some bracket) :
    (render ⟨table, false⟩ s inner terms settled stack.head?.join out rest).1 =
      Tree.mark (passes stack out rest) ++ s.name ++ bracket := by
  rw [render]
  generalize bracket? s (s.name ++ "(" ++ inner ++ ")") terms settled = b at h
  obtain ⟨_, issues⟩ := b
  cases h
  simp only [passing, passes]
  cases stack.head?.join with
  | none => rfl
  | some callee =>
    cases isWhole out rest with
    | true => rfl
    | false => rfl

/-- An index term by itself. -/
theorem scanText_term {e : Tree table .expr} (ih : Settles e) :
    scanText ⟨table, false⟩ false none 0 [] [] e.print = e.settled false := by
  have h := ih false false none 0 [] [] [] (by simp) (by simp [Past]) .nil (by decide)
  rw [List.append_nil] at h
  exact h.trans (scanText_nil ..)

theorem settles_vector (v : Name) (s : Symbol) (hs : table.array? v.1 = some s) (hk : s.kind = .vector)
    (g : Blanks) (p : Pad) {e : Tree table .expr} (ih : Settles e) :
    Settles (.vector v s hs hk g p e) := by
  intro token top call i stack out rest ht hc hw hp
  cases token with
  | true => exact absurd (ht rfl) (by simp [Tree.leads])
  | false =>
    have hn : Nested (p.around e.print) := (Tree.nested_around p e.nests_print).nested
    have hitems : listItems (p.around e.print) = [e.print] := by
      rw [listItems, splitCommas_item (Tree.nested_around p e.nests_print)]
      simp [(e.solid_print rfl).trim_around p]
    have hr := scanText_array ⟨table, false⟩ top call i stack out v.2 g.2 hs hn rest
    have htext : (render ⟨table, false⟩ s (p.around e.print) [e.print] [e.settled false]
        stack.head?.join out rest).1 =
          Tree.mark (passes stack out rest) ++ s.name ++ vectorSubscript (e.settled false) := by
      refine render_element ?_
      simp only [bracket?, hk]
    have he : (Tree.vector v s hs hk g p e).print ++ rest =
        v.1 ++ (g.1 ++ '(' :: (p.around e.print ++ ')' :: rest)) := by simp [Tree.print]
    rw [hitems, List.map_cons, List.map_nil, scanText_term ih, htext] at hr
    rw [he]
    refine hr.trans ?_
    simp [Tree.print, Tree.settled, vectorSubscript, Nat.add_assoc]

theorem settled_matrix {m : Name} {s : Symbol} {hs : table.array? m.1 = some s} {hk : s.kind = .matrix}
    {leading : Text} {hd : s.dimensions.head? = some leading} {g : Blanks} {p q : Pad}
    {e e' : Tree table .expr} (passed : Bool) :
    (Tree.matrix m s hs hk leading hd g p e q e').settled passed =
      Tree.mark passed ++ s.name ++ matrixSubscript (e.settled false) (e'.settled false) leading := by
  have h (a b : Text) : a ++ (b ++ ("[((" ++ e.settled false ++ ")-1)+((" ++ e'.settled false ++
      ")-1)*(" ++ leading ++ ")]")) = a ++ b ++ "[((" ++ e.settled false ++ ")-1)+((" ++
        e'.settled false ++ ")-1)*(" ++ leading ++ ")]" := by
    simp only [List.append_assoc]
  rw [List.append_assoc]
  exact (h _ _).symm

theorem settles_matrix (m : Name) (s : Symbol) (hs : table.array? m.1 = some s) (hk : s.kind = .matrix)
    (leading : Text) (hd : s.dimensions.head? = some leading) (g : Blanks) (p q : Pad)
    {e e' : Tree table .expr} (ih : Settles e) (ih' : Settles e') :
    Settles (.matrix m s hs hk leading hd g p e q e') := by
  intro token top call i stack out rest ht hc hw hp
  cases token with
  | true => exact absurd (ht rfl) (by simp [Tree.leads])
  | false =>
    have h₁ := Tree.nested_around p e.nests_print
    have h₂ := Tree.nested_around q e'.nests_print
    have hn : Nested (p.around e.print ++ ',' :: q.around e'.print) :=
      h₁.nested.append ((by decide : Nested [',']).append h₂.nested)
    have hitems : listItems (p.around e.print ++ ',' :: q.around e'.print) = [e.print, e'.print] := by
      rw [listItems, splitCommas_cons h₁, splitCommas_item h₂]
      simp [(e.solid_print rfl).trim_around p, (e'.solid_print rfl).trim_around q]
    have hr := scanText_array ⟨table, false⟩ top call i stack out m.2 g.2 hs hn rest
    have htext : (render ⟨table, false⟩ s (p.around e.print ++ ',' :: q.around e'.print)
        [e.print, e'.print] [e.settled false, e'.settled false] stack.head?.join out rest).1 =
          Tree.mark (passes stack out rest) ++ s.name ++
            matrixSubscript (e.settled false) (e'.settled false) leading := by
      refine render_element ?_
      simp only [bracket?, hk, leadingDimension, hd, Option.getD_some]
    have he : (Tree.matrix m s hs hk leading hd g p e q e').print ++ rest =
        m.1 ++ (g.1 ++ '(' :: (p.around e.print ++ ',' :: q.around e'.print ++ ')' :: rest)) := by
      simp [Tree.print]
    rw [hitems, List.map_cons, List.map_cons, List.map_nil, scanText_term ih, scanText_term ih', htext]
      at hr
    have hlen : (Tree.matrix m s hs hk leading hd g p e q e').print.length =
        m.1.length + g.1.length + ((p.around e.print ++ ',' :: q.around e'.print).length + 1) + 1 := by
      simp [Tree.print]
      omega
    rw [he, hlen]
    refine hr.trans ?_
    simp only [settled_matrix, Nat.add_assoc]

/-- One argument, between two of the characters around arguments. -/
theorem scanText_argument (p : Pad) {e : Tree table .expr} (ih : Settles e) (top : Bool)
    (call : Option (Nat × Text)) (i : Nat) (frame : Option Text) (stack : List (Option Text))
    (out t : Text) {c : Char} (hc : Past call i)
    (ho : lastMark out = some '(' ∨ lastMark out = some ',') (ht : c = ',' ∨ c = ')') :
    scanText ⟨table, false⟩ top call i (frame :: stack) out (p.around e.print ++ c :: t) =
      scanText ⟨table, false⟩ top call (i + (p.around e.print).length) (frame :: stack)
        (out ++ p.around (e.settled frame.isSome)) (c :: t) := by
  have hcb : isBlank c = false ∧ isWord c = false ∧ c ≠ '(' := by rcases ht with rfl | rfl <;> decide
  have hf : firstMark (p.after.1 ++ c :: t) = some c := firstMark_run p.after.2 hcb.1
  have hl : lastMark (out ++ p.before.1) = lastMark out := by
    rw [lastMark, trimEnd_blanks p.before.2, lastMark]
  have hpass : passes (frame :: stack) (out ++ p.before.1) (p.after.1 ++ c :: t) = frame.isSome := by
    rcases ho with ho | ho <;> rcases ht with rfl | rfl <;> simp [passes, isWhole, hf, hl, ho]
  have hread := ih false top call (i + p.before.1.length) (frame :: stack) (out ++ p.before.1)
    (p.after.1 ++ c :: t) (by simp) (hc.mono (by omega))
    (outside_word_gap p.after.2 (.cons hcb.2.1)) (by rw [hf]; simpa using hcb.2.2)
  have he : p.around e.print ++ c :: t = p.before.1 ++ (e.print ++ (p.after.1 ++ c :: t)) := by
    simp [Pad.around]
  rw [he, scanText_blanks _ _ _ _ _ _ p.before.2]
  refine hread.trans ?_
  rw [scanText_blanks _ _ _ _ _ _ p.after.2, hpass]
  simp [Pad.around, Nat.add_assoc]

theorem settles_more (p : Pad) {e : Tree table .expr} {args : Tree table .args} (ih : Settles e)
    (iha : Settles args) : Settles (.more p e args) := by
  intro top call i frame stack out rest hc ho
  have he : (Tree.more p e args).print ++ ')' :: rest =
      p.around e.print ++ ',' :: (args.print ++ ')' :: rest) := by simp [Tree.print]
  have hlast : lastMark (out ++ p.around (e.settled frame.isSome) ++ [',']) = some ',' := by
    simpa using lastMark_run (t := out ++ p.around (e.settled frame.isSome)) (g := []) rfl (c := ',')
      (by decide)
  have ha := iha top call (i + (p.around e.print).length + 1) frame stack
    (out ++ p.around (e.settled frame.isSome) ++ [',']) rest (hc.mono (by omega)) (.inr hlast)
  rw [he, scanText_argument p ih top call i frame stack out _ hc ho (.inl rfl),
    scanText_mark _ _ _ _ _ _ (by decide) (by decide) (by decide) (by decide), ha]
  simp [Tree.print, Tree.settled, Nat.add_assoc, Nat.add_comm 1]

end Cases

/-- The induction over the tree, one constructor at a time. -/
theorem Tree.settles {table : SymbolTable} {part : Part} (e : Tree table part)
    (h : e.spaced = true) : Settles e := by
  induction e with
  | number n => exact settles_number n
  | name w => exact settles_name w
  | group p e ih => exact settles_group p (ih h)
  | binary l p op r ihl ihr =>
    simp only [spaced, Bool.and_eq_true, Bool.not_eq_true'] at h
    exact settles_binary p op (ihl h.1.1) (ihr h.1.2) h.2
  | apply f hf g args ih => exact settles_apply f hf g (ih h)
  | vector v s hs hk g p e ih => exact settles_vector v s hs hk g p (ih h)
  | matrix m s hs hk leading hd g p e q e' ih ih' =>
    simp only [spaced, Bool.and_eq_true] at h
    exact settles_matrix m s hs hk leading hd g p q (ih h.1) (ih' h.2)
  | none g =>
    intro top call i frame stack out rest hc ho
    exact scanText_blanks ⟨table, false⟩ top call i (frame :: stack) out g.2 _
  | last p e ih =>
    intro top call i frame stack out rest hc ho
    exact scanText_argument p (ih h) top call i frame stack out rest hc ho (.inr rfl)
  | more p e rest ih ihr =>
    simp only [spaced, Bool.and_eq_true] at h
    exact settles_more p (ih h.1) (ihr h.2)

theorem edgeAfter_call (e : Edge) {g : Text} (hg : g.allBlank = true) (hne : g ≠ []) {c : Char}
    (hc : isWord c = true) (t : Text) : edgeAfter e ("call" ++ (g ++ c :: t)) = none := by
  rw [edgeAfter_append]
  by_cases he : e = .gap
  · subst he
    rfl
  · rw [edgeAfter_word (List.all_eq_true.1 (by decide)) he, Option.bind_some, edgeAfter_append,
      edgeAfter_blanks hg]
    simp [edgeAfter, Edge.next, hc, hne]

/-- Without a word behind a word and blanks there is no CALL. -/
theorem callTarget?_of_edges {t : Text} {e x : Edge} (h : edgeAfter e t = some x) (before : Text)
    (i : Nat) : callTarget? before i t = none := by
  induction t generalizing e before i with
  | nil => rfl
  | cons c t ih =>
    obtain ⟨e', -, h'⟩ := Option.bind_eq_some_iff.1 h
    obtain ⟨k, name, hc, -⟩ | ⟨-, he⟩ := callTarget?_cases before i c t
    · generalize c :: t = u at h hc
      cases hc with
      | intro rest hb hg hne hn hw hg' =>
        obtain ⟨d, w, rfl⟩ := List.exists_cons_of_ne_nil hn
        rw [List.cons_append, edgeAfter_call e hg hne (hw d List.mem_cons_self)] at h
        cases h
    · rw [he, ih h']

/-- The place of the parenthesis of a CALL. -/
theorem callTarget?_call {lead g g' : Text} (hl : lead.allBlank = true) (hg : g.allBlank = true)
    (hne : g ≠ []) {s : Text} (hs : IsName s) (hg' : g'.allBlank = true) (t : Text) :
    callTarget? [] 0 (lead ++ ("call" ++ (g ++ (s ++ (g' ++ '(' :: t))))) =
      some (lead.length + 4 + g.length + s.length + g'.length, s) := by
  have hhead : CallHead (lead.reverse ++ []) ("call" ++ (g ++ (s ++ (g' ++ '(' :: t))))
      (4 + g.length + s.length + g'.length) s := by
    refine .intro t (wordEnds_of_outside fun c hc => ?_) hg hne hs.mem_word.1 hs.mem_word.2 hg'
    rw [List.append_nil] at hc
    exact not_word_of_blank (mem_of_allBlank hl c (List.mem_reverse.1 (List.mem_of_mem_head? hc)))
  rw [callTarget?_first 0 hhead (noCall_blanks hl [] _)]
  simp [Nat.add_assoc]

/-- A statement is an expression, or the CALL of something that is no array. -/
inductive Source (table : SymbolTable) where
  | expression (lead : Blanks) (e : Tree table .expr)
  | call (lead g : Blanks) (hg : g.1 ≠ []) (s : Name) (hs : table.array? s.1 = none) (g' : Blanks)
      (args : Tree table .args)

namespace Source
variable {table : SymbolTable}

def print : Source table → Text
  | .expression lead e => lead.1 ++ e.print
  | .call lead g _ s _ g' args => lead.1 ++ "call" ++ g.1 ++ s.1 ++ g'.1 ++ "(" ++ args.print ++ ")"

def settled : Source table → Text
  | .expression lead e => lead.1 ++ e.settled false
  | .call lead g _ s _ g' args =>
    lead.1 ++ "call" ++ g.1 ++ s.1 ++ g'.1 ++ "(" ++ args.settled true ++ ")"

def spaced : Source table → Bool
  | .expression _ e => e.spaced
  | .call _ _ _ _ _ _ args => args.spaced

theorem scanText_expression (lead : Blanks) {e : Tree table .expr} (h : e.spaced = true) :
    scanText ⟨table, false⟩ true (callTarget? [] 0 (lead.1 ++ e.print)) 0 [] [] (lead.1 ++ e.print) =
      lead.1 ++ e.settled false := by
  have hcall : callTarget? [] 0 (lead.1 ++ e.print) = none := by
    obtain ⟨x, hx, -⟩ := e.edgeAfter_print
    refine callTarget?_of_edges (e := .clear) (x := x) ?_ [] 0
    rw [edgeAfter_append, edgeAfter_blanks lead.2]
    simpa using hx
  have he := e.settles h false true none (0 + lead.1.length) [] ([] ++ lead.1) [] (by simp)
    (by simp [Past]) .nil (by decide)
  rw [List.append_nil] at he
  rw [hcall, scanText_blanks _ _ _ _ _ _ lead.2]
  exact he.trans (scanText_nil ..)

/-- The arguments of a CALL are those of a procedure, whether its name is a callable scalar or is not
declared. -/
theorem scanText_call (lead g g' : Blanks) (hg : g.1 ≠ []) (s : Name) (hs : table.array? s.1 = none)
    {args : Tree table .args} (h : args.spaced = true) :
    let t := lead.1 ++ ("call" ++ (g.1 ++ (s.1 ++ (g'.1 ++ '(' :: (args.print ++ [')'])))))
    scanText ⟨table, false⟩ true (callTarget? [] 0 t) 0 [] [] t =
      lead.1 ++ "call" ++ g.1 ++ s.1 ++ g'.1 ++ "(" ++ args.settled true ++ ")" := by
  intro t
  have hcall : callTarget? [] 0 t = _ := callTarget?_call lead.2 g.2 hg s.2 g'.2 (args.print ++ [')'])
  have hname : IsName "call".toList := ⟨by decide, .cons (by decide)⟩
  obtain ⟨c, u, hcu, hcw, -⟩ := s.2.startsName (g'.1 ++ '(' :: (args.print ++ [')']))
  have hgap : StartsOutside isWord (g.1 ++ (s.1 ++ (g'.1 ++ '(' :: (args.print ++ [')'])))) :=
    .append hg (List.append_nil g.1 ▸ outside_word_gap g.2 .nil)
  have hfirst : firstMark (g.1 ++ (s.1 ++ (g'.1 ++ '(' :: (args.print ++ [')'])))) ≠ some '(' := by
    rw [hcu, firstMark_run g.2 (not_blank_of_word hcw)]
    rintro ⟨rfl⟩
    exact absurd hcw (by decide)
  have hplace : lead.1.length + 4 + g.1.length + s.1.length + g'.1.length =
      0 + lead.1.length + "call".toList.length + g.1.length + s.1.length + g'.1.length := by
    have h4 : "call".toList.length = 4 := rfl
    omega
  rw [hcall, hplace, scanText_blanks _ _ _ _ _ _ lead.2, scanText_name _ _ _ _ _ _ hname hgap hfirst,
    scanText_blanks _ _ _ _ _ _ g.2]
  generalize 0 + lead.1.length + "call".toList.length + g.1.length = i
  have hpast : Past (some (i + s.1.length + g'.1.length, s.1)) (i + s.1.length + g'.1.length + 1) := by
    intro place name hc
    cases hc
    exact Nat.lt_succ_self _
  have hargs := scanText_args (args.settles h) true _ _ (some s.1) []
    ([] ++ lead.1 ++ "call".toList ++ g.1 ++ s.1 ++ g'.1) [] hpast
  rw [scanText_nil] at hargs
  cases hcallable : table.isCallable s.1 with
  | true =>
    rw [scanText_callable ⟨table, false⟩ _ _ _ _ _ s.2 g'.2 hs hcallable]
    exact hargs
  | false =>
    rw [scanText_plain ⟨table, false⟩ _ _ _ _ _ s.2 g'.2 hs hcallable, scanText_blanks _ _ _ _ _ _ g'.2,
      scanText_open]
    simpa using hargs

end Source

/-- Every element of an array in a statement gets one index and nothing else changes; an element is
passed by its address where it is a whole argument of a procedure and nowhere else. -/
theorem linearize_settles (a : Analysis) (hs : a.options.simplifySubscripts = false)
    (line : Option Nat) (src : Source a.symbols) (h : src.spaced = true) :
    (a.linearize line src.print).2 = src.settled := by
  have hscope : a.referenceScope = ⟨a.symbols, false⟩ := by rw [Analysis.referenceScope, hs]
  change (Reference.linearize a.referenceScope src.print).1 = src.settled
  rw [hscope]
  cases src with
  | expression lead e => exact Source.scanText_expression lead h
  | call lead g hg s hsym g' args =>
    have hp : (Source.call lead g hg s hsym g' args).print =
        lead.1 ++ ("call" ++ (g.1 ++ (s.1 ++ (g'.1 ++ '(' :: (args.print ++ [')']))))) := by
      simp [Source.print]
    rw [hp]
    exact Source.scanText_call lead g g' hg s hsym h

/-- A vector, a matrix and a scalar that may be called. -/
def sampleTable : SymbolTable := ⟨[
  { name := "v", kind := .vector, dimensions := ["n"] },
  { name := "m", kind := .matrix, dimensions := ["lda", "n"] },
  { name := "f", kind := .scalar }]⟩

def sampleUnit : Analysis := { options := { simplifySubscripts := false }, symbols := sampleTable }

def sampleName (w : Text) (h : w.isWordText = true) (hd : w.all (!Char.isDigit ·) = true) : Name :=
  ⟨w, h, fun c hc => by simpa using List.all_eq_true.1 hd c (List.mem_of_mem_head? hc)⟩

/-- The statement `call s(v(i), f(m(j,v(i))), x .eq. v(i))`. -/
def sampleCall : Source sampleTable :=
  let none : Blanks := ⟨[], rfl⟩
  let one : Blanks := ⟨" ", rfl⟩
  let i := Tree.name (sampleName "i" rfl rfl)
  let vi := Tree.vector (sampleName "v" rfl rfl) { name := "v", kind := .vector, dimensions := ["n"] }
    (by decide) rfl none ⟨none, none⟩ i
  let mjvi := Tree.matrix (sampleName "m" rfl rfl)
    { name := "m", kind := .matrix, dimensions := ["lda", "n"] } (by decide) rfl "lda" rfl none
    ⟨none, none⟩ (.name (sampleName "j" rfl rfl)) ⟨none, none⟩ vi
  .call none one (by decide) (sampleName "s" rfl rfl) (by decide) none
    (.more ⟨none, none⟩ vi (.more ⟨one, none⟩
      (.apply (sampleName "f" rfl rfl) (by decide) none (.last ⟨none, none⟩ mjvi))
      (.last ⟨one, none⟩ (.binary (.name (sampleName "x" rfl rfl)) ⟨one, one⟩
        (.pointed "eq" (List.all_eq_true.1 (by decide))) vi))))

theorem linearize_sampleCall :
    sampleCall.print = "call s(v(i), f(m(j,v(i))), x .eq. v(i))".toList ∧
    (sampleUnit.linearize none sampleCall.print).2 =
      "call s(&v[(i)-1], f(&m[((j)-1)+((v[(i)-1])-1)*(lda)]), x .eq. v[(i)-1])".toList :=
  ⟨by decide, (linearize_settles sampleUnit rfl none sampleCall (by decide)).trans
    (by decide)⟩

/-- An array element right behind the point of an operator stays as it is written. -/
example : (sampleUnit.linearize none "x.eq.v(i)").2 = "x.eq.v(i)".toList := by cbv

end FixedForm.Reference
