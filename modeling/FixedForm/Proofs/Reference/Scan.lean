import FixedForm.Proofs.Text.Classes
import FixedForm.Proofs.Text.Parens
import FixedForm.Reference.Linearize

/-! The scan for references, branch by branch: in full, and as far as the text goes. -/
namespace FixedForm.Reference
open Text

theorem not_quote_of_operand {c : Char} (h : isOperand c = true) : isQuote c = false := by
  rw [isQuote, Bool.or_eq_false_iff, beq_eq_false_iff_ne, beq_eq_false_iff_ne]
  constructor <;> rintro rfl <;> exact absurd h (by decide)

theorem operand_of_word {c : Char} (h : isWord c = true) : isOperand c = true := by
  simp [isOperand, h]

theorem operand_of_number {c : Char} (h : (c.isDigit || c == '.') = true) : isOperand c = true := by
  rw [Bool.or_eq_true] at h
  rcases h with h | h
  · exact operand_of_word (word_of_digit h)
  · simp [isOperand, h]

theorem marks_of_blanks {g : Text} (hg : g.allBlank = true) :
    ∀ c ∈ g, isOperand c = false ∧ isQuote c = false ∧ c ≠ '(' ∧ c ≠ ')' := by
  intro c hc
  have hb := mem_of_allBlank hg c hc
  have hne {d : Char} (hd : isBlank d = false) : c ≠ d := by
    rintro rfl
    simp [hb] at hd
  simp [isOperand, not_word_of_blank hb, isQuote, hne (d := '.') (by decide),
    hne (d := '\x27') (by decide), hne (d := '"') (by decide), hne (d := '(') (by decide),
    hne (d := ')') (by decide)]

theorem firstMark_append (t u : Text) : firstMark (t ++ u) = (firstMark t).or (firstMark u) := by
  induction t with
  | nil => rfl
  | cons c t ih =>
    simp only [firstMark, trimStart, List.cons_append, List.dropWhile_cons] at ih ⊢
    split
    · exact ih
    · rfl

theorem exists_opening {t : Text} (h : firstMark t = some '(') :
    ∃ g u : Text, t = g ++ '(' :: u ∧ g.allBlank = true := by
  have ht := List.takeWhile_append_dropWhile (p := isBlank) (l := t)
  obtain ⟨u, hu⟩ := List.head?_eq_some_iff.1 h
  rw [trimStart] at hu
  exact ⟨t.takeWhile isBlank, u, by rw [← hu, ht], allBlank_takeWhile⟩

theorem name_start {w : Text} (hw : IsName w) : ∃ (c : Char) (t : Text), w = c :: t ∧
    isQuote c = false ∧ (c.isDigit || c == '.') = false ∧ (c.isAlpha || c == '_') = true ∧
      ∀ c ∈ t, isWord c = true := by
  obtain ⟨hne, hall⟩ := hw.mem_word
  obtain ⟨c, t, rfl⟩ := List.exists_cons_of_ne_nil hne
  have hc : isWord c = true := hall c (by simp)
  have hd : c.isDigit = false := hw.start c rfl
  have hdot : (c == '.') = false := by
    rw [beq_eq_false_iff_ne]
    rintro rfl
    exact absurd hc (by decide)
  refine ⟨c, t, rfl, not_quote_of_operand (operand_of_word hc), by rw [hd, hdot]; rfl, ?_,
    fun c hc => hall c (by simp [hc])⟩
  simpa only [isWord, Char.isAlphanum, hd, Bool.or_false] using hc

section Branches
variable (scope : ReferenceScope) (top : Bool) (call : Option (Nat × Text)) (i : Nat)
  (stack : List (Option Text)) (out : Text)

theorem scan_nil : scan scope top call i stack out [] =
    (out, if top && !stack.isEmpty then [.mismatch (.unclosed '(')] else []) := by
  rw [scan]

theorem scan_number {c : Char} (hc : (c.isDigit || c == '.') = true) (t : Text) :
    scan scope top call i stack out (c :: t) =
      scan scope top call (i + ((c :: t).takeWhile isOperand).length) stack
        (out ++ (c :: t).takeWhile isOperand) ((c :: t).dropWhile isOperand) := by
  have ho := operand_of_number hc
  rw [scan, not_quote_of_operand ho]
  simp [ho, hc]

section Literal
variable {q : Char} {w : Text} (hq : isQuote q = true) (hw : q ∉ w)
include hq hw

theorem scan_literal (t : Text) :
    scan scope top call i stack out (q :: (w ++ q :: t)) =
      scan scope top call (i + (q :: (w ++ [q])).length) stack (out ++ q :: (w ++ [q])) t := by
  have hrun : ∀ c ∈ w, (c != q) = true := fun c hc => by simpa using fun he : c = q => hw (he ▸ hc)
  have hend : StartsOutside (· != q) (q :: t) := .cons (bne_self_eq_false q)
  have hdrop := dropWhile_run hrun hend
  rw [scan, if_pos hq]
  split
  · next h => rw [hdrop] at h; cases h
  · next h =>
    rw [hdrop] at h
    obtain ⟨rfl, rfl⟩ := List.cons.inj h
    rw [takeWhile_run hrun hend]
    rfl

/-- A literal that never ends takes all that follows. -/
theorem scan_openLiteral :
    scan scope top call i stack out (q :: w) = scan scope top call (i + (q :: w).length) stack (out ++ q :: w) [] := by
  have hrun : ∀ c ∈ w, (c != q) = true := fun c hc => by simpa using fun he : c = q => hw (he ▸ hc)
  have hdrop := dropWhile_run hrun (StartsOutside.nil (p := (· != q)))
  rw [List.append_nil] at hdrop
  rw [scan_nil, scan, if_pos hq]
  split
  · rw [scan_nil]
  · next h => rw [hdrop] at h; cases h

end Literal

/-- Blanks, commas and the marks of operators stay. -/
theorem scan_mark {c : Char} (ho : isOperand c = false) (hq : isQuote c = false) (hp : c ≠ '(')
    (hp' : c ≠ ')') (t : Text) :
    scan scope top call i stack out (c :: t) = scan scope top call (i + 1) stack (out ++ [c]) t := by
  have hw : isWord c = false := by
    cases hw : isWord c with
    | false => rfl
    | true => simp [operand_of_word hw] at ho
  have hn : (c.isDigit || c == '.') = false := by
    cases hn : (c.isDigit || c == '.') with
    | false => rfl
    | true => simp [operand_of_number hn] at ho
  have ha : (c.isAlpha || c == '_') = false := by
    simp only [isWord, Char.isAlphanum, Bool.or_eq_false_iff] at hw ⊢
    exact ⟨hw.1.1, hw.2⟩
  rw [scan, hq, hn, ha]
  simp [hp, hp']

theorem scan_open (t : Text) :
    scan scope top call i stack out ('(' :: t) =
      scan scope top call (i + 1)
        ((call.bind fun (place, name) => if place == i then some name else none) :: stack)
        (out ++ ['(']) t := by
  rw [scan]
  rfl

theorem scan_close (frame : Option Text) (t : Text) :
    scan scope top call i (frame :: stack) out (')' :: t) =
      scan scope top call (i + 1) stack (out ++ [')']) t := by
  rw [scan]
  rfl

theorem scan_stray (t : Text) :
    scan scope top call i [] out (')' :: t) =
      ((scan scope top call (i + 1) [] (out ++ [')']) t).1,
        .mismatch (.stray ')') :: (scan scope top call (i + 1) [] (out ++ [')']) t).2) := by
  rw [scan]
  rfl

theorem scan_name {w rest : Text} (hw : IsName w) (hr : StartsOutside isWord rest)
    (hp : firstMark rest ≠ some '(') :
    scan scope top call i stack out (w ++ rest) =
      scan scope top call (i + w.length) stack (out ++ w) rest := by
  obtain ⟨c, w, rfl, hq, hn, ha, hall⟩ := name_start hw
  have hg : ((rest.dropWhile isBlank).head? != some '(') = true := by simpa [firstMark, trimStart] using hp
  rw [List.cons_append, scan, hq, hn, ha, takeWhile_run hall hr, dropWhile_run hall hr]
  simp only [hg, Bool.false_eq_true, if_false, if_true]

/-- What follows a name, taken apart at the parenthesis. -/
theorem opening_parts {g : Text} (hg : g.allBlank = true) (t : Text) :
    StartsOutside isWord (g ++ '(' :: t) ∧ (g ++ '(' :: t).takeWhile isBlank = g ∧
      (g ++ '(' :: t).dropWhile isBlank = '(' :: t :=
  ⟨outside_word_gap hg (.cons (by decide)), takeWhile_run (mem_of_allBlank hg) (.cons (by decide)),
    dropWhile_run (mem_of_allBlank hg) (.cons (by decide))⟩

section Opening
variable {w g : Text} (hw : IsName w) (hg : g.allBlank = true)
include hw hg

/-- A name before a parenthesis that is neither an array nor callable stays, and its parenthesis is
met next. -/
theorem scan_plain (ha : scope.symbols.array? w = none) (hc : scope.symbols.isCallable w = false)
    (t : Text) :
    scan scope top call i stack out (w ++ (g ++ '(' :: t)) =
      let r := scan scope top call (i + w.length) stack (out ++ w) (g ++ '(' :: t)
      (r.1, (if (call.map Prod.fst) == some (i + w.length + g.length) then []
        else unresolved top (scope.symbols.lookup? w) w out) ++ r.2) := by
  obtain ⟨c, w, rfl, hq, hn, hal, hall⟩ := name_start hw
  obtain ⟨hr, htake, hdrop⟩ := opening_parts hg t
  rw [List.cons_append, scan.eq_def]
  simp only [hq, hn, hal, takeWhile_run hall hr, dropWhile_run hall hr, htake, hdrop, ha, hc, List.head?_cons,
    bne_self_eq_false, Bool.false_eq_true, if_false, if_true]

theorem scan_callable (ha : scope.symbols.array? w = none) (hc : scope.symbols.isCallable w = true)
    (t : Text) :
    scan scope top call i stack out (w ++ (g ++ '(' :: t)) =
      scan scope top call (i + w.length + g.length + 1) (some w :: stack) (out ++ w ++ g ++ ['(']) t := by
  obtain ⟨c, w, rfl, hq, hn, hal, hall⟩ := name_start hw
  obtain ⟨hr, htake, hdrop⟩ := opening_parts hg t
  rw [List.cons_append, scan.eq_def]
  simp only [hq, hn, hal, takeWhile_run hall hr, dropWhile_run hall hr, htake, hdrop, ha, hc, List.head?_cons,
    bne_self_eq_false, Bool.false_eq_true, if_false, if_true]
  rfl

theorem scan_unclosed {s : Symbol} (ha : scope.symbols.array? w = some s) {t : Text} (ht : ¬ Closed t) :
    scan scope top call i stack out (w ++ (g ++ '(' :: t)) =
      let r := scan scope top call i stack (out ++ (w ++ (g ++ '(' :: t))) []
      (r.1, .unclosedReference s.name :: r.2) := by
  obtain ⟨c, w, rfl, hq, hn, hal, hall⟩ := name_start hw
  obtain ⟨hr, -, hdrop⟩ := opening_parts hg t
  rw [List.cons_append, scan.eq_def]
  simp only [hq, hn, hal, takeWhile_run hall hr, dropWhile_run hall hr, hdrop, ha, List.head?_cons,
    bne_self_eq_false, Bool.false_eq_true, if_false, if_true, closing?_eq_none_iff.2 ht]

/-- A reference to an array, with its index terms settled apart. -/
theorem scan_array {s : Symbol} {inner : Text} (ha : scope.symbols.array? w = some s)
    (hi : Balanced '(' ')' inner) (t : Text) :
    scan scope top call i stack out (w ++ (g ++ '(' :: (inner ++ ')' :: t))) =
      let settled := (listItems inner).map (scan scope false none 0 [] [])
      let made := render scope s inner (listItems inner) (settled.map Prod.fst) stack.head?.join out t
      let r := scan scope top call (i + w.length + g.length + (inner.length + 1) + 1) stack (out ++ made.1) t
      (r.1, (splitCommas inner).2.map (Issue.mismatchInSubscript · s.name) ++
        settled.flatMap Prod.snd ++ made.2 ++ r.2) := by
  obtain ⟨c, w, rfl, hq, hn, hal, hall⟩ := name_start hw
  obtain ⟨hr, htake, hdrop⟩ := opening_parts hg (inner ++ ')' :: t)
  have hin : (('(' :: (inner ++ ')' :: t)).take (inner.length + 1)).drop 1 = inner := by simp
  have hafter : ('(' :: (inner ++ ')' :: t)).drop (inner.length + 1 + 1) = t := by simp
  have hmap (ts : List Text) : (ts.attach.map fun t => scan scope false none 0 [] [] t.1) =
      ts.map (scan scope false none 0 [] []) :=
    List.attach_map_val (l := ts) (f := scan scope false none 0 [] [])
  rw [List.cons_append, scan.eq_def]
  simp only [hq, hn, hal, takeWhile_run hall hr, dropWhile_run hall hr, htake, hdrop, ha, List.head?_cons,
    bne_self_eq_false, Bool.false_eq_true, if_false, if_true, closing?_balanced hi, hin, hafter]
  rw [hmap, dropWhile_run hall hr, hdrop, hin]

end Opening

/-- The text of a scan. -/
def scanText (rest : Text) : Text := (scan scope top call i stack out rest).1

/-- The text of a scan that stands within a number. -/
def tokenText (rest : Text) : Text :=
  scanText scope top call (i + (rest.takeWhile isOperand).length) stack
    (out ++ rest.takeWhile isOperand) (rest.dropWhile isOperand)

theorem scanText_nil : scanText scope top call i stack out [] = out := by
  rw [scanText, scan_nil]

theorem scanText_number {c : Char} (hc : (c.isDigit || c == '.') = true) (t : Text) :
    scanText scope top call i stack out (c :: t) = tokenText scope top call i stack out (c :: t) :=
  congrArg Prod.fst (scan_number scope top call i stack out hc t)

theorem tokenText_run {w : Text} (hw : ∀ c ∈ w, isOperand c = true) (rest : Text) :
    tokenText scope top call i stack out (w ++ rest) =
      tokenText scope top call (i + w.length) stack (out ++ w) rest := by
  rw [tokenText, tokenText, List.takeWhile_append_of_pos hw, List.dropWhile_append_of_pos hw]
  simp [Nat.add_assoc]

/-- A number ends before any character that is no word character: a point starts a new one at once. -/
theorem tokenText_of_outside {rest : Text} (h : StartsOutside isWord rest) :
    tokenText scope top call i stack out rest = scanText scope top call i stack out rest := by
  cases rest with
  | nil => simp [tokenText]
  | cons c t =>
    by_cases hc : c = '.'
    · subst hc
      rw [scanText_number _ _ _ _ _ _ (by decide)]
    · have ho : isOperand c = false := by simp [isOperand, h c rfl, hc]
      simp [tokenText, ho]

theorem scanText_mark {c : Char} (ho : isOperand c = false) (hq : isQuote c = false) (hp : c ≠ '(')
    (hp' : c ≠ ')') (t : Text) :
    scanText scope top call i stack out (c :: t) =
      scanText scope top call (i + 1) stack (out ++ [c]) t :=
  congrArg Prod.fst (scan_mark scope top call i stack out ho hq hp hp' t)

theorem scanText_marks {g : Text}
    (hg : ∀ c ∈ g, isOperand c = false ∧ isQuote c = false ∧ c ≠ '(' ∧ c ≠ ')') (t : Text) :
    scanText scope top call i stack out (g ++ t) =
      scanText scope top call (i + g.length) stack (out ++ g) t := by
  induction g generalizing i out with
  | nil => simp
  | cons c g ih =>
    obtain ⟨ho, hq, hp, hp'⟩ := hg c (by simp)
    rw [List.cons_append, scanText_mark _ _ _ _ _ _ ho hq hp hp', ih _ _ fun c hc => hg c (by simp [hc])]
    simp [Nat.add_assoc, Nat.add_comm 1]

theorem scanText_open (t : Text) :
    scanText scope top call i stack out ('(' :: t) =
      scanText scope top call (i + 1)
        ((call.bind fun (place, name) => if place == i then some name else none) :: stack)
        (out ++ ['(']) t :=
  congrArg Prod.fst (scan_open scope top call i stack out t)

theorem scanText_close (t : Text) :
    scanText scope top call i stack out (')' :: t) =
      scanText scope top call (i + 1) (stack.drop 1) (out ++ [')']) t := by
  cases stack with
  | nil =>
    rw [scanText, scan_stray]
    rfl
  | cons frame stack => exact congrArg Prod.fst (scan_close scope top call i stack out frame t)

theorem scanText_name {w rest : Text} (hw : IsName w) (hr : StartsOutside isWord rest)
    (hp : firstMark rest ≠ some '(') :
    scanText scope top call i stack out (w ++ rest) =
      scanText scope top call (i + w.length) stack (out ++ w) rest :=
  congrArg Prod.fst (scan_name scope top call i stack out hw hr hp)

variable {w g rest : Text}

theorem scanText_plain (hw : IsName w) (hg : g.allBlank = true)
    (ha : scope.symbols.array? w = none) (hc : scope.symbols.isCallable w = false) :
    scanText scope top call i stack out (w ++ (g ++ '(' :: rest)) =
      scanText scope top call (i + w.length) stack (out ++ w) (g ++ '(' :: rest) := by
  rw [scanText, scan_plain scope top call i stack out hw hg ha hc rest]
  rfl

theorem scanText_callable (hw : IsName w) (hg : g.allBlank = true)
    (ha : scope.symbols.array? w = none) (hc : scope.symbols.isCallable w = true) :
    scanText scope top call i stack out (w ++ (g ++ '(' :: rest)) =
      scanText scope top call (i + w.length + g.length + 1) (some w :: stack)
        (out ++ w ++ g ++ ['(']) rest :=
  congrArg Prod.fst (scan_callable scope top call i stack out hw hg ha hc rest)

theorem scanText_array {s : Symbol} {inner : Text} (hw : IsName w) (hg : g.allBlank = true)
    (ha : scope.symbols.array? w = some s) (hi : Nested inner) (rest : Text) :
    scanText scope top call i stack out (w ++ (g ++ '(' :: (inner ++ ')' :: rest))) =
      scanText scope top call (i + w.length + g.length + (inner.length + 1) + 1) stack
        (out ++ (render scope s inner (listItems inner)
          ((listItems inner).map (scanText scope false none 0 [] [])) stack.head?.join out rest).1)
        rest := by
  refine (congrArg Prod.fst (scan_array scope top call i stack out hw hg ha hi.balanced rest)).trans ?_
  simp only [List.map_map]
  rfl

end Branches

end FixedForm.Reference
