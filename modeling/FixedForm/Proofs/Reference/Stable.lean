import FixedForm.Proofs.Reference.Label
import FixedForm.Proofs.Reference.Linearize
import FixedForm.Proofs.Stage.Apart
import FixedForm.Proofs.Symbol.Table
import FixedForm.Proofs.Text.Fold
import FixedForm.Proofs.Text.Lower
import FixedForm.Proofs.Text.Substitution

/-! Settling the references of a text twice.  A text is stable when no reference in it is left to settle.
The scan leaves stable texts as they are, and what it makes of a nested text is stable. -/
namespace FixedForm.Reference
open Text

/-- Texts in which no reference is left to settle.  A reference stays only with a number of index terms
that its array does not have. -/
inductive Stable (table : SymbolTable) : Text → Prop where
  | nil : Stable table []
  | number {n t : Text} (hne : n ≠ []) (hs : StartsOutside (fun c => !(c.isDigit || c == '.')) n)
      (hn : ∀ c ∈ n, isOperand c = true) (hw : StartsOutside isWord t) (ht : Stable table t) :
      Stable table (n ++ t)
  | name {w t : Text} (hname : IsName w) (hw : StartsOutside isWord t) (hp : firstMark t ≠ some '(')
      (ht : Stable table t) : Stable table (w ++ t)
  | opening {w g t : Text} (hname : IsName w) (hg : g.allBlank = true) (ha : table.array? w = none)
      (ht : Stable table t) : Stable table (w ++ (g ++ '(' :: t))
  | mark {c : Char} {t : Text} (ho : isOperand c = false) (hq : isQuote c = false)
      (ht : Stable table t) : Stable table (c :: t)
  | reference {s : Symbol} {terms : List Text} {t : Text} (hname : IsName s.name)
      (ha : table.array? s.name = some s) (hb : (bracket? s [] [] terms).1 = none) (hne : terms ≠ [])
      (hitem : ∀ u ∈ terms, NestedItem u ∧ trim u = u) (hterm : ∀ u ∈ terms, Stable table u)
      (ht : Stable table t) : Stable table (s.name ++ '(' :: (join "," terms ++ ')' :: t))

/-- Whether a reference gets an index is a matter of its array and the number of its terms. -/
theorem bracket?_fst (s : Symbol) (reference reference' : Text) (terms terms' settled : List Text) :
    (bracket? s reference terms settled).1 = (bracket? s reference' terms' settled).1 := by
  unfold bracket?
  split <;> rfl

theorem render_none {table : SymbolTable} {s : Symbol} {inner : Text} {terms settled : List Text}
    {callee : Option Text} {before after : Text} (h : (bracket? s [] [] settled).1 = none) :
    (render ⟨table, false⟩ s inner terms settled callee before after).1 =
      s.name ++ '(' :: (join "," settled ++ [')']) := by
  rw [bracket?_fst s [] (s.name ++ "(" ++ inner ++ ")") [] terms] at h
  rw [render]
  generalize bracket? s (s.name ++ "(" ++ inner ++ ")") terms settled = b at h
  obtain ⟨_, issues⟩ := b
  cases h
  simp

theorem scanText_parens (scope : ReferenceScope) (top : Bool) (call : Option (Nat × Text)) (i : Nat)
    (stack : List (Option Text)) (out : Text) {c : Char} (ho : isOperand c = false)
    (hq : isQuote c = false) (t : Text) : ∃ stack', scanText scope top call i stack out (c :: t) =
      scanText scope top call (i + 1) stack' (out ++ [c]) t := by
  by_cases hp : c = '('
  · subst hp
    exact ⟨_, scanText_open ..⟩
  · by_cases hp' : c = ')'
    · subst hp'
      exact ⟨_, scanText_close ..⟩
    · exact ⟨_, scanText_mark scope top call i stack out ho hq hp hp' t⟩

theorem scanText_opening (scope : ReferenceScope) (top : Bool) (call : Option (Nat × Text)) (i : Nat)
    (stack : List (Option Text)) (out : Text) {w g : Text} (hw : IsName w) (hg : g.allBlank = true)
    (ha : scope.symbols.array? w = none) (t : Text) : ∃ j stack',
      scanText scope top call i stack out (w ++ (g ++ '(' :: t)) =
        scanText scope top call j stack' (out ++ (w ++ (g ++ ['(']))) t := by
  have he : out ++ (w ++ (g ++ ['('])) = out ++ w ++ g ++ ['('] := by simp
  rw [he]
  cases hc : scope.symbols.isCallable w with
  | true => exact ⟨_, _, scanText_callable scope top call i stack out hw hg ha hc⟩
  | false =>
    rw [scanText_plain scope top call i stack out hw hg ha hc, scanText_blanks _ _ _ _ _ _ hg,
      scanText_open]
    exact ⟨_, _, rfl⟩

theorem scanText_stable {table : SymbolTable} {t : Text} (h : Stable table t) (top : Bool)
    (call : Option (Nat × Text)) (i : Nat) (stack : List (Option Text)) (out : Text) :
    scanText ⟨table, false⟩ top call i stack out t = out ++ t := by
  induction h generalizing top call i stack out with
  | nil => simp [scanText_nil]
  | number hne hs hn hw ht ih =>
    have hread := readText_number ⟨table, false⟩ top call i stack out false hne hs hn hw
    exact hread.trans (by rw [ih, List.append_assoc])
  | name hname hw hp ht ih => rw [scanText_name _ _ _ _ _ _ hname hw hp, ih, List.append_assoc]
  | @opening w g t hname hg ha ht ih =>
    obtain ⟨j, stack', he⟩ := scanText_opening ⟨table, false⟩ top call i stack out hname hg ha t
    rw [he, ih]
    simp
  | @mark c t ho hq ht ih =>
    obtain ⟨stack', he⟩ := scanText_parens ⟨table, false⟩ top call i stack out ho hq t
    rw [he, ih]
    simp
  | @reference s terms t hname ha hb hne hitem hterm ht ihterm ih =>
    have hn : Nested (join "," terms) := nested_join fun u hu => (hitem u hu).1
    have hitems : listItems (join "," terms) = terms := by
      rw [listItems, splitCommas_join hne fun u hu => (hitem u hu).1]
      exact (List.map_congr_left fun u hu => (hitem u hu).2).trans (List.map_id terms)
    have hsettled : terms.map (scanText ⟨table, false⟩ false none 0 [] []) = terms :=
      (List.map_congr_left fun u hu => ihterm u hu false none 0 [] []).trans (List.map_id terms)
    have hread := scanText_array ⟨table, false⟩ top call i stack out hname (g := []) rfl ha hn t
    rw [hitems, hsettled, render_none hb] at hread
    refine hread.trans ?_
    rw [ih]
    simp

/-! The ends of a text decide how it is read next to others. -/

theorem Stable.append {table : SymbolTable} {t u : Text} (ht : Stable table t) (hu : Stable table u)
    (hw : StartsOutside isWord u) (hp : firstMark u ≠ some '(') : Stable table (t ++ u) := by
  have hword {t : Text} (h : StartsOutside isWord t) : StartsOutside isWord (t ++ u) := by
    cases t with
    | nil => exact hw
    | cons c t => exact .cons (h c rfl)
  induction ht with
  | nil => exact hu
  | number hne hs hn hwt ht ih =>
    rw [List.append_assoc]
    exact .number hne hs hn (hword hwt) ih
  | @name w t hname hwt hpt ht ih =>
    rw [List.append_assoc]
    refine .name hname (hword hwt) ?_ ih
    rw [firstMark_append]
    cases hm : firstMark t with
    | none => simpa using hp
    | some c => simpa [hm] using hpt
  | opening hname hg ha ht ih =>
    rw [List.append_assoc, List.append_assoc]
    exact .opening hname hg ha ih
  | mark ho hq ht ih => exact .mark ho hq ih
  | @reference s terms t hname ha hb hne hitem hterm ht ihterm ih =>
    rw [List.append_assoc, List.cons_append, List.append_assoc]
    exact .reference hname ha hb hne hitem hterm ih

/-- What the ends of a text show of it stays in another. -/
structure Keeps (t r : Text) : Prop where
  nil : r = [] ↔ t = []
  word : StartsOutside isWord t → StartsOutside isWord r
  mark : firstMark r = some '(' → firstMark t = some '('
  start : StartsOutside isBlank t → StartsOutside isBlank r
  finish : StartsOutside isBlank t.reverse → StartsOutside isBlank r.reverse

namespace Keeps
variable {t r u v : Text}

/-- What stands before two such texts and ends alike. -/
theorem finish_append (h : Keeps t r)
    (hv : StartsOutside isBlank u.reverse → StartsOutside isBlank v.reverse)
    (ht : StartsOutside isBlank (u ++ t).reverse) : StartsOutside isBlank (v ++ r).reverse := by
  rw [List.reverse_append] at ht ⊢
  by_cases he : t = []
  · subst he
    rw [h.nil.2 rfl]
    exact hv ht
  · have hr : r.reverse ≠ [] := fun hr => he (h.nil.1 (List.reverse_eq_nil_iff.1 hr))
    exact .append hr (h.finish (ht.of_lead (List.prefix_append _ _)))

theorem copy (hu : u ≠ []) (h : Keeps t r) : Keeps (u ++ t) (u ++ r) where
  nil := by simp [hu]
  word ht := .append hu (ht.of_lead (List.prefix_append _ _))
  mark hm := by
    rw [firstMark_append] at hm ⊢
    cases hf : firstMark u with
    | none =>
      rw [hf, Option.none_or] at hm
      exact h.mark hm
    | some c => simpa [hf] using hm
  start ht := .append hu (ht.of_lead (List.prefix_append _ _))
  finish := h.finish_append id

/-- A reference is replaced by an element. -/
theorem replace (hu : StartsName u) (hv : Tree.Solid v) (hp : v.head? ≠ some '(') (h : Keeps t r) :
    Keeps (u ++ t) (v ++ r) := by
  obtain ⟨c, u', rfl, hc, -⟩ := hu
  obtain ⟨d, v', hd, hb⟩ := hv.start
  obtain ⟨v'', e, he, hb'⟩ := hv.finish
  refine ⟨by simp [hd], fun ht => ?_, fun hm => ?_, fun _ => ?_, h.finish_append fun _ => ?_⟩
  · exact absurd (ht c rfl) (by simp [hc])
  · rw [hd, List.cons_append] at hm
    have hf := firstMark_run (g := []) (t := v' ++ r) rfl hb
    rw [List.nil_append, hm] at hf
    exact absurd (by rw [hd, List.head?_cons, ← hf]) hp
  · rw [hd]
    exact .cons hb
  · rw [he, List.reverse_append]
    exact .cons hb'

theorem trim_eq (h : Keeps t r) (hs : StartsOutside isBlank t) (hf : StartsOutside isBlank t.reverse) :
    trim r = r := by
  rw [trim, trimStart_of_outside (h.start hs), trimEnd, dropWhile_of_outside (h.finish hf),
    List.reverse_reverse]

end Keeps

/-- The scan makes a stable text of a text that closes the open delimiters.  The new text closes them
too and shows the same at its ends. -/
def Settling (table : SymbolTable) (t : Text) : Prop :=
  ∀ outer : Char → Bool, (∀ c, c ≠ ',' → outer c = true) → ∀ s, walk outer s t = some [] →
    ∀ top call i stack out, ∃ r, scanText ⟨table, false⟩ top call i stack out t = out ++ r ∧
      Stable table r ∧ walk outer s r = some [] ∧ Keeps t r

section Cases
variable {table : SymbolTable} {t u : Text}

/-- What the scan copies before the rest. -/
theorem Settling.copy (hu : u ≠ [])
    (hscan : ∀ top call i stack out, ∃ j stack',
      scanText ⟨table, false⟩ top call i stack out (u ++ t) =
        scanText ⟨table, false⟩ top call j stack' (out ++ u) t)
    (hstable : ∀ r, Stable table r → Keeps t r → Stable table (u ++ r)) (h : Settling table t) :
    Settling table (u ++ t) := by
  intro outer ho s hw top call i stack out
  rw [walk_append] at hw
  obtain ⟨s', hs', hw⟩ := Option.bind_eq_some_iff.1 hw
  obtain ⟨j, stack', he⟩ := hscan top call i stack out
  obtain ⟨r, hr, hst, hn, hk⟩ := h outer ho s' hw top call j stack' (out ++ u)
  refine ⟨u ++ r, by rw [he, hr, List.append_assoc], hstable r hst hk, ?_, hk.copy hu⟩
  rw [walk_append, hs', Option.bind_some, hn]

theorem settling_nil : Settling table [] := by
  intro outer _ s hw top call i stack out
  exact ⟨[], by simp [scanText_nil], .nil, hw, ⟨Iff.rfl, id, id, id, id⟩⟩

theorem settling_number (hne : u ≠ []) (hs : StartsOutside (fun c => !(c.isDigit || c == '.')) u)
    (hn : ∀ c ∈ u, isOperand c = true) (hw : StartsOutside isWord t) (h : Settling table t) :
    Settling table (u ++ t) :=
  h.copy hne
    (fun top call i stack out =>
      ⟨_, _, readText_number ⟨table, false⟩ top call i stack out false hne hs hn hw⟩)
    fun _ hst hk => .number hne hs hn (hk.word hw) hst

theorem settling_name (hname : IsName u) (hw : StartsOutside isWord t) (hp : firstMark t ≠ some '(')
    (h : Settling table t) : Settling table (u ++ t) :=
  h.copy hname.mem_word.1
    (fun top call i stack out => ⟨_, _, scanText_name ⟨table, false⟩ top call i stack out hname hw hp⟩)
    fun _ hst hk => .name hname (hk.word hw) (fun hm => hp (hk.mark hm)) hst

theorem settling_opening {g : Text} (hname : IsName u) (hg : g.allBlank = true)
    (ha : table.array? u = none) (h : Settling table t) : Settling table (u ++ (g ++ '(' :: t)) := by
  have he (r : Text) : u ++ (g ++ '(' :: r) = u ++ (g ++ ['(']) ++ r := by simp
  rw [he]
  refine h.copy (by simp) (fun top call i stack out => ?_) fun r hst _ => ?_
  · rw [← he]
    exact scanText_opening ⟨table, false⟩ top call i stack out hname hg ha t
  · rw [← he]
    exact .opening hname hg ha hst

theorem settling_mark {c : Char} (ho : isOperand c = false) (hq : isQuote c = false)
    (h : Settling table t) : Settling table (c :: t) :=
  h.copy (u := [c]) (by simp)
    (fun top call i stack out =>
      ⟨_, scanText_parens ⟨table, false⟩ top call i stack out ho hq t⟩)
    fun _ hst _ => .mark ho hq hst

end Cases

/-- A word, or an integer with a sign. -/
def IsExtent (t : Text) : Prop :=
  t.isWordText = true ∨ ∃ (sign : Char) (digits : Text),
    t = sign :: digits ∧ (sign = '+' ∨ sign = '-') ∧ digits.isDigits = true

section Elements
variable {table : SymbolTable} {sym : Symbol}

/-- The table finds an array under its own name. -/
theorem array?_self {w : Text} (h : table.array? w = some sym) : table.array? sym.name = some sym := by
  have hl : table.lookup? w.lower = table.lookup? w := SymbolTable.lookup?_congr (lower_lower w)
  rw [array?_name h, SymbolTable.array?, hl]
  exact h

theorem isDigit_toLower (c : Char) : c.toLower.isDigit = c.isDigit := by
  rw [Bool.eq_iff_iff, isDigit_iff, isDigit_iff, toNat_toLower]
  split <;> omega

theorem isWord_toLower (c : Char) : isWord c.toLower = isWord c := by
  rw [isWord, isWord, Char.isAlphanum, Char.isAlphanum, isAlpha_toLower,
    isDigit_toLower, beq_toLower (by decide)]

theorem isName_array {w : Text} (hw : IsName w) (h : table.array? w = some sym) : IsName sym.name := by
  obtain ⟨hne, hall⟩ := hw.mem_word
  have hascii : ∀ c ∈ w, c.toNat < 0x80 := fun c hc => by
    have := isWord_iff.1 (hall c hc)
    omega
  rw [array?_name h, lower_ascii hascii]
  refine ⟨?_, ?_⟩
  · simpa [isWordText, hne, isWord_toLower] using hall
  · obtain ⟨c, w, rfl⟩ := List.exists_cons_of_ne_nil hne
    exact .cons (by rw [isDigit_toLower, hw.start c rfl])

/-- A text in the place of a reference. -/
structure Element (table : SymbolTable) (t : Text) : Prop where
  stable : ∀ r, Stable table r → Stable table (t ++ r)
  item : NestedItem t
  solid : Tree.Solid t
  start : t.head? ≠ some '('

theorem firstMark_cons {c : Char} (hc : isBlank c = false) (t : Text) : firstMark (c :: t) = some c :=
  firstMark_run (g := []) rfl hc

theorem Stable.marks {m r : Text} (hm : m.all (fun c => !isOperand c && !isQuote c) = true)
    (hr : Stable table r) : Stable table (m ++ r) := by
  induction m with
  | nil => exact hr
  | cons c m ih =>
    simp only [List.all_cons, Bool.and_eq_true, Bool.not_eq_true'] at hm
    exact .mark hm.1.1 hm.1.2 (ih hm.2)

/-- One less than a term. -/
theorem stable_offset {t r : Text} (ht : Stable table t) (hr : Stable table r)
    (hw : StartsOutside isWord r) : Stable table ("(" ++ t ++ ")-1" ++ r) := by
  have hone : Stable table (['1'] ++ r) :=
    .number (by simp) (.cons (by decide)) (by simp [isOperand, isWord]) hw hr
  have hend : Stable table (")-".toList ++ (['1'] ++ r)) := .marks (by decide) hone
  have hterm : Stable table (t ++ (")-".toList ++ (['1'] ++ r))) :=
    ht.append hend (.cons (by decide)) (by simp [firstMark_cons (c := ')') (by decide)])
  have he : "(" ++ t ++ ")-1" ++ r = '(' :: (t ++ (")-".toList ++ (['1'] ++ r))) := by simp
  rw [he]
  exact .mark (by decide) (by decide) hterm

theorem stable_extent {t r : Text} (ht : IsExtent t) (hr : Stable table r) (hw : StartsOutside isWord r)
    (hp : firstMark r ≠ some '(') : Stable table (t ++ r) := by
  rcases ht with ht | ⟨sign, digits, rfl, hs, hd⟩
  · simp only [isWordText, Bool.and_eq_true, List.all_eq_true] at ht
    have hne : t ≠ [] := by simpa using ht.1
    have ho : ∀ c ∈ t, isOperand c = true := fun c hc => operand_of_word (ht.2 c hc)
    obtain ⟨c, t, rfl⟩ := List.exists_cons_of_ne_nil hne
    cases hd : c.isDigit with
    | true => exact .number hne (.cons (by simp [hd])) ho hw hr
    | false =>
      have hname : IsName (c :: t) := ⟨by simpa [isWordText] using ht.2, .cons hd⟩
      exact .name hname hw hp hr
  · obtain ⟨hne, hd⟩ := mem_of_isDigits hd
    have ho : ∀ c ∈ digits, isOperand c = true := fun c hc => operand_of_word (word_of_digit (hd c hc))
    have hstart : StartsOutside (fun c => !(c.isDigit || c == '.')) digits := fun c hc => by
      simp [hd c (List.mem_of_mem_head? hc)]
    have hnum : Stable table (digits ++ r) := .number hne hstart ho hw hr
    rcases hs with rfl | rfl <;> exact .mark (by decide) (by decide) hnum

theorem nested_extent {t : Text} (ht : IsExtent t) : NestedItem t := by
  rcases ht with ht | ⟨sign, digits, rfl, hs, hd⟩
  · simp only [isWordText, Bool.and_eq_true, List.all_eq_true] at ht
    exact Tree.nested_word ht.2
  · have hn := Tree.nested_word fun c hc => word_of_digit ((mem_of_isDigits hd).2 c hc)
    rcases hs with rfl | rfl
    · exact (by decide : NestedItem ['+']).append hn
    · exact (by decide : NestedItem ['-']).append hn

theorem exists_head_name {w : Text} (hw : IsName w) : ∃ c u, w = c :: u ∧ c ≠ '(' := by
  obtain ⟨c, u, he, hc, -⟩ := hw.startsName []
  rw [List.append_nil] at he
  refine ⟨c, u, he, ?_⟩
  rintro rfl
  exact absurd hc (by decide)

/-- A name with the index of an element behind it. -/
theorem element_index (hname : IsName sym.name) (passed : Bool) {b : Text} (hn : Nested b)
    (hb : ∀ r, Stable table r → Stable table (b ++ ']' :: r)) :
    Element table (Tree.mark passed ++ sym.name ++ ('[' :: b ++ [']'])) where
  stable r hr := by
    have he : Stable table (sym.name ++ '[' :: (b ++ ']' :: r)) :=
      .name hname (.cons (by decide)) (by simp [firstMark_cons (c := '[') (by decide)])
        (.mark (by decide) (by decide) (hb r hr))
    have happ (m : Text) : m ++ sym.name ++ ('[' :: b ++ [']']) ++ r =
        m ++ (sym.name ++ '[' :: (b ++ ']' :: r)) := by simp
    rw [happ]
    cases passed with
    | false => exact he
    | true => exact .mark (by decide) (by decide) he
  item := by
    have hm : NestedItem (Tree.mark passed) := by cases passed <;> decide
    exact (hm.append (Tree.nested_word hname.mem_word.2)).append (.enclosed (.inr ⟨rfl, rfl⟩) hn)
  solid := by
    have hs : Tree.Solid sym.name := Tree.solid_name ⟨sym.name, hname⟩
    have hc : Tree.Solid [']'] := .of_all (by simp) (by simp [isBlank])
    have he := hs.append ('[' :: b) hc
    cases passed with
    | false => simpa [Tree.mark] using he
    | true =>
      have ha : Tree.Solid ['&'] := .of_all (by simp) (by simp [isBlank])
      simpa [Tree.mark] using ha.append [] he
  start := by
    obtain ⟨c, w, hw, hne⟩ := exists_head_name hname
    cases passed <;> simp [Tree.mark, hw, hne]

theorem element_vector (hname : IsName sym.name) (passed : Bool) {index : Text}
    (hi : Stable table index) (hn : NestedItem index) :
    Element table (Tree.mark passed ++ sym.name ++ vectorSubscript index) := by
  have he : vectorSubscript index = '[' :: ("(" ++ index ++ ")-1") ++ [']'] := by
    simp [vectorSubscript]
  have hb : Nested ("(" ++ index ++ ")-1") := by
    have hp := (NestedItem.parens hn.nested).append (by decide : NestedItem "-1")
    simpa using hp.nested
  rw [he]
  exact element_index hname passed hb fun r hr =>
    stable_offset hi (.mark (by decide) (by decide) hr) (.cons (by decide))

theorem element_matrix (hname : IsName sym.name) (passed : Bool) {row column leading : Text}
    (hr : Stable table row) (hnr : NestedItem row) (hc : Stable table column) (hnc : NestedItem column)
    (hl : IsExtent leading) :
    Element table (Tree.mark passed ++ sym.name ++ matrixSubscript row column leading) := by
  have he : matrixSubscript row column leading =
      '[' :: ("((" ++ row ++ ")-1)+((" ++ column ++ ")-1)*(" ++ leading ++ ")") ++ [']'] := by
    change "[((" ++ row ++ ")-1)+((" ++ column ++ ")-1)*(" ++ leading ++ ")]" = _
    simp
  have hoff {t : Text} (h : NestedItem t) : NestedItem ('(' :: ('(' :: t ++ [')'] ++ "-1") ++ [')']) :=
    .parens ((NestedItem.parens h.nested).append (by decide : NestedItem "-1")).nested
  have hb : Nested ("((" ++ row ++ ")-1)+((" ++ column ++ ")-1)*(" ++ leading ++ ")") := by
    have hp := (((hoff hnr).append (by decide : NestedItem "+")).append (hoff hnc)).append
      ((by decide : NestedItem "*").append (.parens (nested_extent hl).nested))
    simpa using hp.nested
  rw [he]
  refine element_index hname passed hb fun r hst => ?_
  have hend : Stable table (")".toList ++ ']' :: r) :=
    .marks (by decide) (.mark (by decide) (by decide) hst)
  have hlead : Stable table (leading ++ (")".toList ++ ']' :: r)) :=
    stable_extent hl hend (.cons (by decide)) (by simp [firstMark_cons (c := ')') (by decide)])
  have hcolumn := stable_offset hc (.marks (m := ")*(") (by decide) hlead) (.cons (by decide))
  have hrow := stable_offset hr (.marks (m := ")+(") (by decide) hcolumn) (.cons (by decide))
  simpa using Stable.mark (c := '(') (by decide) (by decide) hrow

/-- A reference with a wrong number of terms. -/
theorem element_left (hname : IsName sym.name) (ha : table.array? sym.name = some sym)
    {terms : List Text} (hb : (bracket? sym [] [] terms).1 = none) (hne : terms ≠ [])
    (hitem : ∀ u ∈ terms, NestedItem u ∧ trim u = u) (hterm : ∀ u ∈ terms, Stable table u) :
    Element table (sym.name ++ '(' :: (join "," terms ++ [')'])) where
  stable r hr := by
    have he := Stable.reference hname ha hb hne hitem hterm hr
    simpa using he
  item := (Tree.nested_word hname.mem_word.2).append
    (.parens (nested_join fun u hu => (hitem u hu).1))
  solid := by
    simpa using Tree.solid_reference ⟨sym.name, hname⟩ [] (join "," terms)
  start := by
    obtain ⟨c, w, hw, hne⟩ := exists_head_name hname
    simp [hw, hne]

/-- Which index a reference gets, if it gets one. -/
theorem bracket?_cases (s : Symbol) (settled : List Text) :
    (bracket? s [] [] settled).1 = none ∨
    (∃ index, settled = [index] ∧ (bracket? s [] [] settled).1 = some (vectorSubscript index)) ∨
    (∃ row column, settled = [row, column] ∧ s.kind = .matrix ∧
      (bracket? s [] [] settled).1 = some (matrixSubscript row column (leadingDimension s))) := by
  unfold bracket?
  split
  · exact .inr (.inl ⟨_, rfl, rfl⟩)
  · next hk => exact .inr (.inr ⟨_, _, rfl, hk, rfl⟩)
  · exact .inl rfl

theorem element_render (hname : IsName sym.name) (ha : table.array? sym.name = some sym)
    (hd : sym.kind = .matrix → IsExtent (leadingDimension sym)) {settled : List Text}
    (hne : settled ≠ []) (hitem : ∀ u ∈ settled, NestedItem u ∧ trim u = u)
    (hst : ∀ u ∈ settled, Stable table u) (inner : Text) (terms : List Text)
    (stack : List (Option Text)) (out rest : Text) :
    Element table (render ⟨table, false⟩ sym inner terms settled stack.head?.join out rest).1 := by
  have hfst := bracket?_fst sym (sym.name ++ "(" ++ inner ++ ")") [] terms [] settled
  obtain hb | ⟨index, rfl, hb⟩ | ⟨row, column, rfl, hk, hb⟩ := bracket?_cases sym settled
  · rw [render_none hb]
    exact element_left hname ha hb hne hitem hst
  · rw [render_element (hfst.trans hb)]
    exact element_vector hname _ (hst index (by simp)) (hitem index (by simp)).1
  · rw [render_element (hfst.trans hb)]
    exact element_matrix hname _ (hst row (by simp)) (hitem row (by simp)).1
      (hst column (by simp)) (hitem column (by simp)).1 (hd hk)

/-- The terms of a reference are settled one by one. -/
theorem settled_terms {inner : Text} (hi : Nested inner)
    (hterms : ∀ u ∈ listItems inner, Settling table u) :
    ∀ v ∈ (listItems inner).map (scanText ⟨table, false⟩ false none 0 [] []),
      (NestedItem v ∧ trim v = v) ∧ Stable table v := by
  intro v hv
  obtain ⟨u, hu, rfl⟩ := List.mem_map.1 hv
  obtain ⟨p, hp, rfl⟩ := List.mem_map.1 hu
  have hitem : NestedItem p.trim := nestedItem_trim (nestedItem_splitCommas hi p hp)
  obtain ⟨r, hr, hst, hn, hk⟩ := hterms p.trim hu (· != ',') (by simp) [] hitem false none 0 [] []
  rw [hr, List.nil_append]
  have hstart : StartsOutside isBlank p.trim := outside_trimStart.of_lead (trimEnd_lead _)
  have hfinish : StartsOutside isBlank p.trim.reverse := by
    rw [trim, trimEnd, List.reverse_reverse]
    exact outside_trimStart
  exact ⟨⟨hn, hk.trim_eq hstart hfinish⟩, hst⟩

theorem settling_array {w g inner after : Text} (hw : IsName w) (hg : g.allBlank = true)
    (ha : table.array? w = some sym) (hd : sym.kind = .matrix → IsExtent (leadingDimension sym))
    (hi : Nested inner) (hterms : ∀ u ∈ listItems inner, Settling table u)
    (hafter : Settling table after) {outer : Char → Bool} (ho : ∀ c, c ≠ ',' → outer c = true)
    {s : List Char} (hs : walk outer s after = some []) (top : Bool) (call : Option (Nat × Text))
    (i : Nat) (stack : List (Option Text)) (out : Text) :
    ∃ r, scanText ⟨table, false⟩ top call i stack out (w ++ (g ++ '(' :: (inner ++ ')' :: after))) =
      out ++ r ∧ Stable table r ∧ walk outer s r = some [] ∧
        Keeps (w ++ (g ++ '(' :: (inner ++ ')' :: after))) r := by
  have hterm := settled_terms hi hterms
  have hread := scanText_array ⟨table, false⟩ top call i stack out hw hg ha hi after
  generalize hsettled : (listItems inner).map (scanText ⟨table, false⟩ false none 0 [] []) = settled
    at hread hterm
  have hne : settled ≠ [] := by
    rw [← hsettled]
    have hpieces : (splitCommas inner).1 ≠ [] := splitCommasFrom_ne_nil [] inner
    simpa [listItems] using hpieces
  have he := element_render (isName_array hw ha) (array?_self ha) hd hne
    (fun u hu => (hterm u hu).1) (fun u hu => (hterm u hu).2) inner (listItems inner) stack out after
  generalize (render ⟨table, false⟩ sym inner (listItems inner) settled stack.head?.join out after).1 =
    text at hread he
  obtain ⟨r, hr, hst, hn, hk⟩ := hafter outer ho s hs top call
    (i + w.length + g.length + (inner.length + 1) + 1) stack (out ++ text)
  refine ⟨text ++ r, by rw [hread, hr, List.append_assoc], he.stable r hst, ?_, ?_⟩
  · rw [walk_append, he.item.walk_eq ho s, Option.bind_some, hn]
  · have hk' := hk.replace (u := w ++ (g ++ '(' :: (inner ++ [')'])))
      (hw.startsName _) he.solid he.start
    simpa using hk'

end Elements

/-- A reference closes before the text does. -/
theorem exists_reference {outer : Char → Bool} {s : List Char} {w g t : Text} (hw : IsName w)
    (hg : g.allBlank = true) (h : walk outer s (w ++ (g ++ '(' :: t)) = some []) :
    ∃ inner after, t = inner ++ ')' :: after ∧ Nested inner ∧ walk outer s after = some [] := by
  have hflat : ∀ c ∈ w ++ g, isFlat c = true := by
    intro c hc
    rcases List.mem_append.1 hc with hc | hc
    · exact isFlat_of_class (by decide) (hw.mem_word.2 c hc)
    · exact isFlat_of_class (by decide) (mem_of_allBlank hg c hc)
  rw [← List.append_assoc] at h
  have hstay := walk_of_flat hflat h
  rw [walk_append, hstay, Option.bind_some, walk_opens (by decide)] at h
  obtain ⟨inner, c, after, rfl, hc, hi, ha⟩ := exists_close (p := []) h
  obtain ⟨rfl, -⟩ | ⟨-, ho⟩ | ⟨-, ho⟩ := opener?_eq_some hc
  · exact ⟨inner, after, rfl, hi, ha⟩
  · cases ho
  · cases ho

theorem mem_of_mem_listItems {t p : Text} (h : p ∈ listItems t) : ∀ c ∈ p, c ∈ t := by
  obtain ⟨q, hq, rfl⟩ := List.mem_map.1 h
  exact fun c hc => mem_of_mem_splitCommasFrom hq c (mem_of_mem_trim hc)

theorem mem_of_array? {table : SymbolTable} {w : Text} {sym : Symbol} (h : table.array? w = some sym) :
    sym ∈ table.entries :=
  List.mem_of_find?_eq_some (Option.filter_eq_some_iff.1 h).1

/-- A name before a parenthesis, where all that follows it can be settled. -/
theorem settling_reference {table : SymbolTable}
    (hd : ∀ s ∈ table.entries, s.kind = .matrix → IsExtent (leadingDimension s)) {w g u : Text}
    (hw : IsName w) (hg : g.allBlank = true)
    (hu : ∀ v : Text, (∀ c ∈ v, c ∈ u) → v.length ≤ u.length → Settling table v) :
    Settling table (w ++ (g ++ '(' :: u)) := by
  cases ha : table.array? w with
  | none => exact settling_opening hw hg ha (hu u (fun _ => id) (Nat.le_refl _))
  | some sym =>
    intro outer ho s hwalk top call i stack out
    obtain ⟨inner, after, rfl, hi, hrest⟩ := exists_reference hw hg hwalk
    have hafter : Settling table after := hu after (by simp +contextual) (by simp; omega)
    have hterms : ∀ v ∈ listItems inner, Settling table v := fun v hv => by
      have hlen := length_le_of_mem_listItems hv
      exact hu v (fun c hc => List.mem_append_left _ (mem_of_mem_listItems hv c hc)) (by simp; omega)
    exact settling_array hw hg ha (hd sym (mem_of_array? ha)) hi hterms hafter ho hrest top call i stack out

/-- Every text without quotes, by its length: the terms of a reference and what follows it are shorter. -/
theorem settling {table : SymbolTable}
    (hd : ∀ s ∈ table.entries, s.kind = .matrix → IsExtent (leadingDimension s)) (t : Text)
    (hq : ∀ c ∈ t, isQuote c = false) : Settling table t := by
  induction hlen : t.length using Nat.strong_induction_on generalizing t with
  | _ n ih =>
    subst hlen
    cases t with
    | nil => exact settling_nil
    | cons c t =>
      have hshort (u : Text) (hu : ∀ d ∈ u, d ∈ t) (hl : u.length ≤ t.length) : Settling table u :=
        ih u.length (Nat.lt_succ_of_le hl) u (fun d hd => hq d (List.mem_cons_of_mem c (hu d hd))) rfl
      have hdrop (p : Char → Bool) : Settling table (t.dropWhile p) :=
        hshort _ (fun d hd => (List.dropWhile_suffix p).mem hd) (length_dropWhile_le p t)
      have hsplit (p : Char → Bool) : c :: t = c :: t.takeWhile p ++ t.dropWhile p := by simp
      have hrun (p : Char → Bool) (hc : p c = true) : ∀ d ∈ c :: t.takeWhile p, p d = true :=
        List.forall_mem_cons.2 ⟨hc, List.all_eq_true.1 List.all_takeWhile⟩
      cases hn : (c.isDigit || c == '.') with
      | true =>
        rw [hsplit isOperand]
        refine settling_number (by simp) (.cons (by simp [hn])) (hrun _ (operand_of_number hn)) ?_
          (hdrop isOperand)
        exact outside_dropWhile.mono fun d hd => operand_of_word hd
      | false =>
        obtain ⟨hdigit, hpoint⟩ := Bool.or_eq_false_iff.1 hn
        cases ha : isWord c with
        | true =>
          have hw : IsName (c :: t.takeWhile isWord) := by
            refine ⟨?_, .cons hdigit⟩
            rw [isWordText, List.all_eq_true.2 (hrun isWord ha)]
            rfl
          rw [hsplit isWord]
          by_cases hp : firstMark (t.dropWhile isWord) = some '('
          · obtain ⟨g, u, hu, hg⟩ := exists_opening hp
            have hsuffix : u <:+ t := by
              refine List.IsSuffix.trans ⟨g ++ ['('], ?_⟩ (List.dropWhile_suffix isWord)
              rw [hu, List.append_assoc, List.singleton_append]
            rw [hu]
            exact settling_reference hd hw hg fun v hv hl =>
              hshort v (fun d hd => hsuffix.mem (hv d hd)) (hl.trans hsuffix.length_le)
          · exact settling_name hw outside_dropWhile hp (hdrop isWord)
        | false =>
          refine settling_mark ?_ (hq c (by simp)) (hshort t (fun _ => id) (Nat.le_refl _))
          rw [isOperand, ha, hpoint]
          rfl

/-- Settling the references of a text a second time changes nothing. -/
theorem linearize_idempotent (a : Analysis) (hs : a.options.simplifySubscripts = false)
    (hd : ∀ s ∈ a.symbols.entries, s.kind = .matrix → IsExtent (leadingDimension s))
    (line line' : Option Nat) (t : Text) (hq : ∀ c ∈ t, isQuote c = false) (hn : Nested t) :
    ((a.linearize line t).1.linearize line' (a.linearize line t).2).2 = (a.linearize line t).2 := by
  have hscope (line : Option Nat) (t : Text) : (a.linearize line t).1.referenceScope = a.referenceScope :=
    have hquiet : Analysis.Quiet Analysis.referenceScope := fun _ _ _ => rfl
    hquiet.reportAll a line _
  have htext (a : Analysis) (line : Option Nat) (t : Text) :
      (a.linearize line t).2 = (Reference.linearize a.referenceScope t).1 := rfl
  have ha : a.referenceScope = ⟨a.symbols, false⟩ := by rw [Analysis.referenceScope, hs]
  rw [htext, hscope, htext, ha]
  obtain ⟨r, hr, hst, -⟩ := settling hd t hq (fun _ => true) (fun _ _ => rfl) [] hn true
    (callTarget? [] 0 t) 0 [] []
  have hr' : (Reference.linearize ⟨a.symbols, false⟩ t).1 = r := hr
  rw [hr']
  exact scanText_stable hst true (callTarget? [] 0 r) 0 [] []

/-- A reference with one term too many stays, and the element in the call does not. -/
theorem linearize_idempotent_sample :
    let t : Text := "V( k ,2)*f(m(1, v(i)))"
    Nested t ∧ (sampleUnit.linearize none t).2 = "v(k,2)*f(&m[((1)-1)+((v[(i)-1])-1)*(lda)])".toList ∧
      ((sampleUnit.linearize none t).1.linearize none (sampleUnit.linearize none t).2).2 =
        (sampleUnit.linearize none t).2 := by
  intro t
  have hn : Nested t := by decide
  have hq : t.all (!isQuote ·) = true := by decide
  have hd : ∀ s ∈ sampleUnit.symbols.entries, s.kind = .matrix →
      (leadingDimension s).isWordText = true := by decide
  exact ⟨hn, by decide +kernel, linearize_idempotent sampleUnit rfl (fun s hs hk => .inl (hd s hs hk))
    none none t (fun c hc => by simpa using List.all_eq_true.1 hq c hc) hn⟩

end FixedForm.Reference
