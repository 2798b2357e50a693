import FixedForm.Proofs.Text.Classes
import FixedForm.Proofs.Text.Nesting
import FixedForm.Reference.Linearize

/-! Expressions over the symbols of a unit: how they are written, and how they are written when every
array element has one index and is passed by its address where it is a whole argument. -/
namespace FixedForm.Reference
open Text

abbrev Blanks := { g : Text // g.allBlank = true }

/-- The blanks around something. -/
structure Pad where
  before : Blanks
  after : Blanks

def Pad.around (p : Pad) (t : Text) : Text := p.before.1 ++ t ++ p.after.1

abbrev Name := { w : Text // IsName w }

/-- A number, perhaps with a signed exponent. -/
structure Numeral where
  lead : Text
  exponent : Text
  ne_nil : lead ≠ []
  start : StartsOutside (fun c => !(c.isDigit || c == '.')) lead
  operand : ∀ c ∈ lead, isOperand c = true
  signed : exponent = [] ∨ ∃ (sign : Char) (digits : Text), exponent = sign :: digits ∧
    (sign = '+' ∨ sign = '-') ∧ digits.isDigits = true

def Numeral.text (n : Numeral) : Text := n.lead ++ n.exponent

/-- A character that an operator without points may hold. -/
def isMark (c : Char) : Bool :=
  !isOperand c && !isBlank c && !isQuote c && isFlat c && c != ','

/-- Operators are marks such as `+`, or words between points such as `.and.`. -/
inductive Operator where
  | marks (t : Text) (hne : t ≠ []) (h : ∀ c ∈ t, isMark c = true)
  | pointed (w : Text) (h : ∀ c ∈ w, isWord c = true)

def Operator.text : Operator → Text
  | .marks t _ _ => t
  | .pointed w _ => "." ++ w ++ "."

def Operator.isPointed : Operator → Bool
  | .marks _ _ _ => false
  | .pointed _ _ => true

/-- A single expression, or what stands between the parentheses of a reference. -/
inductive Part where
  | expr | args

/-- An expression is one item of a list; the arguments of a reference may hold commas. -/
def Part.Nests : Part → Text → Prop
  | .expr, t => NestedItem t
  | .args, t => Nested t

inductive Tree (table : SymbolTable) : Part → Type where
  | number (n : Numeral) : Tree table .expr
  | name (w : Name) : Tree table .expr
  | group (p : Pad) (e : Tree table .expr) : Tree table .expr
  | binary (l : Tree table .expr) (p : Pad) (op : Operator) (r : Tree table .expr) :
      Tree table .expr
  /-- A reference to anything but an array. -/
  | apply (f : Name) (h : table.array? f.1 = none) (g : Blanks) (args : Tree table .args) :
      Tree table .expr
  | vector (v : Name) (s : Symbol) (hs : table.array? v.1 = some s) (hk : s.kind = .vector)
      (g : Blanks) (p : Pad) (e : Tree table .expr) : Tree table .expr
  | matrix (m : Name) (s : Symbol) (hs : table.array? m.1 = some s) (hk : s.kind = .matrix)
      (leading : Text) (hd : s.dimensions.head? = some leading) (g : Blanks)
      (p : Pad) (e : Tree table .expr) (q : Pad) (e' : Tree table .expr) : Tree table .expr
  | none (g : Blanks) : Tree table .args
  | last (p : Pad) (e : Tree table .expr) : Tree table .args
  | more (p : Pad) (e : Tree table .expr) (rest : Tree table .args) : Tree table .args

namespace Tree
variable {table : SymbolTable}

def print : {part : Part} → Tree table part → Text
  | _, .number n => n.text
  | _, .name w => w.1
  | _, .group p e => "(" ++ p.around e.print ++ ")"
  | _, .binary l p op r => l.print ++ p.around op.text ++ r.print
  | _, .apply f _ g args => f.1 ++ g.1 ++ "(" ++ args.print ++ ")"
  | _, .vector v _ _ _ g p e => v.1 ++ g.1 ++ "(" ++ p.around e.print ++ ")"
  | _, .matrix m _ _ _ _ _ g p e q e' =>
    m.1 ++ g.1 ++ "(" ++ p.around e.print ++ "," ++ q.around e'.print ++ ")"
  | _, .none g => g.1
  | _, .last p e => p.around e.print
  | _, .more p e rest => p.around e.print ++ "," ++ rest.print

/-- The address operator before an element that is passed. -/
def mark (passed : Bool) : Text := if passed then "&" else []

/-- The text with every array element settled.  `passed` says of an expression that it is a whole
argument of a procedure, and of arguments that they are those of a procedure. -/
def settled : {part : Part} → Tree table part → (passed : Bool) → Text
  | _, .number n, _ => n.text
  | _, .name w, _ => w.1
  | _, .group p e, _ => "(" ++ p.around (e.settled false) ++ ")"
  | _, .binary l p op r, _ => l.settled false ++ p.around op.text ++ r.settled false
  | _, .apply f _ g args, _ => f.1 ++ g.1 ++ "(" ++ args.settled (table.isCallable f.1) ++ ")"
  | _, .vector _ s _ _ _ _ e, passed => mark passed ++ s.name ++ "[(" ++ e.settled false ++ ")-1]"
  | _, .matrix _ s _ _ leading _ _ _ e _ e', passed =>
    mark passed ++ s.name ++ "[((" ++ e.settled false ++ ")-1)+((" ++ e'.settled false ++ ")-1)*(" ++
      leading ++ ")]"
  | _, .none g, _ => g.1
  | _, .last p e, passed => p.around (e.settled passed)
  | _, .more p e rest, passed => p.around (e.settled passed) ++ "," ++ rest.settled passed

/-- The first thing is an array element or a call. -/
def leads : {part : Part} → Tree table part → Bool
  | _, .binary l _ _ _ => l.leads
  | _, .apply f _ _ _ => table.isCallable f.1
  | _, .vector .. => true
  | _, .matrix .. => true
  | _, _ => false

/-- No array element and no call stands right behind the point of an operator. -/
def spaced : {part : Part} → Tree table part → Bool
  | _, .number _ => true
  | _, .name _ => true
  | _, .group _ e => e.spaced
  | _, .binary l p op r =>
    l.spaced && r.spaced && !(op.isPointed && p.after.1.isEmpty && r.leads)
  | _, .apply _ _ _ args => args.spaced
  | _, .vector _ _ _ _ _ _ e => e.spaced
  | _, .matrix _ _ _ _ _ _ _ _ e _ e' => e.spaced && e'.spaced
  | _, .none _ => true
  | _, .last _ e => e.spaced
  | _, .more _ e rest => e.spaced && rest.spaced

theorem nested_blanks (g : Blanks) : NestedItem g.1 := by
  refine .of_flat (fun c hc => isFlat_of_class (by decide) (mem_of_allBlank g.2 c hc)) fun hc => ?_
  exact absurd (mem_of_allBlank g.2 _ hc) (by decide)

theorem nested_operand {t : Text} (h : ∀ c ∈ t, isOperand c = true) : NestedItem t := by
  refine .of_flat (fun c hc => isFlat_of_class (by decide) (h c hc)) fun hc => ?_
  exact absurd (h _ hc) (by decide)

theorem nested_word {t : Text} (h : ∀ c ∈ t, isWord c = true) : NestedItem t :=
  nested_operand fun c hc => by simp [isOperand, h c hc]

theorem nested_numeral (n : Numeral) : NestedItem n.text := by
  refine (nested_operand n.operand).append ?_
  rcases n.signed with h | ⟨sign, digits, h, hs, hd⟩
  · rw [h]
    exact .nil
  · have hw := nested_word fun c hc => word_of_digit ((mem_of_isDigits hd).2 c hc)
    rw [h]
    rcases hs with rfl | rfl
    · exact (by decide : NestedItem ['+']).append hw
    · exact (by decide : NestedItem ['-']).append hw

theorem nested_operator (op : Operator) : NestedItem op.text := by
  cases op with
  | marks t hne h =>
    have hmark {c : Char} (hc : c ∈ t) : isFlat c = true ∧ c ≠ ',' := by
      have hm := h c hc
      simp only [isMark, Bool.and_eq_true, bne_iff_ne] at hm
      exact ⟨hm.1.2, hm.2⟩
    exact .of_flat (fun c hc => (hmark hc).1) fun hc => (hmark hc).2 rfl
  | pointed w h =>
    exact ((by decide : NestedItem ".").append (nested_word h)).append (by decide)

theorem nested_around (p : Pad) {t : Text} (h : NestedItem t) : NestedItem (p.around t) :=
  ((nested_blanks p.before).append h).append (nested_blanks p.after)

theorem nested_name (w : Name) : NestedItem w.1 := nested_word w.2.mem_word.2

theorem nested_reference (f : Name) (g : Blanks) {t : Text} (h : Nested t) :
    NestedItem (f.1 ++ g.1 ++ "(" ++ t ++ ")") := by
  have hp := ((nested_name f).append (nested_blanks g)).append (NestedItem.parens h)
  simpa using hp

theorem nests_print {part : Part} (e : Tree table part) : part.Nests e.print := by
  have comma : Nested ",".toList := by decide
  induction e with
  | number n => exact nested_numeral n
  | name w => exact nested_name w
  | group p e ih =>
    have hp := NestedItem.parens (nested_around p ih).nested
    simpa [print, Part.Nests] using hp
  | binary l p op r ihl ihr => exact (ihl.append (nested_around p (nested_operator op))).append ihr
  | apply f h g args ih => exact nested_reference f g ih
  | vector v s hs hk g p e ih => exact nested_reference v g (nested_around p ih).nested
  | matrix m s hs hk leading hd g p e q e' ih ih' =>
    have hr := nested_reference m g
      (((nested_around p ih).nested.append comma).append (nested_around q ih').nested)
    simpa [print, Part.Nests] using hr
  | none g => exact (nested_blanks g).nested
  | last p e ih => exact (nested_around p ih).nested
  | more p e rest ih ihr => exact ((nested_around p ih).nested.append comma).append ihr

/-- The text has no blanks at its ends. -/
structure Solid (t : Text) : Prop where
  start : ∃ c u, t = c :: u ∧ isBlank c = false
  finish : ∃ u c, t = u ++ [c] ∧ isBlank c = false

theorem Solid.of_all {t : Text} (hne : t ≠ []) (h : ∀ c ∈ t, isBlank c = false) : Solid t where
  start := by
    obtain ⟨c, u, rfl⟩ := List.exists_cons_of_ne_nil hne
    exact ⟨c, u, rfl, h c (by simp)⟩
  finish := by
    obtain ⟨u, c, rfl⟩ := List.eq_nil_or_concat t |>.resolve_left hne
    exact ⟨u, c, by simp, h c (by simp)⟩

theorem Solid.append {t u : Text} (m : Text) (ht : Solid t) (hu : Solid u) :
    Solid (t ++ m ++ u) where
  start := by
    obtain ⟨c, v, rfl, hc⟩ := ht.start
    exact ⟨c, v ++ m ++ u, rfl, hc⟩
  finish := by
    obtain ⟨v, c, rfl, hc⟩ := hu.finish
    exact ⟨t ++ m ++ v, c, by simp, hc⟩

theorem Solid.trim_around {t : Text} (h : Solid t) (p : Pad) : trim (p.around t) = t := by
  obtain ⟨c, u, rfl, hc⟩ := h.start
  obtain ⟨v, d, hv, hd⟩ := h.finish
  have hs : trimStart (p.around (c :: u)) = c :: u ++ p.after.1 := by
    rw [Pad.around, List.append_assoc]
    exact trimStart_run p.before.2 (.cons hc)
  rw [trim, hs, trimEnd_blanks p.after.2, hv, trimEnd_of_last hd]

theorem solid_operand {t : Text} (hne : t ≠ []) (h : ∀ c ∈ t, isOperand c = true) : Solid t := by
  refine .of_all hne fun c hc => ?_
  cases hb : isBlank c with
  | false => rfl
  | true =>
    have ho := h c hc
    rw [isOperand, not_word_of_blank hb, Bool.false_or, beq_iff_eq] at ho
    subst ho
    exact absurd hb (by decide)

theorem solid_name (w : Name) : Solid w.1 :=
  solid_operand w.2.mem_word.1 fun c hc => by simp [isOperand, w.2.mem_word.2 c hc]

theorem solid_numeral (n : Numeral) : Solid n.text := by
  have hl := solid_operand n.ne_nil n.operand
  rcases n.signed with h | ⟨sign, digits, h, -, hd⟩
  · rw [Numeral.text, h, List.append_nil]
    exact hl
  · have hm := mem_of_isDigits hd
    have hs : Solid digits := solid_operand hm.1 fun c hc => by simp [isOperand, word_of_digit (hm.2 c hc)]
    have he : n.text = n.lead ++ [sign] ++ digits := by simp [Numeral.text, h]
    rw [he]
    exact hl.append [sign] hs

theorem solid_reference (f : Name) (g t : Text) : Solid (f.1 ++ g ++ "(" ++ t ++ ")") := by
  have hs := (solid_name f).append (g ++ "(" ++ t) (u := ")") (.of_all (by simp) (by simp [isBlank]))
  simpa using hs

theorem solid_print {part : Part} (e : Tree table part) (h : part = .expr) : Solid e.print := by
  induction e with
  | number n => exact solid_numeral n
  | name w => exact solid_name w
  | group p e ih =>
    have hp : Solid "(".toList := .of_all (by simp) (by simp [isBlank])
    exact hp.append (p.around e.print) (.of_all (by simp) (by simp [isBlank]))
  | binary l p op r ihl ihr => exact (ihl rfl).append _ (ihr rfl)
  | apply f h g args ih => exact solid_reference f g.1 args.print
  | vector v s hs hk g p e ih => exact solid_reference v g.1 (p.around e.print)
  | matrix m s hs hk leading hd g p e q e' ih ih' =>
    simpa [print] using solid_reference m g.1 (p.around e.print ++ "," ++ q.around e'.print)
  | none g => cases h
  | last p e ih => cases h
  | more p e rest ih ihr => cases h

end Tree

/-- What stands right before a place: a word, blanks behind a word, or neither. -/
inductive Edge where
  | clear | word | gap
  deriving DecidableEq

/-- There is no next edge when a word follows a word and blanks. -/
def Edge.next (e : Edge) (c : Char) : Option Edge :=
  if isWord c then if e = .gap then none else some .word
  else if isBlank c then some (if e = .clear then .clear else .gap)
  else some .clear

def edgeAfter : Edge → Text → Option Edge
  | e, [] => some e
  | e, c :: t => (e.next c).bind (edgeAfter · t)

theorem edgeAfter_append (e : Edge) (t u : Text) :
    edgeAfter e (t ++ u) = (edgeAfter e t).bind (edgeAfter · u) := by
  induction t generalizing e with
  | nil => rfl
  | cons c t ih =>
    simp only [List.cons_append, edgeAfter, Option.bind_assoc]
    cases e.next c with
    | none => rfl
    | some e => exact ih e

theorem edgeAfter_mark {c : Char} (hw : isWord c = false) (hb : isBlank c = false) (e : Edge)
    (t : Text) : edgeAfter e (c :: t) = edgeAfter .clear t := by
  simp [edgeAfter, Edge.next, hw, hb]

theorem edgeAfter_blanks {g : Text} (hg : g.allBlank = true) (e : Edge) :
    edgeAfter e g = some (if g = [] ∨ e = .clear then e else .gap) := by
  induction g generalizing e with
  | nil => simp [edgeAfter]
  | cons c g ih =>
    have hb := mem_of_allBlank hg c (by simp)
    have hg' : allBlank g = true := by
      simp only [allBlank, List.all_cons, Bool.and_eq_true] at hg
      exact hg.2
    have hw := not_word_of_blank hb
    cases e <;> simp [edgeAfter, Edge.next, hw, hb, ih hg']

theorem edgeAfter_word {w : Text} (hw : ∀ c ∈ w, isWord c = true) {e : Edge} (he : e ≠ .gap) :
    edgeAfter e w = some (if w = [] then e else .word) := by
  induction w generalizing e with
  | nil => simp [edgeAfter]
  | cons c w ih =>
    have hc := hw c (by simp)
    have hrest := ih (fun c hc => hw c (by simp [hc])) (e := .word) (by simp)
    simp [edgeAfter, Edge.next, hc, he, hrest]

theorem edgeAfter_operand {t : Text} (ht : ∀ c ∈ t, isOperand c = true) (e : Edge) (he : e ≠ .gap) :
    ∃ e', edgeAfter e t = some e' ∧ e' ≠ .gap := by
  induction t generalizing e with
  | nil => exact ⟨e, rfl, he⟩
  | cons c t ih =>
    have hrest := ih fun c hc => ht c (by simp [hc])
    by_cases hw : isWord c = true
    · obtain ⟨e', h, hne⟩ := hrest .word (by simp)
      exact ⟨e', by simp [edgeAfter, Edge.next, hw, he, h], hne⟩
    · have hc : c = '.' := by simpa [isOperand, hw] using ht c (by simp)
      obtain ⟨e', h, hne⟩ := hrest .clear (by simp)
      exact ⟨e', by rw [hc, edgeAfter_mark (by decide) (by decide), h], hne⟩

theorem edgeAfter_enclosed {o c : Char} {t : Text} {x : Edge} (ho : isWord o = false ∧ isBlank o = false)
    (hc : isWord c = false ∧ isBlank c = false) (h : edgeAfter .clear t = some x) (e : Edge) :
    edgeAfter e (o :: t ++ [c]) = some .clear := by
  rw [edgeAfter_append, edgeAfter_mark ho.1 ho.2, h, Option.bind_some, edgeAfter_mark hc.1 hc.2]
  rfl

theorem edgeAfter_operator (op : Operator) (e : Edge) : edgeAfter e op.text = some .clear := by
  cases op with
  | marks t hne h =>
    have hmark {c : Char} (hc : c ∈ t) : isWord c = false ∧ isBlank c = false := by
      have hm := h c hc
      simp only [isMark, isOperand, Bool.and_eq_true, Bool.not_eq_true', Bool.or_eq_false_iff] at hm
      exact ⟨hm.1.1.1.1.1, hm.1.1.1.2⟩
    change edgeAfter e t = some .clear
    induction t generalizing e with
    | nil => exact absurd rfl hne
    | cons c t ih =>
      obtain ⟨hw, hb⟩ := hmark (List.mem_cons_self ..)
      rw [edgeAfter_mark hw hb]
      cases t with
      | nil => rfl
      | cons d t =>
        exact ih .clear (by simp) (fun c hc => h c (by simp [hc])) (fun hc => hmark (by simp [hc]))
  | pointed w h =>
    exact edgeAfter_enclosed (by decide) (by decide) (edgeAfter_word h (e := .clear) (by simp)) e

theorem edgeAfter_around (p : Pad) {t : Text} {x : Edge} (h : edgeAfter .clear t = some x) :
    ∃ y, edgeAfter .clear (p.around t) = some y := by
  rw [Pad.around, edgeAfter_append, edgeAfter_append, edgeAfter_blanks p.before.2]
  simp [h, edgeAfter_blanks p.after.2]

theorem edgeAfter_parens {t : Text} {x : Edge} (h : edgeAfter .clear t = some x) (e : Edge) :
    edgeAfter e ("(" ++ t ++ ")") = some .clear :=
  edgeAfter_enclosed (by decide) (by decide) h e

theorem edgeAfter_comma {t u : Text} {x y : Edge} (ht : edgeAfter .clear t = some x)
    (hu : edgeAfter .clear u = some y) : edgeAfter .clear (t ++ "," ++ u) = some y := by
  rw [List.append_assoc, edgeAfter_append, ht, Option.bind_some]
  exact (edgeAfter_mark (by decide) (by decide) x u).trans hu

theorem edgeAfter_reference (f : Name) (g : Blanks) {t : Text} {x : Edge}
    (h : edgeAfter .clear t = some x) :
    edgeAfter .clear (f.1 ++ g.1 ++ "(" ++ t ++ ")") = some .clear := by
  have he : f.1 ++ g.1 ++ "(" ++ t ++ ")" = f.1 ++ (g.1 ++ ("(" ++ t ++ ")")) := by simp
  rw [he, edgeAfter_append, edgeAfter_word f.2.mem_word.2 (by simp), Option.bind_some, edgeAfter_append,
    edgeAfter_blanks g.2, Option.bind_some, edgeAfter_parens h]

/-- A text of expressions ends with no blanks behind a word. -/
def Part.Ends : Part → Edge → Prop
  | .expr, e => e ≠ .gap
  | .args, _ => True

/-- In an expression no word follows a word and blanks. -/
theorem Tree.edgeAfter_print {table : SymbolTable} {part : Part} (e : Tree table part) :
    ∃ x, edgeAfter .clear e.print = some x ∧ part.Ends x := by
  induction e with
  | number n =>
    obtain ⟨x, hx, hne⟩ := edgeAfter_operand n.operand .clear (by simp)
    rcases n.signed with h | ⟨sign, digits, h, hs, hd⟩
    · exact ⟨x, by rw [print, Numeral.text, h, List.append_nil, hx], hne⟩
    · have hd' := edgeAfter_word (fun c hc => word_of_digit ((mem_of_isDigits hd).2 c hc)) (e := .clear)
        (by simp)
      have hsign : isWord sign = false ∧ isBlank sign = false := by
        rcases hs with rfl | rfl <;> decide
      refine ⟨.word, ?_, by simp [Part.Ends]⟩
      rw [print, Numeral.text, h, edgeAfter_append, hx, Option.bind_some,
        edgeAfter_mark hsign.1 hsign.2, hd', if_neg (mem_of_isDigits hd).1]
  | name w =>
    refine ⟨.word, ?_, by simp [Part.Ends]⟩
    rw [print, edgeAfter_word w.2.mem_word.2 (by simp), if_neg w.2.mem_word.1]
  | group p e ih =>
    obtain ⟨x, hx, -⟩ := ih
    obtain ⟨y, hy⟩ := edgeAfter_around p hx
    exact ⟨.clear, edgeAfter_parens hy .clear, by simp [Part.Ends]⟩
  | binary l p op r ihl ihr =>
    obtain ⟨x, hx, -⟩ := ihl
    obtain ⟨y, hy, hne⟩ := ihr
    refine ⟨y, ?_, hne⟩
    rw [print, edgeAfter_append, edgeAfter_append, hx, Option.bind_some, Pad.around, edgeAfter_append,
      edgeAfter_append, edgeAfter_blanks p.before.2, Option.bind_some, edgeAfter_operator,
      Option.bind_some, edgeAfter_blanks p.after.2]
    simpa using hy
  | apply f h g args ih =>
    obtain ⟨x, hx, -⟩ := ih
    exact ⟨.clear, edgeAfter_reference f g hx, by simp [Part.Ends]⟩
  | vector v s hs hk g p e ih =>
    obtain ⟨x, hx, -⟩ := ih
    obtain ⟨y, hy⟩ := edgeAfter_around p hx
    exact ⟨.clear, edgeAfter_reference v g hy, by simp [Part.Ends]⟩
  | matrix m s hs hk leading hd g p e q e' ih ih' =>
    obtain ⟨x, hx, -⟩ := ih
    obtain ⟨y, hy⟩ := edgeAfter_around p hx
    obtain ⟨x', hx', -⟩ := ih'
    obtain ⟨y', hy'⟩ := edgeAfter_around q hx'
    have hr := edgeAfter_reference m g (edgeAfter_comma hy hy')
    exact ⟨.clear, by simpa [print] using hr, by simp [Part.Ends]⟩
  | none g => exact ⟨_, edgeAfter_blanks g.2 .clear, trivial⟩
  | last p e ih =>
    obtain ⟨x, hx, -⟩ := ih
    obtain ⟨y, hy⟩ := edgeAfter_around p hx
    exact ⟨y, hy, trivial⟩
  | more p e rest ih ihr =>
    obtain ⟨x, hx, -⟩ := ih
    obtain ⟨y, hy⟩ := edgeAfter_around p hx
    obtain ⟨z, hz, -⟩ := ihr
    exact ⟨z, edgeAfter_comma hy hz, trivial⟩

end FixedForm.Reference
