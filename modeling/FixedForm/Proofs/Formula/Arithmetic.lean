import FixedForm.Proofs.Formula.Reader

/-! Arithmetic expressions: how they are written with the fewest parentheses that the order of the
operators asks for, and their values.  Read as a formula the written expression has its value. -/
namespace FixedForm.Formula
open Text

abbrev Name := { w : Text // IsName w }

/-- Blanks on one line. -/
abbrev Gap := { g : Text // g.allBlank = true ∧ g.hasLineEnd = false }

structure Pad where
  before : Gap
  after : Gap

def Gap.none : Gap := ⟨[], rfl, rfl⟩

def Gap.space : Gap := ⟨" ", by decide⟩

def Gap.append (g h : Gap) : Gap where
  val := g.1 ++ h.1
  property := ⟨by rw [allBlank_append, g.2.1, h.2.1, Bool.and_self],
    by rw [hasLineEnd, List.any_append, ← hasLineEnd, ← hasLineEnd, g.2.2, h.2.2, Bool.or_self]⟩

def Pad.none : Pad := ⟨.none, .none⟩

def Pad.around (p : Pad) (t : Text) : Text := p.before.1 ++ t ++ p.after.1

/-- Digits, perhaps with a point, and perhaps with an exponent that may have a sign. -/
structure Numeral where
  whole : Text
  fraction : Text
  exponent : Text
  whole_digits : ∀ c ∈ whole, c.isDigit = true
  fraction_form : fraction = [] ∨ ∃ d : Text, fraction = '.' :: d ∧ ∀ c ∈ d, c.isDigit = true
  exponent_form : exponent = [] ∨ ∃ (m : Char) (s d : Text), exponent = m :: (s ++ d) ∧
    isExponentMark m = true ∧ (s = [] ∨ ∃ c, s = [c] ∧ isSign c = true) ∧ d.isDigits = true
  digit : whole ≠ [] ∨ ∃ c ∈ fraction, c.isDigit = true

namespace Numeral

def text (n : Numeral) : Text := n.whole ++ n.fraction ++ n.exponent

def ofDigits (d : Text) (h : d.isDigits = true) : Numeral where
  whole := d
  fraction := []
  exponent := []
  whole_digits := (mem_of_isDigits h).2
  fraction_form := .inl rfl
  exponent_form := .inl rfl
  digit := .inl (mem_of_isDigits h).1

/-- The exponent has a sign. -/
def isSigned (n : Numeral) : Bool := n.exponent.any isSign

end Numeral

inductive Sign where
  | plus
  | minus

def Sign.text : Sign → Text
  | .plus => "+"
  | .minus => "-"

inductive Operator where
  | add | sub | mul | div | power
  deriving DecidableEq

namespace Operator

def text : Operator → Text
  | .add => "+"
  | .sub => "-"
  | .mul => "*"
  | .div => "/"
  | .power => "**"

def level : Operator → Nat
  | .add | .sub => 1
  | .mul | .div => 2
  | .power => 3

/-- Sums and products group from the left, and powers from the right. -/
def leftLevel : Operator → Nat
  | .add | .sub => 1
  | .mul | .div => 2
  | .power => 4

def rightLevel : Operator → Nat
  | .add | .sub => 2
  | .mul | .div => 3
  | .power => 3

end Operator

inductive Part where
  | expr | args

inductive Tree : Part → Type where
  | name (w : Name) : Tree .expr
  | number (n : Numeral) : Tree .expr
  | group (p : Pad) (e : Tree .expr) : Tree .expr
  | thunk (f : Name) (gap inner : Gap) : Tree .expr
  /-- A call, or a reference to an array. -/
  | call (f : Name) (gap : Gap) (args : Tree .args) : Tree .expr
  | sign (s : Sign) (gap : Gap) (e : Tree .expr) : Tree .expr
  | binary (op : Operator) (p : Pad) (a b : Tree .expr) : Tree .expr
  | one (p : Pad) (e : Tree .expr) : Tree .args
  | more (args : Tree .args) (p : Pad) (e : Tree .expr) : Tree .args

/-- Puts a text in parentheses if it needs them. -/
def wrap (needed : Bool) (t : Text) : Text := if needed then "(" ++ t ++ ")" else t

namespace Tree

/-- How tightly the outermost operator binds. -/
def level {part : Part} : Tree part → Nat
  | .sign _ _ _ => 1
  | .binary op _ _ _ => op.level
  | _ => 4

def print {part : Part} : Tree part → Text
  | .name w => w.1
  | .number n => n.text
  | .group p e => "(" ++ p.around e.print ++ ")"
  | .thunk f gap inner => f.1 ++ gap.1 ++ "(" ++ inner.1 ++ ")"
  | .call f gap args => f.1 ++ gap.1 ++ "(" ++ args.print ++ ")"
  | .sign s gap e => s.text ++ gap.1 ++ wrap (e.level < 2) e.print
  | .binary op p a b =>
    wrap (a.level < op.leftLevel) a.print ++ p.around op.text ++ wrap (b.level < op.rightLevel) b.print
  | .one p e => p.around e.print
  | .more args p e => args.print ++ "," ++ p.around e.print

end Tree

/-- What a part has for a value. -/
abbrev Part.Value (V : Type) : Part → Type
  | .expr => V
  | .args => List V

def Tree.value {V : Type} (A : Algebra V) {part : Part} : Tree part → part.Value V
  | .name w => A.name w.1
  | .number n => A.number n.text
  | .group _ e => e.value A
  | .thunk f _ _ => A.apply f.1 []
  | .call f _ args => A.apply f.1 (args.value A)
  | .sign s _ e => A.unary s.text (e.value A)
  | .binary op _ a b => A.binary op.text (a.value A) (b.value A)
  | .one _ e => [e.value A]
  | .more args _ e => args.value A ++ [e.value A]

/-- A sign before a product may be taken to its first factor, and `pow` is the power. -/
structure Arithmetic (V : Type) extends Algebra V where
  sign_mul : ∀ (s : Sign) (v w : V), unary s.text (binary "*" v w) = binary "*" (unary s.text v) w
  sign_div : ∀ (s : Sign) (v w : V), unary s.text (binary "/" v w) = binary "/" (unary s.text v) w
  apply_pow : ∀ v w : V, apply "pow" [v, w] = binary "**" v w

/-- Integers, with every name for its length, and truth values as one and zero. -/
def integers : Arithmetic Int where
  name w := if w = "false" then 0 else w.length
  number t := value (t.filter Char.isDigit)
  apply f vs := match vs with
    | [v, w] => if f = "pow" then Int.pow v w.toNat else v + w
    | vs => vs.foldl Int.add 0
  unary s v := if s = "-" then -v else if s = "!" then (v == 0).toInt else v
  binary s v w :=
    if s = "+" then v + w else if s = "-" then v - w else if s = "*" then v * w
    else if s = "/" then v.tdiv w else if s = "**" then Int.pow v w.toNat
    else if s = "<" then (v < w : Bool).toInt else if s = "<=" then (v ≤ w : Bool).toInt
    else if s = ">" then (v > w : Bool).toInt else if s = ">=" then (v ≥ w : Bool).toInt
    else if s = "==" then (v == w).toInt else if s = "!=" then (v != w).toInt
    else if s = "&&" then (v != 0 && w != 0).toInt else (v != 0 || w != 0).toInt
  sign_mul s v w := by
    cases s with
    | plus => rfl
    | minus => exact (Int.neg_mul v w).symm
  sign_div s v w := by cases s <;> simp [Sign.text, Int.neg_tdiv]
  apply_pow v w := by simp

/-! ### Tokens of an expression -/

def wrapTokens (needed : Bool) (ts : List Token) : List Token :=
  if needed then .opening :: (ts ++ [.closing]) else ts

def Tree.tokens {part : Part} : Tree part → List Token
  | .name w => [.name w.1]
  | .number n => [.number n.text]
  | .group _ e => .opening :: (e.tokens ++ [.closing])
  | .thunk f _ _ => [.name f.1, .opening, .closing]
  | .call f _ args => .name f.1 :: .opening :: (args.tokens ++ [.closing])
  | .sign s _ e => .op s.text :: wrapTokens (e.level < 2) e.tokens
  | .binary op _ a b =>
    wrapTokens (a.level < op.leftLevel) a.tokens ++
      .op op.text :: wrapTokens (b.level < op.rightLevel) b.tokens
  | .one _ e => e.tokens
  | .more args _ e => args.tokens ++ .comma :: e.tokens

theorem not_glue_of_apart {c : Char} (h : isOperand c = true ∨ isBlank c = true) : isGlue c = false := by
  cases hg : isGlue c with
  | false => rfl
  | true =>
    simp only [isGlue, Bool.or_eq_true, beq_iff_eq] at hg
    rcases hg with ((rfl | rfl) | rfl) | rfl <;> exact absurd h (by decide)

theorem not_operand_of_blank {c : Char} (h : isBlank c = true) : isOperand c = false := by
  have hpoint : c ≠ '.' := by
    rintro rfl
    exact absurd h (by decide)
  simp [isOperand, not_word_of_blank h, hpoint]

theorem not_blank_of_operand {c : Char} (h : isOperand c = true) : isBlank c = false := by
  cases hb : isBlank c with
  | false => rfl
  | true => simp [not_operand_of_blank hb] at h

theorem operand_of_digit {c : Char} (h : c.isDigit = true) : isOperand c = true := by
  simp [isOperand, word_of_digit h]

section Marks
variable {c : Char}

theorem not_mark_of_digit (h : c.isDigit = true) : isExponentMark c = false := by
  cases hm : isExponentMark c with
  | false => rfl
  | true =>
    simp only [isExponentMark, Bool.or_eq_true, beq_iff_eq] at hm
    rcases hm with ((rfl | rfl) | rfl) | rfl <;> exact absurd h (by decide)

theorem operand_of_mark (h : isExponentMark c = true) : isOperand c = true := by
  simp only [isExponentMark, Bool.or_eq_true, beq_iff_eq] at h
  rcases h with ((rfl | rfl) | rfl) | rfl <;> decide

theorem not_sign_of_mark (h : isExponentMark c = true) : isSign c = false := by
  simp only [isExponentMark, Bool.or_eq_true, beq_iff_eq] at h
  rcases h with ((rfl | rfl) | rfl) | rfl <;> decide

theorem not_operand_of_sign (h : isSign c = true) : isOperand c = false := by
  simp only [isSign, Bool.or_eq_true, beq_iff_eq] at h
  rcases h with rfl | rfl <;> decide

theorem not_sign_of_digit (h : c.isDigit = true) : isSign c = false := by
  cases hs : isSign c with
  | false => rfl
  | true => simpa [operand_of_digit h] using not_operand_of_sign hs

end Marks

namespace Gap

theorem outside {p : Char → Bool} (hp : ∀ c, isBlank c = true → p c = false) (g : Gap) {t : Text}
    (ht : StartsOutside p t) : StartsOutside p (g.1 ++ t) := by
  obtain ⟨g, hg, -⟩ := g
  cases g with
  | nil => exact ht
  | cons c g => exact .cons (hp c (mem_of_allBlank hg c (by simp)))

theorem not_mem {c : Char} (hc : isBlank c = false) (g : Gap) : c ∉ g.1 := by
  intro hm
  simp [mem_of_allBlank g.2.1 c hm] at hc

end Gap

namespace Numeral
variable (n : Numeral)

theorem head : ∃ c u, n.text = c :: u ∧ (c.isDigit || c == '.') = true := by
  cases hw : n.whole with
  | cons c u =>
    exact ⟨c, u ++ n.fraction ++ n.exponent, by simp [text, hw],
      by simp [n.whole_digits c (by simp [hw])]⟩
  | nil =>
    rcases n.fraction_form with hf | ⟨d, hf, -⟩
    · rcases n.digit with h | ⟨c, hc, -⟩
      · exact absurd hw h
      · simp [hf] at hc
    · exact ⟨'.', d ++ n.exponent, by simp [text, hw, hf], rfl⟩

/-- The part before the exponent. -/
theorem mantissa_operand : ∀ c ∈ n.whole ++ n.fraction, isOperand c = true ∧ isExponentMark c = false := by
  intro c hc
  rcases List.mem_append.1 hc with hc | hc
  · exact ⟨operand_of_digit (n.whole_digits c hc), not_mark_of_digit (n.whole_digits c hc)⟩
  · rcases n.fraction_form with hf | ⟨d, hf, hd⟩
    · simp [hf] at hc
    · rw [hf] at hc
      rcases List.mem_cons.1 hc with rfl | hc
      · decide
      · exact ⟨operand_of_digit (hd c hc), not_mark_of_digit (hd c hc)⟩

/-- A number without a sign is one run of operand characters that does not end with the mark of an
exponent; one with a sign has the mark right before it. -/
theorem forms : (n.isSigned = false ∧ (∀ c ∈ n.text, isOperand c = true) ∧
      ∀ c, n.text.getLast? = some c → isExponentMark c = false) ∨
    (n.isSigned = true ∧ ∃ (lead d : Text) (s : Char), n.text = lead ++ s :: d ∧
      (∀ c ∈ lead, isOperand c = true) ∧ (∃ m, lead.getLast? = some m ∧ isExponentMark m = true) ∧
      isSign s = true ∧ ∀ c ∈ d, c.isDigit = true) := by
  rcases n.exponent_form with he | ⟨m, s, d, he, hm, rfl | ⟨c, rfl, hc⟩, hd⟩
  · refine .inl ⟨by simp [isSigned, he], ?_, ?_⟩
    · intro c hc
      exact (n.mantissa_operand c (by simpa [text, he] using hc)).1
    · intro c hc
      exact (n.mantissa_operand c (by simpa [text, he] using List.mem_of_getLast? hc)).2
  · obtain ⟨hne, hd⟩ := mem_of_isDigits hd
    have htext : n.text = (n.whole ++ n.fraction ++ [m]) ++ d := by simp [text, he]
    refine .inl ⟨?_, ?_, ?_⟩
    · simp only [isSigned, he, List.nil_append, List.any_cons, not_sign_of_mark hm, Bool.false_or,
        List.any_eq_false]
      exact fun c hc => by simp [not_sign_of_digit (hd c hc)]
    · intro c hc
      rw [htext] at hc
      simp only [List.mem_append, List.mem_singleton] at hc
      rcases hc with (hc | rfl) | hc
      · exact (n.mantissa_operand c (List.mem_append.2 hc)).1
      · exact operand_of_mark hm
      · exact operand_of_digit (hd c hc)
    · intro c hc
      rw [htext, List.getLast?_append, List.getLast?_eq_some_getLast hne, Option.some_or] at hc
      cases hc
      exact not_mark_of_digit (hd _ (List.getLast_mem hne))
  · refine .inr ⟨by simp [isSigned, he, hc], n.whole ++ n.fraction ++ [m], d, c, by simp [text, he], ?_,
      ⟨m, by simp, hm⟩, hc, (mem_of_isDigits hd).2⟩
    intro c hc
    simp only [List.mem_append, List.mem_singleton] at hc
    rcases hc with hc | rfl
    · exact (n.mantissa_operand c (List.mem_append.2 hc)).1
    · exact operand_of_mark hm

/-- The reader of numbers takes a number as a whole. -/
theorem number_append {rest : Text} (hr : StartsOutside isOperand rest) :
    number (n.text ++ rest) = (n.text, rest) := by
  rcases n.forms with ⟨-, hop, hlast⟩ | ⟨-, lead, d, s, htext, hlead, ⟨m, hm, hmark⟩, hs, hd⟩
  · obtain ⟨c, u, htext, -⟩ := n.head
    have hne : n.text ≠ [] := by simp [htext]
    rw [number, takeWhile_run hop hr, dropWhile_run hop hr, List.getLast?_eq_some_getLast hne]
    have hmark := hlast _ (List.getLast?_eq_some_getLast hne)
    cases rest with
    | nil => rfl
    | cons s rest => simp [hmark]
  · have hstop : StartsOutside isOperand (s :: (d ++ rest)) := .cons (not_operand_of_sign hs)
    have hdop : ∀ c ∈ d, isOperand c = true := fun c hc => operand_of_digit (hd c hc)
    have happend : n.text ++ rest = lead ++ s :: (d ++ rest) := by simp [htext]
    rw [number, happend, takeWhile_run hlead hstop, dropWhile_run hlead hstop, hm]
    simp [hmark, hs, takeWhile_run hdop hr, dropWhile_run hdop hr, htext]

end Numeral

/-- The text is not empty, and nothing in front could belong to an operator before it. -/
structure Apart (t : Text) : Prop where
  ne_nil : t ≠ []
  outside : StartsOutside isGlue t

namespace Apart
variable {t : Text}

theorem cons {c : Char} (h : isGlue c = false) (t : Text) : Apart (c :: t) := ⟨by simp, .cons h⟩

theorem append (h : Apart t) (u : Text) : Apart (t ++ u) :=
  ⟨by simp [h.ne_nil], h.outside.append h.ne_nil⟩

theorem gap (h : Apart t) (g : Gap) : Apart (g.1 ++ t) :=
  ⟨by simp [h.ne_nil], g.outside (fun _ hc => not_glue_of_apart (.inr hc)) h.outside⟩

theorem around (h : Apart t) (p : Pad) : Apart (p.around t) := by
  rw [Pad.around, List.append_assoc]
  exact (h.append _).gap p.before

theorem wrap (h : Apart t) (b : Bool) : Apart (Formula.wrap b t) := by
  cases b with
  | false => exact h
  | true => exact .cons (by decide) _

theorem name (w : Name) : Apart w.1 := by
  obtain ⟨c, u, hw, hc, -⟩ := w.2.startsName []
  rw [List.append_nil] at hw
  rw [hw]
  exact .cons (not_glue_of_apart (.inl (by simp [isOperand, hc]))) u

end Apart

theorem Tree.apart_print {part : Part} (e : Tree part) : Apart e.print := by
  induction e with
  | name w => exact .name w
  | number n =>
    obtain ⟨c, u, ht, hc⟩ := n.head
    have hop : isOperand c = true := by
      rcases Bool.or_eq_true_iff.1 hc with h | h
      · exact operand_of_digit h
      · rw [isOperand, h, Bool.or_true]
    rw [print, ht]
    exact .cons (not_glue_of_apart (.inl hop)) u
  | group p e => exact .cons (by decide) _
  | thunk f | call f => exact (((Apart.name f).append _).append _).append _ |>.append _
  | sign s gap e => cases s <;> exact .cons (by decide) _
  | binary op p a b iha => exact ((iha.wrap _).append _).append _
  | one p e ih => exact ih.around p
  | more args p e iha => exact (iha.append _).append _

/-- `t` spells the tokens `ts`, whatever follows it. -/
def Spells (t : Text) (ts : List Token) : Prop :=
  ∀ rest, StartsOutside isOperand rest → tokens? (t ++ rest) = (tokens? rest).map (ts ++ ·)

section Spells
variable {t u : Text} {ts us : List Token}

theorem tokens?_gap (g : Gap) (t : Text) : tokens? (g.1 ++ t) = tokens? t := tokens?_blanks g.2.1

theorem Gap.outside_operand (g : Gap) {t : Text} (h : StartsOutside isOperand t) :
    StartsOutside isOperand (g.1 ++ t) :=
  g.outside (fun _ => not_operand_of_blank) h

theorem Spells.tokens (h : Spells t ts) : tokens? t = some ts := by
  have ht := h [] .nil
  rw [List.append_nil] at ht
  rw [ht, tokens?]
  simp

theorem Spells.around (h : Spells t ts) (p : Pad) : Spells (p.around t) ts := by
  intro rest hr
  rw [Pad.around, List.append_assoc, List.append_assoc, tokens?_gap,
    h _ (p.after.outside_operand hr), tokens?_gap]

theorem Spells.parens (h : Spells t ts) : Spells ("(" ++ t ++ ")") (.opening :: (ts ++ [.closing])) := by
  intro rest hr
  have htext : "(" ++ t ++ ")" ++ rest = '(' :: (t ++ ')' :: rest) := by simp
  rw [htext, tokens?_opening, h _ (.cons (by decide)), tokens?_closing]
  cases tokens? rest <;> simp

theorem Spells.wrap (h : Spells t ts) (b : Bool) : Spells (Formula.wrap b t) (wrapTokens b ts) := by
  cases b with
  | false => exact h
  | true => exact h.parens

theorem Spells.name (w : Name) : Spells w.1 [.name w.1] := by
  intro rest hr
  exact tokens?_name w.2 (hr.mono fun c hc => by simp [isOperand, hc])

/-- A name, blanks and parentheses. -/
theorem Spells.call (f : Name) (gap : Gap) (h : Spells t ts) :
    Spells (f.1 ++ gap.1 ++ "(" ++ t ++ ")") (.name f.1 :: .opening :: (ts ++ [.closing])) := by
  intro rest hr
  have htext : f.1 ++ gap.1 ++ "(" ++ t ++ ")" ++ rest = f.1 ++ (gap.1 ++ ("(" ++ t ++ ")" ++ rest)) := by
    simp
  have hopen : StartsOutside isOperand ("(" ++ t ++ ")" ++ rest) := .cons (by decide)
  rw [htext, Spells.name f _ (gap.outside_operand hopen), tokens?_gap, h.parens rest hr]
  cases tokens? rest <;> simp

theorem outside_symbol {w : Text} (hw : w ∈ symbols) (rest : Text) : StartsOutside isOperand (w ++ rest) := by
  simp only [symbols, List.mem_cons, List.not_mem_nil, or_false] at hw
  rcases hw with rfl | rfl | rfl | rfl | rfl | rfl | rfl | rfl | rfl | rfl | rfl | rfl | rfl | rfl <;>
    exact .cons (by decide)

theorem Spells.op {w : Text} (hw : w ∈ symbols) (gap : Gap) (ha : Apart u) (h : Spells u us) :
    Spells (w ++ gap.1 ++ u) (.op w :: us) := by
  intro rest hr
  have hglue := ((ha.append rest).gap gap).outside
  rw [List.append_assoc, List.append_assoc, tokens?_symbol hw hglue, tokens?_gap, h rest hr]
  cases tokens? rest <;> simp

theorem Spells.binary {w : Text} (hw : w ∈ symbols) (p : Pad) (ht : Spells t ts) (ha : Apart u)
    (hu : Spells u us) : Spells (t ++ p.around w ++ u) (ts ++ .op w :: us) := by
  intro rest hr
  have htext : t ++ p.around w ++ u ++ rest = t ++ (p.before.1 ++ (w ++ p.after.1 ++ u ++ rest)) := by
    simp [Pad.around]
  have hstart : StartsOutside isOperand (w ++ p.after.1 ++ u ++ rest) := by
    rw [List.append_assoc, List.append_assoc]
    exact outside_symbol hw _
  rw [htext, ht _ (p.before.outside_operand hstart), tokens?_gap, Spells.op hw p.after ha hu rest hr]
  cases tokens? rest <;> simp

theorem Spells.comma (ht : Spells t ts) (hu : Spells u us) : Spells (t ++ "," ++ u) (ts ++ .comma :: us) := by
  intro rest hr
  have htext : t ++ "," ++ u ++ rest = t ++ ',' :: (u ++ rest) := by simp
  rw [htext, ht _ (.cons (by decide)), tokens?_comma, hu rest hr]
  cases tokens? rest <;> simp

end Spells

theorem Sign.mem_symbols (s : Sign) : s.text ∈ symbols := by
  cases s <;> decide

theorem Operator.mem_symbols (op : Operator) : op.text ∈ symbols := by
  cases op <;> decide

theorem Tree.spells_print {part : Part} (e : Tree part) : Spells e.print e.tokens := by
  induction e with
  | name w => exact .name w
  | number n =>
    intro rest hr
    obtain ⟨c, u, ht, hc⟩ := n.head
    refine tokens?_number (by simp [print, ht]) (fun d hd => ?_) (n.number_append hr)
    rw [print, ht] at hd
    cases hd
    exact hc
  | group p e ih => exact (ih.around p).parens
  | thunk f gap inner =>
    have hnone : Spells inner.1 [] := fun rest _ => by simp [tokens?_gap]
    exact .call f gap hnone
  | call f gap args ih => exact .call f gap ih
  | sign s gap e ih => exact .op s.mem_symbols gap (e.apart_print.wrap _) (ih.wrap _)
  | binary op p a b iha ihb => exact (iha.wrap _).binary op.mem_symbols p (b.apart_print.wrap _) (ihb.wrap _)
  | one p e ih => exact ih.around p
  | more args p e iha ihe => exact iha.comma (ihe.around p)

/-- What an expression is written with: operand characters, blanks on one line, and marks. -/
def IsPrinted (c : Char) : Prop :=
  isOperand c = true ∨ (isBlank c = true ∧ isLineEnd c = false) ∨ c ∈ "()+-*/,".toList

theorem Gap.mem_printed (g : Gap) : ∀ c ∈ g.1, IsPrinted c := by
  intro c hc
  have hl : isLineEnd c = false := by
    have h := g.2.2
    rw [hasLineEnd, List.any_eq_false] at h
    simpa using h c hc
  exact .inr (.inl ⟨mem_of_allBlank g.2.1 c hc, hl⟩)

theorem Numeral.mem_printed (n : Numeral) : ∀ c ∈ n.text, IsPrinted c := by
  intro c hc
  rcases n.forms with ⟨-, hop, -⟩ | ⟨-, lead, d, s, htext, hlead, -, hs, hd⟩
  · exact .inl (hop c hc)
  · rw [htext] at hc
    simp only [List.mem_append, List.mem_cons] at hc
    rcases hc with hc | rfl | hc
    · exact .inl (hlead c hc)
    · simp only [isSign, Bool.or_eq_true, beq_iff_eq] at hs
      rcases hs with rfl | rfl
      iterate 2 exact .inr (.inr (by decide))
    · exact .inl (operand_of_digit (hd c hc))

section Printed
variable {t u : Text}

theorem printed_append (ht : ∀ c ∈ t, IsPrinted c) (hu : ∀ c ∈ u, IsPrinted c) :
    ∀ c ∈ t ++ u, IsPrinted c := by
  intro c hc
  rcases List.mem_append.1 hc with hc | hc
  · exact ht c hc
  · exact hu c hc

theorem printed_marks (h : t ⊆ "()+-*/,".toList) : ∀ c ∈ t, IsPrinted c := fun _ hc => .inr (.inr (h hc))

theorem printed_around (p : Pad) (h : ∀ c ∈ t, IsPrinted c) : ∀ c ∈ p.around t, IsPrinted c :=
  printed_append (printed_append p.before.mem_printed h) p.after.mem_printed

theorem printed_parens (h : ∀ c ∈ t, IsPrinted c) : ∀ c ∈ "(" ++ t ++ ")", IsPrinted c :=
  printed_append (printed_append (printed_marks (by decide)) h) (printed_marks (by decide))

theorem printed_wrap (h : ∀ c ∈ t, IsPrinted c) (b : Bool) : ∀ c ∈ wrap b t, IsPrinted c := by
  cases b with
  | false => exact h
  | true => exact printed_parens h

end Printed

theorem Tree.mem_print {part : Part} (e : Tree part) : ∀ c ∈ e.print, IsPrinted c := by
  have hname (w : Name) : ∀ c ∈ w.1, IsPrinted c := fun c hc =>
    .inl (by simp [isOperand, w.2.mem_word.2 c hc])
  induction e with
  | name w => exact hname w
  | number n => exact n.mem_printed
  | group p e ih => exact printed_parens (printed_around p ih)
  | thunk f gap inner =>
    have h := printed_append (printed_append (hname f) gap.mem_printed) (printed_parens inner.mem_printed)
    simpa [print] using h
  | call f gap args ih =>
    have h := printed_append (printed_append (hname f) gap.mem_printed) (printed_parens ih)
    simpa [print] using h
  | sign s gap e ih =>
    have hs : ∀ c ∈ s.text, IsPrinted c := printed_marks (by cases s <;> decide)
    exact printed_append (printed_append hs gap.mem_printed) (printed_wrap ih _)
  | binary op p a b iha ihb =>
    have hop : ∀ c ∈ op.text, IsPrinted c := printed_marks (by cases op <;> decide)
    exact printed_append (printed_append (printed_wrap iha _) (printed_around p hop)) (printed_wrap ihb _)
  | one p e ih => exact printed_around p ih
  | more args p e iha ihe =>
    exact printed_append (printed_append iha (printed_marks (by decide))) (printed_around p ihe)

/-! ### The value of a written expression -/

/-- The level of the grammar at which an expression is read. -/
def readLevel (level : Nat) : Nat := if level ≤ 1 then 5 else if level = 2 then 6 else if level = 3 then 8 else 9

theorem readLevel_mono {l l' : Nat} (h : l' ≤ l) : readLevel l' ≤ readLevel l := by
  unfold readLevel
  grind

theorem readLevel_le (l : Nat) : 1 ≤ readLevel l ∧ readLevel l ≤ 9 := by
  unfold readLevel
  grind

section Derives
variable {V : Type}

/-- What is written in parentheses if it needs them is read at the level that was asked for. -/
theorem derives_wrap {A : Algebra V} {ts : List Token} {v : V} {l : Nat} (l' : Nat)
    (h : Derives A (.expr (readLevel l)) ts v) :
    Derives A (.expr (readLevel l')) (wrapTokens (l < l') ts) v := by
  by_cases hl : l < l'
  · rw [wrapTokens, if_pos (by simpa using hl)]
    exact (Derives.group (h.tighter (readLevel_le l).1)).tighter (readLevel_le l').2
  · rw [wrapTokens, if_neg (by simpa using hl)]
    exact h.tighter (readLevel_mono (Nat.le_of_not_lt hl))

variable (A : Arithmetic V)

/-- What holds of the reading of a part: a product may also be read with a sign before it. -/
def Tree.Read {part : Part} (e : Tree part) : Prop :=
  match part with
  | .expr => Derives A.toAlgebra (.expr (readLevel e.level)) e.tokens (e.value A.toAlgebra) ∧
    ∀ s : Sign, Derives A.toAlgebra (.expr 6) (.op s.text :: wrapTokens (e.level < 2) e.tokens)
      (A.unary s.text (e.value A.toAlgebra))
  | .args => Derives A.toAlgebra .args e.tokens (e.value A.toAlgebra)

/-- A sign before something that binds tighter than a product. -/
theorem derives_sign {ts : List Token} {v : V} {l : Nat} (hl : 7 ≤ l) (s : Sign)
    (h : Derives A.toAlgebra (.expr l) ts v) :
    Derives A.toAlgebra (.expr 6) (.op s.text :: ts) (A.unary s.text v) :=
  (Derives.unary (by cases s <;> decide) (h.tighter hl)).tighter (by decide)

theorem read_sum {op : Operator} (hop : op = .add ∨ op = .sub) (p : Pad) {a b : Tree .expr}
    (ha : Derives A.toAlgebra (.expr (readLevel a.level)) a.tokens (a.value A.toAlgebra))
    (hb : Derives A.toAlgebra (.expr (readLevel b.level)) b.tokens (b.value A.toAlgebra)) :
    (Tree.binary op p a b).Read A := by
  have hleft : op.leftLevel = 1 := by rcases hop with rfl | rfl <;> rfl
  have hright : op.rightLevel = 2 := by rcases hop with rfl | rfl <;> rfl
  have hlevel : op.level = 1 := by rcases hop with rfl | rfl <;> rfl
  have hread : level? op.text = some 5 := by rcases hop with rfl | rfl <;> decide
  have h : Derives A.toAlgebra (.expr 5) (Tree.binary op p a b).tokens
      ((Tree.binary op p a b).value A.toAlgebra) := by
    rw [Tree.tokens, hleft, hright]
    exact .binary hread (by decide) (derives_wrap 1 ha) (derives_wrap 2 hb)
  refine ⟨?_, fun s => ?_⟩
  · rw [Tree.level, hlevel]
    exact h
  · rw [Tree.level, hlevel]
    exact derives_sign A (by decide) s (.group (h.tighter (by decide)))

/-- A sign before a product is read as a sign before its first factor. -/
theorem read_product {op : Operator} (hop : op = .mul ∨ op = .div) (p : Pad) {a b : Tree .expr}
    (hsign : ∀ (s : Sign) (v w : V),
      A.unary s.text (A.binary op.text v w) = A.binary op.text (A.unary s.text v) w)
    (ha : a.Read A)
    (hb : Derives A.toAlgebra (.expr (readLevel b.level)) b.tokens (b.value A.toAlgebra)) :
    (Tree.binary op p a b).Read A := by
  have hleft : op.leftLevel = 2 := by rcases hop with rfl | rfl <;> rfl
  have hright : op.rightLevel = 3 := by rcases hop with rfl | rfl <;> rfl
  have hlevel : op.level = 2 := by rcases hop with rfl | rfl <;> rfl
  have hread : level? op.text = some 6 := by rcases hop with rfl | rfl <;> decide
  have hb' : Derives A.toAlgebra (.expr 7) (wrapTokens (b.level < 3) b.tokens) (b.value A.toAlgebra) :=
    (derives_wrap 3 hb).tighter (by decide)
  refine ⟨?_, fun s => ?_⟩
  · rw [Tree.level, hlevel, Tree.tokens, hleft, hright]
    exact .binary hread (by decide) (derives_wrap 2 ha.1) hb'
  · rw [Tree.level, hlevel, Tree.tokens, hleft, hright, Tree.value, hsign]
    exact .binary hread (by decide) (ha.2 s) hb'

theorem Tree.read {part : Part} (e : Tree part) : e.Read A := by
  have hprimary {e : Tree .expr} (hl : e.level = 4)
      (h : Derives A.toAlgebra (.expr 9) e.tokens (e.value A.toAlgebra)) : e.Read A := by
    refine ⟨by rw [hl]; exact h, fun s => ?_⟩
    rw [hl]
    exact derives_sign A (by decide) s h
  induction e with
  | name w => exact hprimary rfl (.name w.1)
  | number n => exact hprimary rfl (.number n.text)
  | group p e ih => exact hprimary rfl (.group (ih.1.tighter (readLevel_le _).1))
  | thunk f gap inner => exact hprimary rfl (.thunk f.1)
  | call f gap args ih => exact hprimary rfl (.call f.1 ih)
  | sign s gap e ih =>
    have h := ih.2 s
    refine ⟨h.tighter (show readLevel 1 ≤ 6 by decide), fun s' => ?_⟩
    exact derives_sign A (by decide) s' (.group (h.tighter (by decide)))
  | binary op p a b iha ihb =>
    cases op with
    | add => exact read_sum A (.inl rfl) p iha.1 ihb.1
    | sub => exact read_sum A (.inr rfl) p iha.1 ihb.1
    | mul => exact read_product A (.inl rfl) p (fun s v w => A.sign_mul s v w) iha ihb.1
    | div => exact read_product A (.inr rfl) p (fun s v w => A.sign_div s v w) iha ihb.1
    | power =>
      have h : Derives A.toAlgebra (.expr 8) (Tree.binary .power p a b).tokens
          ((Tree.binary .power p a b).value A.toAlgebra) :=
        .power (derives_wrap 4 iha.1) (derives_wrap 3 ihb.1)
      exact ⟨h, fun s => derives_sign A (by decide) s h⟩
  | one p e ih => exact .one (ih.1.tighter (readLevel_le _).1)
  | more args p e iha ihe => exact .more iha (ihe.1.tighter (readLevel_le _).1)

end Derives

end FixedForm.Formula
