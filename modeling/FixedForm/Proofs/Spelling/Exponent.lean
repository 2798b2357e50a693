import FixedForm.Proofs.Formula.Arithmetic
import FixedForm.Proofs.Spelling.Power
import FixedForm.Proofs.Text.Nesting

/-! Powers in arithmetic expressions.  An operand is taken as a whole when it is a word, a call or a
group, and the text in which every power is a call of `pow` then has the value of the expression. -/
namespace FixedForm.Power
open Text

/-! ### Texts without powers -/

/-- A text without `**` stays in front of the first one. -/
theorem cut?_before {u t : Text} (hu : cut? u = none) (h : u.getLast? ≠ some '*' ∨ t.head? ≠ some '*') :
    cut? (u ++ t) = (cut? t).map fun (before, after) => (u ++ before, after) := by
  induction u with
  | nil =>
    rw [List.nil_append]
    cases cut? t <;> rfl
  | cons c u ih =>
    obtain ⟨hc, hu'⟩ := cut?_cons_eq_none.1 hu
    cases u with
    | nil =>
      rw [List.singleton_append, cut?_cons, if_neg (by simpa [imp_iff_not_or] using h)]
      cases cut? t <;> rfl
    | cons d u =>
      rw [List.cons_append, cut?_cons, if_neg (by simpa using hc), ih hu' (by simpa using h)]
      cases cut? t <;> rfl

theorem cut?_stars {u : Text} (hu : cut? u = none) (h : u.getLast? ≠ some '*') (t : Text) :
    cut? (u ++ '*' :: '*' :: t) = some (u, t) := by
  rw [cut?_before hu (.inl h), cut?]
  simp

/-- The text holds no power, and none can arise at its ends. -/
structure Clean (t : Text) : Prop where
  cut : cut? t = none
  ne_nil : t ≠ []
  head : t.head? ≠ some '*'
  last : t.getLast? ≠ some '*'

theorem cut?_of_free {t : Text} (h : '*' ∉ t) : cut? t = none := by
  have hc := cut?_append h []
  rwa [List.append_nil] at hc

namespace Clean
variable {t u : Text}

theorem of_free (h : '*' ∉ t) (hne : t ≠ []) : Clean t where
  cut := cut?_of_free h
  ne_nil := hne
  head := fun he => h (List.mem_of_mem_head? he)
  last := fun he => h (List.mem_of_getLast? he)

theorem head_append (ht : Clean t) (u : Text) : (t ++ u).head? ≠ some '*' := by
  rw [List.head?_append, List.head?_eq_some_head ht.ne_nil, Option.some_or,
    ← List.head?_eq_some_head ht.ne_nil]
  exact ht.head

theorem last_append (hu : Clean u) (t : Text) : (t ++ u).getLast? ≠ some '*' := by
  rw [List.getLast?_append, List.getLast?_eq_some_getLast hu.ne_nil, Option.some_or,
    ← List.getLast?_eq_some_getLast hu.ne_nil]
  exact hu.last

theorem append (ht : Clean t) (hu : Clean u) : Clean (t ++ u) where
  cut := by
    rw [cut?_before ht.cut (.inl ht.last), hu.cut]
    rfl
  ne_nil := by simp [ht.ne_nil]
  head := ht.head_append u
  last := hu.last_append t

/-- A single star may stand between clean texts. -/
theorem star (ht : Clean t) (hu : Clean u) : Clean (t ++ '*' :: u) where
  cut := by
    rw [cut?_before ht.cut (.inl ht.last), cut?_cons, if_neg fun h => hu.head h.2, hu.cut]
    rfl
  ne_nil := by simp
  head := ht.head_append _
  last := by
    have hlast := hu.last_append (t ++ ['*'])
    rwa [List.append_assoc] at hlast

theorem gap (ht : Clean t) (g : Formula.Gap) : Clean (g.1 ++ t) ∧ Clean (t ++ g.1) := by
  obtain ⟨g, hg, hl⟩ := g
  have hfree : '*' ∉ g := Formula.Gap.not_mem (by decide) ⟨g, hg, hl⟩
  cases g with
  | nil => simpa using ht
  | cons c g => exact ⟨(of_free hfree (by simp)).append ht, ht.append (of_free hfree (by simp))⟩

theorem around (ht : Clean t) (p : Formula.Pad) : Clean (p.around t) :=
  ((ht.gap p.before).1.gap p.after).2

theorem parens (ht : Clean t) : Clean ("(" ++ t ++ ")") :=
  ((of_free (by decide) (by decide)).append ht).append (of_free (by decide) (by decide))

theorem wrap (ht : Clean t) (b : Bool) : Clean (Formula.wrap b t) := by
  cases b with
  | false => exact ht
  | true => exact ht.parens

theorem binary (ht : Clean t) (hu : Clean u) {op : Formula.Operator} (hop : op ≠ .power)
    (p : Formula.Pad) : Clean (t ++ p.around op.text ++ u) := by
  have htext (w : Text) : t ++ p.around w ++ u = (t ++ p.before.1) ++ (w ++ (p.after.1 ++ u)) := by
    simp [Formula.Pad.around]
  have hleft := (ht.gap p.before).2
  have hright := (hu.gap p.after).1
  rw [htext]
  cases op with
  | power => exact absurd rfl hop
  | mul => exact hleft.star hright
  | add => exact hleft.append ((of_free (t := ['+']) (by decide) (by decide)).append hright)
  | sub => exact hleft.append ((of_free (t := ['-']) (by decide) (by decide)).append hright)
  | div => exact hleft.append ((of_free (t := ['/']) (by decide) (by decide)).append hright)

end Clean

theorem replace?_step {t before after next : Text} (hc : cut? t = some (before, after))
    (hs : step? before after = some next) : replace? t = replace? next := by
  rw [replace?]
  split
  · next h => simp [hc] at h
  · next b a h =>
    obtain ⟨rfl, rfl⟩ := Prod.mk.inj (Option.some.inj (hc.symm.trans h))
    split
    · next h => simp [hs] at h
    · next n h => rw [Option.some.inj (hs.symm.trans h)]

theorem replace?_of_cut? {t : Text} (h : cut? t = none) : replace? t = some t := by
  rw [replace?]
  split
  · rfl
  · next hc => simp [h] at hc

/-! ### Operands -/

/-- How an operand is written, and what of it is kept between the parentheses of the call. -/
inductive Taken : (written kept : Text) → Prop where
  | word {w : Text} (hne : w ≠ []) (hw : ∀ c ∈ w, isOperand c = true) : Taken w w
  | call {f x : Text} (hne : f ≠ []) (hf : ∀ c ∈ f, isOperand c = true) (hx : Balanced '(' ')' x) :
    Taken (f ++ '(' :: (x ++ [')'])) (f ++ '(' :: (x ++ [')']))
  | group {x : Text} (hx : Balanced '(' ')' x) (hl : x.hasLineEnd = false) : Taken ('(' :: (x ++ [')'])) x

theorem dropParens_group {x : Text} (hl : x.hasLineEnd = false) : dropParens ('(' :: (x ++ [')'])) = x := by
  simp [dropParens, between?, hl]

section Operands
variable {p w x s : Text} {g : Formula.Gap}

theorem spanEnd_run (hp : StartsOutside isOperand p.reverse) (hw : ∀ c ∈ w, isOperand c = true) :
    Text.spanEnd isOperand (p ++ w) = (p, w) := by
  have hrev : ∀ c ∈ w.reverse, isOperand c = true := fun c hc => hw c (List.mem_reverse.1 hc)
  rw [Text.spanEnd, List.reverse_append, takeWhile_run hrev hp, dropWhile_run hrev hp,
    List.reverse_reverse, List.reverse_reverse]

theorem base?_word (hne : w ≠ []) (hw : ∀ c ∈ w, isOperand c = true)
    (hp : StartsOutside isOperand p.reverse) : base? (p ++ w) = some (p, w) := by
  obtain ⟨v, c, rfl⟩ : ∃ v c, w = v ++ [c] := ⟨w.dropLast, w.getLast hne, (List.dropLast_concat_getLast hne).symm⟩
  have hc : isOperand c = true := hw c (by simp)
  have hblank : isBlank c = false := Formula.not_blank_of_operand hc
  have hparen : c ≠ ')' := by
    rintro rfl
    exact absurd hc (by decide)
  have htrim : (p ++ (v ++ [c])).trimEnd = p ++ (v ++ [c]) := by
    rw [← List.append_assoc]
    exact trimEnd_of_last hblank
  have hlast : (p ++ (v ++ [c])).getLast? = some c := by simp
  rw [base?, htrim, hlast, spanEnd_run hp hw]
  simp [hparen]

/-- A group with or without a callee. -/
theorem base?_parens {f y : Text} (hf : ∀ c ∈ f, isOperand c = true) (hy : Balanced '(' ')' y)
    (hp : StartsOutside isOperand p.reverse) :
    base? (p ++ (f ++ '(' :: (y ++ [')']))) =
      some (p, if f.isEmpty then dropParens ('(' :: (y ++ [')'])) else f ++ '(' :: (y ++ [')'])) := by
  have htext : p ++ (f ++ '(' :: (y ++ [')'])) = (p ++ f) ++ '(' :: (y ++ [')']) := by simp
  have htrim : (p ++ f ++ '(' :: (y ++ [')'])).trimEnd = p ++ f ++ '(' :: (y ++ [')']) := by
    have hlast := trimEnd_of_last (t := p ++ f ++ '(' :: y) (c := ')') (by decide)
    simpa using hlast
  have hlast : (p ++ f ++ '(' :: (y ++ [')'])).getLast? = some ')' := by
    rw [← List.cons_append, ← List.append_assoc, List.getLast?_concat]
  rw [htext, base?, htrim, hlast]
  simp only [beq_self_eq_true, if_true, opening?_balanced hy, Option.bind_eq_bind, Option.bind_some,
    List.take_left, List.drop_left, spanEnd_run hp hf]

/-- The text before an operand and the operand, behind which there may be blanks. -/
theorem base?_taken (h : Taken w x) (hp : StartsOutside isOperand p.reverse) (g : Formula.Gap) :
    base? (p ++ w ++ g.1) = some (p, x) := by
  have htrim : base? (p ++ w ++ g.1) = base? (p ++ w) := by rw [base?, base?, trimEnd_blanks g.2.1]
  rw [htrim]
  cases h with
  | word hne hw => exact base?_word hne hw hp
  | @call f y hne hf hy =>
    rw [base?_parens hf hy hp, if_neg (by simpa using hne)]
  | @group y hy hl =>
    have h := base?_parens (f := []) (by simp) hy hp
    rw [List.nil_append] at h
    rw [h, List.isEmpty_nil, if_pos rfl, dropParens_group hl]

/-- What follows an operand does not go on with it. -/
def Follows (s : Text) : Prop := StartsOutside (fun c => isOperand c || c == '(') s

theorem group?_balanced {y : Text} (hy : Balanced '(' ')' y) (rest : Text) :
    group? ('(' :: (y ++ ')' :: rest)) = some ('(' :: (y ++ [')']), rest) := by
  have htext : '(' :: (y ++ ')' :: rest) = ('(' :: (y ++ [')'])) ++ rest := by simp
  have hlen : y.length + 1 + 1 = ('(' :: (y ++ [')'])).length := by simp
  rw [group?, closing?_balanced hy, Option.map_some, htext, hlen, List.take_left, List.drop_left]

/-- The sign and the blanks are out of the way. -/
theorem exponent?_start {c : Char} {u : Text} (hc : isOperand c = true ∨ c = '(') (g : Formula.Gap) :
    trimStart (g.1 ++ c :: u) = c :: u ∧ sign (c :: u) = ([], c :: u) := by
  have hblank : isBlank c = false := by
    rcases hc with hc | rfl
    · exact Formula.not_blank_of_operand hc
    · decide
  refine ⟨trimStart_run g.2.1 (.cons hblank), ?_⟩
  rw [sign]
  · rintro _ ⟨rfl, -⟩
    revert hc
    decide
  · rintro _ ⟨rfl, -⟩
    revert hc
    decide

theorem startsWith_paren {p : Char → Bool} {t : Text} (h : StartsOutside p t) (hp : p '(' = true) :
    startsWith "(" t = false := by
  cases t with
  | nil => rfl
  | cons c t =>
    have hc : c ≠ '(' := by
      rintro rfl
      simp [h '(' rfl] at hp
    simp [startsWith, after?, hc]

/-- An operand behind the power sign and blanks, and the text behind it. -/
theorem exponent?_taken (h : Taken w x) (hs : Follows s) (g : Formula.Gap) :
    exponent? (g.1 ++ w ++ s) = some (x, s) := by
  have hstop : StartsOutside isOperand s := hs.mono fun c hc => by simp [hc]
  have hparen : startsWith "(" s = false := startsWith_paren hs (by decide)
  have hopen (t : Text) : startsWith "(" ('(' :: t) = true := rfl
  have hword {c : Char} (t : Text) (hc : isOperand c = true) : startsWith "(" (c :: t) = false :=
    startsWith_paren (p := (!isOperand ·)) (.cons (by simp [hc])) (by decide)
  cases h with
  | word hne hw =>
    cases w with
    | nil => exact absurd rfl hne
    | cons c u =>
      have hc : isOperand c = true := hw c (by simp)
      obtain ⟨htrim, hsign⟩ := exponent?_start (u := u ++ s) (.inl hc) g
      rw [exponent?, List.append_assoc, List.cons_append, htrim, hsign]
      simp only [hword _ hc, Bool.false_eq_true, if_false]
      rw [← List.cons_append, takeWhile_run hw hstop, dropWhile_run hw hstop]
      simp only [hparen, Bool.false_eq_true, if_false, List.nil_append]
  | @call f y hne hf hy =>
    cases f with
    | nil => exact absurd rfl hne
    | cons c u =>
      have hc : isOperand c = true := hf c (by simp)
      obtain ⟨htrim, hsign⟩ := exponent?_start (u := u ++ '(' :: (y ++ ')' :: s)) (.inl hc) g
      have htext : g.1 ++ (c :: u ++ '(' :: (y ++ [')'])) ++ s =
          g.1 ++ c :: (u ++ '(' :: (y ++ ')' :: s)) := by simp
      have hcall : StartsOutside isOperand ('(' :: (y ++ ')' :: s)) := .cons (by decide)
      rw [exponent?, htext, htrim, hsign]
      simp only [hword _ hc, Bool.false_eq_true, if_false]
      rw [← List.cons_append, takeWhile_run hf hcall, dropWhile_run hf hcall]
      simp only [hopen, if_true, group?_balanced hy, Option.map_some, List.nil_append]
  | @group y hy hl =>
    obtain ⟨htrim, hsign⟩ := exponent?_start (c := '(') (u := x ++ ')' :: s) (.inr rfl) g
    have htext : g.1 ++ '(' :: (x ++ [')']) ++ s = g.1 ++ '(' :: (x ++ ')' :: s) := by simp
    rw [exponent?, htext, htrim, hsign]
    simp only [hopen, if_true, group?_balanced hy, Option.map_some, List.nil_append, dropParens_group hl]

/-- A text after which an operand may start. -/
structure Ready (p : Text) : Prop where
  cut : cut? p = none
  outside : StartsOutside isOperand p.reverse

/-- One power is replaced, between its operands as they are kept. -/
theorem replace?_power {a b : Text} {v : Text} (hp : Ready p) (ha : Taken a x) (hclean : Clean a)
    (hb : Taken b v) (hs : Follows s) (pad : Formula.Pad) :
    replace? (p ++ a ++ pad.around "**" ++ b ++ s) =
      replace? (p ++ "pow(" ++ x ++ ", " ++ v ++ ")" ++ s) := by
  have htext : p ++ a ++ pad.around "**" ++ b ++ s =
      (p ++ a ++ pad.before.1) ++ '*' :: '*' :: (pad.after.1 ++ b ++ s) := by
    simp [Formula.Pad.around]
  have hbase := (hclean.gap pad.before).2
  have hcut : cut? (p ++ a ++ pad.before.1) = none := by
    rw [List.append_assoc, cut?_before hp.cut (.inr hbase.head), hbase.cut]
    rfl
  have hlast : (p ++ a ++ pad.before.1).getLast? ≠ some '*' := by
    rw [List.append_assoc]
    exact hbase.last_append p
  refine replace?_step (by rw [htext]; exact cut?_stars hcut hlast _) ?_
  simp only [step?, base?_taken ha hp.outside pad.before, exponent?_taken hb hs pad.after,
    Option.bind_eq_bind, Option.bind_some]

end Operands

theorem follows_cons {c : Char} {s : Text} (h : (isOperand c || c == '(') = false) : Follows (c :: s) := .cons h

theorem follows_gap (g : Formula.Gap) {s : Text} (h : Follows s) : Follows (g.1 ++ s) := by
  refine g.outside (fun c hb => ?_) h
  have hp : c ≠ '(' := by
    rintro rfl
    exact absurd hb (by decide)
  simp [Formula.not_operand_of_blank hb, hp]

/-- Marks behind which an operand may start. -/
structure Opens (m : Text) : Prop where
  cut : cut? m = none
  ne_nil : m ≠ []
  outside : StartsOutside isOperand m.reverse

theorem Opens.of_free {m : Text} {c : Char} (hm : '*' ∉ m) (hc : m.getLast? = some c)
    (ho : isOperand c = false) : Opens m where
  cut := cut?_of_free hm
  ne_nil := by
    rintro rfl
    cases hc
  outside := by
    intro d hd
    rw [List.head?_reverse, hc] at hd
    rw [← Option.some.inj hd, ho]

section Ready
variable {p t m : Text}

theorem ready_nil : Ready [] := ⟨rfl, .nil⟩

theorem Ready.append (hp : Ready p) (hm : Opens m) (h : m.head? ≠ some '*') : Ready (p ++ m) where
  cut := by
    rw [cut?_before hp.cut (.inr h), hm.cut]
    rfl
  outside := by
    rw [List.reverse_append]
    exact hm.outside.append (by simp [hm.ne_nil])

theorem Ready.gap (hp : Ready p) (g : Formula.Gap) : Ready (p ++ g.1) := by
  have hfree : '*' ∉ g.1 := g.not_mem (by decide)
  refine ⟨?_, ?_⟩
  · rw [cut?_before hp.cut (.inr fun h => hfree (List.mem_of_mem_head? h)), cut?_of_free hfree]
    rfl
  · rw [List.reverse_append]
    cases hg : g.1.reverse with
    | nil => exact hp.outside
    | cons c u =>
      have hc : c ∈ g.1 := by
        rw [← List.mem_reverse, hg]
        simp
      exact .cons (Formula.not_operand_of_blank (mem_of_allBlank g.2.1 c hc))

theorem Ready.next (hp : Ready p) (ht : Clean t) (hm : Opens m) : Ready (p ++ t ++ m) where
  cut := by
    rw [List.append_assoc, cut?_before hp.cut (.inr (ht.head_append m)), cut?_before ht.cut (.inl ht.last), hm.cut]
    rfl
  outside := by
    rw [List.reverse_append]
    exact hm.outside.append (by simp [hm.ne_nil])

end Ready

end FixedForm.Power

namespace FixedForm.Formula
open Text

/-! ### Expressions with calls for powers -/

namespace Tree

/-- A group without its parentheses, with the blanks in it. -/
def unwrap : Tree .expr → Pad × Tree .expr
  | .group p e => (p, e)
  | e => (.none, e)

/-- What is kept of an operand. -/
def content (e : Tree .expr) : Text := e.unwrap.1.around e.unwrap.2.print

end Tree

/-- The same blanks and one more in front. -/
def Pad.spaced (p : Pad) : Pad := ⟨Gap.space.append p.before, p.after⟩

def pow : Name := ⟨"pow", by decide⟩

def powCall (a b : Tree .expr) : Tree .expr :=
  .call pow .none (.more (.one a.unwrap.1 a.unwrap.2) b.unwrap.1.spaced b.unwrap.2)

/-- Every power as a call. -/
def Tree.powered {part : Part} : Tree part → Tree part
  | .name w => .name w
  | .number n => .number n
  | .group p e => .group p e.powered
  | .thunk f gap inner => .thunk f gap inner
  | .call f gap args => .call f gap args.powered
  | .sign s gap e => .sign s gap e.powered
  | .binary op p a b =>
    if op = .power then powCall a.powered b.powered else .binary op p a.powered b.powered
  | .one p e => .one p e.powered
  | .more args p e => .more args.powered p e.powered

/-- An operand that a power takes as a whole: no number with a signed exponent, and no call with
blanks before its parenthesis. -/
def Tree.isWhole : Tree .expr → Bool
  | .number n => !n.isSigned
  | .thunk _ gap _ => gap.1.isEmpty
  | .call _ gap _ => gap.1.isEmpty
  | _ => true

def Tree.isPower : Tree .expr → Bool
  | .binary .power _ _ _ => true
  | _ => false

/-- Every operand of a power is taken as a whole, and no power is the exponent of another without
parentheses. -/
def Tree.plain {part : Part} : Tree part → Bool
  | .name _ | .number _ | .thunk _ _ _ => true
  | .group _ e => e.plain
  | .call _ _ args => args.plain
  | .sign _ _ e => e.plain
  | .binary op _ a b =>
    a.plain && b.plain && (op != .power || (a.isWhole && b.isWhole && !b.isPower))
  | .one _ e => e.plain
  | .more args _ e => args.plain && e.plain

section Powered
variable {V : Type} (A : Arithmetic V)

theorem Tree.unwrap_value (e : Tree .expr) : e.unwrap.2.value A.toAlgebra = e.value A.toAlgebra := by
  cases e <;> rfl

theorem powCall_value (a b : Tree .expr) : (powCall a b).value A.toAlgebra =
    A.binary "**" (a.value A.toAlgebra) (b.value A.toAlgebra) := by
  rw [← A.apply_pow, ← a.unwrap_value A, ← b.unwrap_value A]
  rfl

theorem Tree.powered_value {part : Part} (e : Tree part) :
    e.powered.value A.toAlgebra = e.value A.toAlgebra := by
  induction e with
  | name w => rfl
  | number n => rfl
  | group p e ih => exact ih
  | thunk f gap inner => rfl
  | call f gap args ih => simp only [powered, value, ih]
  | sign s gap e ih => simp only [powered, value, ih]
  | binary op p a b iha ihb =>
    rw [powered]
    split
    · next hop =>
      rw [powCall_value, iha, ihb, hop]
      rfl
    · simp only [value, iha, ihb]
  | one p e ih => simp only [powered, value, ih]
  | more args p e iha ihe => simp only [powered, value, iha, ihe]

end Powered

theorem power_mem_wrapTokens {needed : Bool} {ts : List Token} :
    Token.power ∈ wrapTokens needed ts ↔ Token.power ∈ ts := by
  cases needed <;> simp [wrapTokens, Token.power]

theorem Tree.powerless_unwrap {e : Tree .expr} (h : .power ∉ e.tokens) : .power ∉ e.unwrap.2.tokens := by
  cases e with
  | group p e =>
    simp only [tokens, List.mem_cons, List.mem_append, not_or] at h
    exact h.2.1
  | _ => exact h

theorem Tree.powerless_powered {part : Part} (e : Tree part) : .power ∉ e.powered.tokens := by
  induction e with
  | name | number | thunk => simp [powered, tokens, Token.power]
  | group p e ih => simpa [powered, tokens, Token.power] using ih
  | call f gap args ih => simpa [powered, tokens, Token.power] using ih
  | sign s gap e ih =>
    have hs : Token.power ≠ .op s.text := by cases s <;> decide
    simp [powered, tokens, power_mem_wrapTokens, hs, ih]
  | binary op p a b iha ihb =>
    rw [powered]
    split
    · have ha := powerless_unwrap iha
      have hb := powerless_unwrap ihb
      simp only [powCall, tokens, List.mem_cons, List.mem_append, ha, hb]
      simp [Token.power]
    · next hop =>
      have hne : Token.power ≠ .op op.text := by
        cases op with
        | power => exact absurd rfl hop
        | add | sub | mul | div => decide
      simp [tokens, power_mem_wrapTokens, iha, ihb, hne]
  | one p e ih => exact ih
  | more args p e iha ihe =>
    have hcomma : Token.power ≠ .comma := by decide
    simp [powered, tokens, iha, ihe, hcomma]

section Content

theorem powCall_print (a b : Tree .expr) :
    (powCall a b).print = "pow(" ++ a.content ++ ", " ++ b.content ++ ")" := by
  simp [powCall, Tree.print, Tree.content, Pad.around, Pad.spaced, pow, Gap.none, Gap.space, Gap.append]

theorem Tree.content_of_unwrap {e : Tree .expr} (h : e.unwrap = (.none, e)) : e.content = e.print := by
  rw [content, h]
  simp [Pad.around, Pad.none, Gap.none]

theorem Operator.level_lt (op : Operator) : op.level < 4 := by
  cases op <;> decide

/-- Where parentheses may be asked for, a call needs them as little as the power did. -/
theorem Tree.level_powered {e : Tree .expr} {l : Nat} (hl : l ≤ 3) :
    (e.powered.level < l) = (e.level < l) := by
  cases e with
  | binary op p a b =>
    rw [powered]
    split
    · next hop =>
      rw [hop]
      simp only [powCall, level, Operator.level]
      grind
    · rfl
  | name | number | group | thunk | call | sign => rfl

theorem balanced_of_operand {t : Text} (h : ∀ c ∈ t, isOperand c = true) : Balanced '(' ')' t :=
  .of_forall fun c hc => ⟨(ne_marks_of_operand (h c hc)).1, (ne_marks_of_operand (h c hc)).2.1⟩

theorem balanced_marks {t : Text} (h : '(' ∉ t ∧ ')' ∉ t) : Balanced '(' ')' t :=
  .of_forall fun _ hc => ⟨fun he => h.1 (he ▸ hc), fun he => h.2 (he ▸ hc)⟩

theorem Gap.balanced (g : Gap) : Balanced '(' ')' g.1 :=
  balanced_marks ⟨g.not_mem (by decide), g.not_mem (by decide)⟩

theorem balanced_parens {t : Text} (h : Balanced '(' ')' t) : Balanced '(' ')' ("(" ++ t ++ ")") := by
  have hp := Balanced.pair h .nil
  simpa using hp

theorem balanced_wrap {t : Text} (h : Balanced '(' ')' t) (b : Bool) : Balanced '(' ')' (wrap b t) := by
  cases b with
  | false => exact h
  | true => exact balanced_parens h

theorem balanced_around {t : Text} (p : Pad) (h : Balanced '(' ')' t) : Balanced '(' ')' (p.around t) :=
  (p.before.balanced.append h).append p.after.balanced

theorem Tree.balanced_print {part : Part} (e : Tree part) : Balanced '(' ')' e.print := by
  have hname (w : Name) : Balanced '(' ')' w.1 :=
    balanced_of_operand fun c hc => by simp [isOperand, w.2.mem_word.2 c hc]
  induction e with
  | name w => exact hname w
  | number n =>
    rcases n.forms with ⟨-, hop, -⟩ | ⟨-, lead, d, s, htext, hlead, -, hs, hd⟩
    · exact balanced_of_operand hop
    · rw [print, htext]
      refine (balanced_of_operand hlead).append (.cons ?_ ?_ ?_)
      · rintro rfl
        exact absurd hs (by decide)
      · rintro rfl
        exact absurd hs (by decide)
      · exact balanced_of_operand fun c hc => operand_of_digit (hd c hc)
  | group p e ih => exact balanced_parens (balanced_around p ih)
  | thunk f gap inner =>
    have h := ((hname f).append gap.balanced).append (balanced_parens inner.balanced)
    simpa [print] using h
  | call f gap args ih =>
    have h := ((hname f).append gap.balanced).append (balanced_parens ih)
    simpa [print] using h
  | sign s gap e ih =>
    have hs : Balanced '(' ')' s.text := balanced_marks (by cases s <;> decide)
    exact (hs.append gap.balanced).append (balanced_wrap ih _)
  | binary op p a b iha ihb =>
    have hop : Balanced '(' ')' op.text := balanced_marks (by cases op <;> decide)
    exact ((balanced_wrap iha _).append (balanced_around p hop)).append (balanced_wrap ihb _)
  | one p e ih => exact balanced_around p ih
  | more args p e iha ihe =>
    exact (iha.append (balanced_marks (by decide))).append (balanced_around p ihe)

theorem hasLineEnd_of_printed {t : Text} (h : ∀ c ∈ t, IsPrinted c) : t.hasLineEnd = false := by
  rw [hasLineEnd, List.any_eq_false]
  intro c hc hl
  have hle := hl
  simp only [isLineEnd, Bool.or_eq_true, beq_iff_eq] at hle
  rcases h c hc with ho | ⟨-, hb⟩ | hm
  · rcases hle with ((rfl | rfl) | rfl) | rfl <;> exact absurd ho (by decide)
  · simp [hl] at hb
  · rcases hle with ((rfl | rfl) | rfl) | rfl <;> exact absurd hm (by decide)

end Content

open Power

/-- No power is left in an expression with calls, nor in what is kept of it as an operand. -/
def Tree.IsClean {part : Part} (e : Tree part) : Prop :=
  match part with
  | .expr => Clean e.powered.print ∧ Clean e.powered.content
  | .args => Clean e.powered.print

theorem clean_operand {t : Text} (hne : t ≠ []) (h : ∀ c ∈ t, isOperand c = true) : Clean t :=
  .of_free (fun hm => absurd (h '*' hm) (by decide)) hne

theorem clean_name (w : Name) : Clean w.1 :=
  clean_operand w.2.mem_word.1 fun c hc => by simp [isOperand, w.2.mem_word.2 c hc]

theorem clean_call (f : Name) (gap : Gap) {t : Text} (h : Clean ("(" ++ t ++ ")")) :
    Clean (f.1 ++ gap.1 ++ "(" ++ t ++ ")") := by
  have hc := ((clean_name f).gap gap).2.append h
  simpa using hc

theorem clean_powCall {a b : Tree .expr} (ha : Clean a.content) (hb : Clean b.content) :
    Clean (powCall a b).print := by
  rw [powCall_print]
  have hpow : Clean "pow(".toList := .of_free (by decide) (by decide)
  have hcomma : Clean ", ".toList := .of_free (by decide) (by decide)
  have hclose : Clean ")".toList := .of_free (by decide) (by decide)
  exact (((hpow.append ha).append hcomma).append hb).append hclose

theorem Numeral.not_star (n : Numeral) : '*' ∉ n.text := by
  intro hm
  rcases n.forms with ⟨-, hop, -⟩ | ⟨-, lead, d, s, htext, hlead, -, hs, hd⟩
  · exact absurd (hop '*' hm) (by decide)
  · rw [htext] at hm
    simp only [List.mem_append, List.mem_cons] at hm
    rcases hm with hm | rfl | hm
    · exact absurd (hlead '*' hm) (by decide)
    · exact absurd hs (by decide)
    · exact absurd (hd '*' hm) (by decide)

theorem Tree.isClean {part : Part} (e : Tree part) : e.IsClean := by
  have hself {e : Tree .expr} (h : Clean e.powered.print) (hu : e.powered.unwrap = (.none, e.powered)) :
      e.IsClean := by
    refine ⟨h, ?_⟩
    rw [content, hu]
    exact h.around .none
  induction e with
  | name w => exact hself (clean_name w) rfl
  | number n =>
    obtain ⟨c, u, ht, -⟩ := n.head
    exact hself (.of_free n.not_star (by simp [powered, print, ht])) rfl
  | group p e ih => exact ⟨(ih.1.around p).parens, ih.1.around p⟩
  | thunk f gap inner =>
    refine hself (clean_call f gap ?_) rfl
    have hopen : Clean "(".toList := .of_free (by decide) (by decide)
    exact (hopen.gap inner).2.append (.of_free (by decide) (by decide))
  | call f gap args ih => exact hself (clean_call f gap ih.parens) rfl
  | sign s gap e ih =>
    have hs : Clean s.text := .of_free (by cases s <;> decide) (by cases s <;> decide)
    exact hself ((hs.gap gap).2.append (ih.1.wrap _)) rfl
  | binary op p a b iha ihb =>
    by_cases hop : op = .power
    · have hp : (Tree.binary op p a b).powered = powCall a.powered b.powered := by rw [powered, if_pos hop]
      refine hself ?_ ?_
      · rw [hp]
        exact clean_powCall iha.2 ihb.2
      · rw [hp]
        rfl
    · have hp : (Tree.binary op p a b).powered = .binary op p a.powered b.powered := by
        rw [powered, if_neg hop]
      refine hself ?_ ?_
      · rw [hp]
        exact (iha.1.wrap _).binary (ihb.1.wrap _) hop p
      · rw [hp]
        rfl
  | one p e ih => exact ih.1.around p
  | more args p e iha ihe =>
    exact (iha.append (.of_free (by decide) (by decide))).append (ihe.1.around p)

/-! ### Replacing the powers of an expression -/

/-- In every place where an operand may stand, the powers of `t` give the text `u`. -/
def Rewrites (t u : Text) : Prop :=
  ∀ p s, Ready p → Follows s → replace? (p ++ t ++ s) = replace? (p ++ u ++ s)

namespace Rewrites
variable {t t' u u' : Text}

theorem refl (t : Text) : Rewrites t t := fun _ _ _ _ => rfl

theorem behind {m : Text} (h : Rewrites t t') (hm : Opens m) (hstar : m.head? ≠ some '*') :
    Rewrites (m ++ t) (m ++ t') := by
  intro p s hp hs
  have hr := h (p ++ m) s (hp.append hm hstar) hs
  simpa using hr

theorem before {m : Text} (h : Rewrites t t') (hm : ∀ s, Follows s → Follows (m ++ s)) :
    Rewrites (t ++ m) (t' ++ m) := by
  intro p s hp hs
  have hr := h p (m ++ s) hp (hm s hs)
  simpa using hr

theorem gap (h : Rewrites t t') (g : Gap) : Rewrites (g.1 ++ t) (g.1 ++ t') := by
  intro p s hp hs
  have hr := h (p ++ g.1) s (hp.gap g) hs
  simpa using hr

theorem around (h : Rewrites t t') (pad : Pad) : Rewrites (pad.around t) (pad.around t') :=
  (h.gap pad.before).before fun _ hs => follows_gap pad.after hs

theorem parens (h : Rewrites t t') : Rewrites ("(" ++ t ++ ")") ("(" ++ t' ++ ")") :=
  (h.behind (.of_free (c := '(') (by decide) rfl (by decide)) (by decide)).before fun _ _ =>
    follows_cons (by decide)

theorem wrap (h : Rewrites t t') (b : Bool) : Rewrites (Formula.wrap b t) (Formula.wrap b t') := by
  cases b with
  | false => exact h
  | true => exact h.parens

theorem call (h : Rewrites t t') (f : Name) (gap : Gap) :
    Rewrites (f.1 ++ gap.1 ++ "(" ++ t ++ ")") (f.1 ++ gap.1 ++ "(" ++ t' ++ ")") := by
  have hopen : Clean ("(".toList) := .of_free (by decide) (by decide)
  have hclean := ((clean_name f).gap gap).2.append hopen
  refine (h.behind ⟨hclean.cut, hclean.ne_nil, ?_⟩ hclean.head).before fun _ _ =>
    follows_cons (by decide)
  rw [List.reverse_append]
  exact .cons (by decide)

/-- Two texts with marks between them: the first is settled before the second. -/
theorem join {m : Text} (ht : Rewrites t t') (hu : Rewrites u u') (hc : Clean t') (hm : Opens m)
    (hm' : ∀ s, Follows (m ++ s)) : Rewrites (t ++ m ++ u) (t' ++ m ++ u') := by
  intro p s hp hs
  have h₁ := ht p (m ++ u ++ s) hp (by rw [List.append_assoc]; exact hm' _)
  have h₂ := hu (p ++ t' ++ m) s (hp.next hc hm) hs
  simp only [List.append_assoc] at h₁ h₂ ⊢
  rw [h₁, h₂]

end Rewrites

section Taken
variable {e : Tree .expr}

theorem taken_parens (h : e.unwrap = (.none, e)) : Taken (wrap true e.print) e.content := by
  have ht := Taken.group e.balanced_print (hasLineEnd_of_printed e.mem_print)
  rw [Tree.content_of_unwrap h, wrap, if_pos rfl]
  simpa using ht

theorem taken_call {t : Text} (f : Name) {gap : Gap} (hg : gap.1.isEmpty = true)
    (h : Balanced '(' ')' t) :
    Taken (f.1 ++ gap.1 ++ "(" ++ t ++ ")") (f.1 ++ gap.1 ++ "(" ++ t ++ ")") := by
  have ht := Taken.call f.2.mem_word.1 (fun c hc => by simp [isOperand, f.2.mem_word.2 c hc]) h
  have hg' : gap.1 = [] := by simpa using hg
  simpa [hg'] using ht

/-- An operand with the parentheses that it needs is taken as a whole. -/
theorem taken_print (h : e.isWhole = true) : Taken (wrap (e.level < 4) e.print) e.content := by
  cases e with
  | name w =>
    rw [Tree.content_of_unwrap rfl]
    exact .word w.2.mem_word.1 fun c hc => by simp [isOperand, w.2.mem_word.2 c hc]
  | number n =>
    rw [Tree.content_of_unwrap rfl]
    have hsigned : n.isSigned = false := by simpa [Tree.isWhole] using h
    obtain ⟨c, u, ht, -⟩ := n.head
    rcases n.forms with ⟨-, hop, -⟩ | ⟨hs, -⟩
    · exact Taken.word (w := n.text) (by simp [ht]) hop
    · simp [hsigned] at hs
  | group p e =>
    have ht := Taken.group (balanced_around p e.balanced_print)
      (hasLineEnd_of_printed (printed_around p e.mem_print))
    have htext : '(' :: (p.around e.print ++ [')']) = "(" ++ p.around e.print ++ ")" := by simp
    rw [htext] at ht
    exact ht
  | thunk f gap inner =>
    rw [Tree.content_of_unwrap rfl]
    exact taken_call f h inner.balanced
  | call f gap args =>
    rw [Tree.content_of_unwrap rfl]
    exact taken_call f h args.balanced_print
  | sign s gap e => exact taken_parens rfl
  | binary op p a b =>
    rw [Tree.level, decide_eq_true op.level_lt]
    exact taken_parens rfl

/-- The same for an operand whose own powers are calls already. -/
theorem taken_powered (h : e.isWhole = true) :
    Taken (wrap (e.level < 4) e.powered.print) e.powered.content := by
  cases e with
  | binary op p a b =>
    rw [Tree.level, decide_eq_true op.level_lt, Tree.powered]
    split
    · exact taken_parens rfl
    · exact taken_parens rfl
  | name w => exact taken_print (e := .name w) h
  | number n => exact taken_print (e := .number n) h
  | group p e => exact taken_print (e := .group p e.powered) h
  | thunk f gap inner => exact taken_print (e := .thunk f gap inner) h
  | call f gap args => exact taken_print (e := .call f gap args.powered) h
  | sign s gap e => exact taken_print (e := .sign s gap e.powered) h

end Taken

/-- The powers of an expression, and of what is kept of it as an operand, become calls. -/
def Tree.Settles {part : Part} (e : Tree part) : Prop :=
  match part with
  | .expr => Rewrites e.print e.powered.print ∧ Rewrites e.content e.powered.content
  | .args => Rewrites e.print e.powered.print

/-- A power: the base first, then the power itself, then the exponent inside the call. -/
theorem rewrites_power {a b : Tree .expr} (pad : Pad) (ha : a.Settles) (hb : b.Settles)
    (hwa : a.isWhole = true) (hwb : b.isWhole = true) (hpb : b.isPower = false) :
    Rewrites (Tree.binary .power pad a b).print (powCall a.powered b.powered).print := by
  intro p s hp hs
  have hbase : Clean (wrap (a.level < 4) a.powered.print) := a.isClean.1.wrap _
  have hlevel : (b.level < 3 : Bool) = (b.level < 4 : Bool) := by
    cases b with
    | binary op =>
      cases op with
      | power => cases hpb
      | add | sub | mul | div => rfl
    | name | number | group | thunk | call | sign => rfl
  have hexp : Taken (wrap (b.level < 3) b.print) b.content := by
    rw [hlevel]
    exact taken_print hwb
  have hpow : Clean ("pow(" ++ a.powered.content) :=
    Clean.append (.of_free (by decide) (by decide)) a.isClean.2
  have hready : Ready (p ++ ("pow(" ++ a.powered.content) ++ ", ") :=
    hp.next hpow (.of_free (c := ' ') (by decide) rfl (by decide))
  have h₁ := ha.1.wrap (a.level < 4) p (pad.around "**" ++ wrap (b.level < 3) b.print ++ s) hp
    (by
      rw [Pad.around, List.append_assoc, List.append_assoc, List.append_assoc]
      exact follows_gap pad.before (follows_cons (by decide)))
  have h₂ := replace?_power hp (taken_powered hwa) hbase hexp hs pad
  have h₃ := hb.2 _ (")" ++ s) hready (follows_cons (by decide))
  have hprint : (Tree.binary .power pad a b).print =
      wrap (a.level < 4) a.print ++ pad.around "**" ++ wrap (b.level < 3) b.print := rfl
  rw [powCall_print, hprint]
  simp only [List.append_assoc] at h₁ h₂ h₃ ⊢
  rw [h₁, h₂, h₃]

/-- Any other operation: the first operand is settled before the second. -/
theorem rewrites_binary {op : Operator} {a b : Tree .expr} (pad : Pad) (hop : op ≠ .power)
    (ha : a.Settles) (hb : b.Settles) :
    Rewrites (Tree.binary op pad a b).print (Tree.binary op pad a.powered b.powered).print := by
  have hopens : Opens op.text := by
    refine ⟨?_, by cases op <;> decide, ?_⟩
    · cases op with
      | power => exact absurd rfl hop
      | add | sub | mul | div => decide
    · cases op <;> exact .cons (by decide)
  have hfollows (s : Text) : Follows (op.text ++ s) := by cases op <;> exact follows_cons (by decide)
  have hleft : op.leftLevel ≤ 3 := by
    cases op with
    | power => exact absurd rfl hop
    | add | sub | mul | div => decide
  have hright : op.rightLevel ≤ 3 := by cases op <;> decide
  have hclean := ((a.isClean.1.wrap (a.level < op.leftLevel)).gap pad.before).2
  have hr := ((ha.1.wrap (a.level < op.leftLevel)).before fun _ hs => follows_gap pad.before hs).join
    ((hb.1.wrap (b.level < op.rightLevel)).gap pad.after) hclean hopens hfollows
  simp only [Tree.print, Tree.level_powered hleft, Tree.level_powered hright, Pad.around]
  simpa only [List.append_assoc] using hr

theorem Tree.settles {part : Part} (e : Tree part) (h : e.plain = true) : e.Settles := by
  -- Only a group is kept without its parentheses.
  have hself {e : Tree .expr} (h : Rewrites e.print e.powered.print) (hu : e.unwrap = (.none, e))
      (hu' : e.powered.unwrap = (.none, e.powered)) : e.Settles := by
    refine ⟨h, ?_⟩
    rw [content_of_unwrap hu, content_of_unwrap hu']
    exact h
  induction e with
  | name w => exact hself (.refl _) rfl rfl
  | number n => exact hself (.refl _) rfl rfl
  | group p e ih =>
    have hr := (ih h).1.around p
    exact ⟨hr.parens, hr⟩
  | thunk f gap inner => exact hself (.refl _) rfl rfl
  | call f gap args ih => exact hself (Rewrites.call (ih h) f gap) rfl rfl
  | sign s gap e ih =>
    have hs : Opens s.text := by
      cases s with
      | plus => exact .of_free (c := '+') (by decide) rfl (by decide)
      | minus => exact .of_free (c := '-') (by decide) rfl (by decide)
    have hr := (((ih h).1.wrap (e.level < 2)).gap gap).behind hs (by cases s <;> decide)
    refine hself ?_ rfl rfl
    simp only [print, powered, level_powered (show 2 ≤ 3 by decide), List.append_assoc]
    exact hr
  | binary op p a b iha ihb =>
    simp only [plain, Bool.and_eq_true] at h
    obtain ⟨⟨ha, hb⟩, hop⟩ := h
    by_cases hpow : op = .power
    · subst hpow
      simp only [bne_self_eq_false, Bool.false_or, Bool.and_eq_true, Bool.not_eq_true'] at hop
      exact hself (rewrites_power p (iha ha) (ihb hb) hop.1.1 hop.1.2 hop.2) rfl rfl
    · have hp : (Tree.binary op p a b).powered = .binary op p a.powered b.powered := by
        rw [powered, if_neg hpow]
      refine hself ?_ rfl (by rw [hp]; rfl)
      rw [hp]
      exact rewrites_binary p hpow (iha ha) (ihb hb)
  | one p e ih => exact (ih h).1.around p
  | more args p e iha ihe =>
    simp only [plain, Bool.and_eq_true] at h
    exact (iha h.1).join ((ihe h.2).1.around p) args.isClean
      (.of_free (c := ',') (by decide) rfl (by decide)) fun _ => follows_cons (by decide)

/-- Replacing the powers of an expression succeeds and gives a formula of the output with the same value,
where each operand of a power is taken as a whole and no power is the exponent of another without
parentheses. -/
theorem replace_keeps_value {V : Type} (A : Arithmetic V) (e : Tree .expr) (h : e.plain = true) :
    ∃ t, replace? e.print = some t ∧ A.readOutput t = some (e.value A.toAlgebra) := by
  refine ⟨e.powered.print, ?_, ?_⟩
  · have hr := (e.settles h).1 [] [] ready_nil .nil
    rw [List.append_nil, List.append_nil] at hr
    rw [List.nil_append] at hr
    rw [hr]
    exact replace?_of_cut? e.isClean.1.cut
  · rw [← e.powered_value A]
    exact readOutput_of_derives e.powered.spells_print.tokens e.powerless_powered (e.powered.read A).1

/-- `-(a + 1)**2 * f(x**2, 3)**k` -/
def samplePowers : Tree .expr :=
  let name (w : Text) (h : IsName w) : Tree .expr := .name ⟨w, h⟩
  let whole (d : Text) (h : d.isDigits = true) : Tree .expr := .number (.ofDigits d h)
  let two := whole "2" (by decide)
  let square (e : Tree .expr) : Tree .expr := .binary .power .none e two
  let sum : Tree .expr := .binary .add ⟨.space, .space⟩ (name "a" (by decide)) (whole "1" (by decide))
  let args : Tree .args :=
    .more (.one .none (square (name "x" (by decide)))) ⟨.space, .none⟩ (whole "3" (by decide))
  let call : Tree .expr := .call ⟨"f", by decide⟩ .none args
  .sign .minus .none
    (.binary .mul ⟨.space, .space⟩ (square sum) (.binary .power .none call (name "k" (by decide))))

theorem replace_keeps_value_sample :
    samplePowers.print = "-(a + 1)**2 * f(x**2, 3)**k" ∧ samplePowers.plain = true ∧
      ∃ t, replace? samplePowers.print = some t ∧ integers.readOutput t = some (-16) := by
  obtain ⟨hprint, hplain, hvalue⟩ : samplePowers.print = "-(a + 1)**2 * f(x**2, 3)**k" ∧
      samplePowers.plain = true ∧ samplePowers.value integers.toAlgebra = -16 := by
    decide +kernel
  have h := replace_keeps_value integers samplePowers hplain
  rw [hvalue] at h
  exact ⟨hprint, hplain, h⟩

end FixedForm.Formula
