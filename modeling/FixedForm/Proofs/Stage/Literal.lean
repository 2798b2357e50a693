import FixedForm.Proofs.Spelling.Literal
import FixedForm.Proofs.Spelling.Operand
import FixedForm.Proofs.Stage.Label

/-! Literals through the spelling of a unit.  Powers are looked for in the whole text, so the literals
stay where they hold no power and their parentheses pair; each operand then starts and ends in code. -/
namespace FixedForm

theorem Text.free_of_class {p : Char → Bool} (hp : (p '\x27' || p '"') = false) {t : Text}
    (h : ∀ c ∈ t, p c = true) : ∀ c ∈ t, isQuote c = false := fun c hc => not_quote_of_class hp (h c hc)

theorem Text.Quoted.parens {P : Text → Prop} {t : Text} (h : Quoted P false t) :
    Quoted P false ('(' :: (t ++ [')'])) ∧ literals ('(' :: (t ++ [')'])) = literals t := by
  have hclose : ∀ c ∈ ([')'] : Text), isQuote c = false := by simp [isQuote]
  refine ⟨.code rfl (h.append (of_free hclose)), ?_⟩
  rw [literals_code rfl, h.literals_append_free hclose]

namespace Power
open Text

theorem cut?_literal {q : Char} (hq : q ≠ '*') (x t : Text) (h : cut? (x ++ [q]) = none) :
    cut? (x ++ q :: t) = (cut? t).map fun m => (x ++ q :: m.1, m.2) := by
  induction x with
  | nil =>
    rw [List.nil_append, cut?_cons, if_neg fun he => hq he.1]
    rfl
  | cons c x ih =>
    rw [List.cons_append] at h
    obtain ⟨hc, hx⟩ := cut?_cons_eq_none.1 h
    have hhead : (x ++ q :: t).head? = (x ++ [q]).head? := by cases x <;> rfl
    rw [List.cons_append, cut?_cons, hhead, if_neg hc, ih hx]
    cases cut? t <;> rfl

section Operands
variable {P : Text → Prop} {tail : Bool} {t : Text}

/-- A power that no literal holds stands in code. -/
theorem quoted_cut? (hP : ∀ lit, P lit → cut? lit = none) (h : Quoted P tail t) {before after : Text}
    (hc : cut? t = some (before, after)) : Quoted P false before ∧ Quoted P tail after := by
  induction h generalizing before after with
  | nil => cases hc
  | @code c t hquote ht ih =>
    rw [cut?_cons] at hc
    split at hc
    · next hstar =>
      cases hc
      refine ⟨.nil, ?_⟩
      cases t with
      | nil => exact .nil
      | cons d t =>
        obtain rfl : d = '*' := by simpa using hstar.2
        exact ht.tail_of_code rfl
    · obtain ⟨⟨b, a⟩, hb, he⟩ := Option.map_eq_some_iff.1 hc
      cases he
      obtain ⟨h₁, h₂⟩ := ih hb
      exact ⟨.code hquote h₁, h₂⟩
  | @literal q x t hq hx hlit _ ih =>
    have hstar : q ≠ '*' := by
      rintro rfl
      cases hq
    rw [← List.cons_append, cut?_literal hstar (q :: x) t (hP _ hlit)] at hc
    obtain ⟨⟨b, a⟩, hb, he⟩ := Option.map_eq_some_iff.1 hc
    cases he
    obtain ⟨h₁, h₂⟩ := ih hb
    exact ⟨.literal hq hx hlit h₁, h₂⟩
  | unclosed hq hx hlit _ =>
    rw [hP _ hlit] at hc
    cases hc

/-- Between partners in code the text starts and ends in code. -/
theorem quoted_between {up down : Char} (hne : up ≠ down) {inner rest : Text}
    (hP : ∀ lit, P lit → depthAfter up down 0 lit = some 0) (hi : Balanced up down inner)
    (h : Quoted P tail (inner ++ down :: rest)) : Quoted P false inner ∧ Quoted P tail rest := by
  have hclose := (hi.balance_eq hne 0 0 (down :: rest)).trans (balance_last hne _ rest)
  obtain ⟨a, b, htext, hlen, ha, hb⟩ := h.balance_split hP hclose
  obtain ⟨rfl, htail⟩ := List.append_inj htext (by omega)
  obtain ⟨-, rfl⟩ := List.cons.inj htail
  exact ⟨ha, hb⟩

section Paired
variable (hP : ∀ lit, P lit → Paired lit) {before w x rest : Text}
include hP

/-- The group at the start of a text. -/
theorem quoted_start (hx : Balanced '(' ')' x) (h : Quoted P tail ('(' :: (x ++ [')']) ++ rest)) :
    Quoted P false ('(' :: (x ++ [')'])) ∧ Quoted P tail rest := by
  have htext : '(' :: (x ++ [')']) ++ rest = '(' :: (x ++ ')' :: rest) := by simp
  rw [htext] at h
  obtain ⟨hinner, hrest⟩ := quoted_between (by decide) hP hx (h.tail_of_code rfl)
  exact ⟨hinner.parens.1, hrest⟩

/-- The group at the end of a text, which is read backwards. -/
theorem quoted_end (hx : Balanced '(' ')' x) (h : Quoted P false (before ++ '(' :: (x ++ [')']))) :
    Quoted P false before ∧ Quoted P false ('(' :: (x ++ [')'])) := by
  have hdepth (lit : Text) (hl : P lit.reverse) : depthAfter ')' '(' 0 lit = some 0 := by
    simpa using depthAfter_reverse (by decide) (hP _ hl)
  have hback : Quoted (fun lit => P lit.reverse) false (x.reverse ++ '(' :: before.reverse) := by
    have hr := h.reverse
    simp only [List.reverse_append, List.reverse_cons, List.reverse_nil, List.append_assoc, List.nil_append,
      List.singleton_append] at hr
    exact hr.tail_of_code rfl
  obtain ⟨hinner, hbefore⟩ := quoted_between (by decide) hdepth hx.reverse hback
  exact ⟨.of_reverse hbefore, (Quoted.of_reverse hinner).parens.1⟩

theorem Operand.quoted_start (ho : Operand w x) (h : Quoted P tail (w ++ rest)) :
    Quoted P false w ∧ Quoted P tail rest := by
  cases ho with
  | word hw =>
    have hfree := free_of_class (p := isOperand) (by decide) hw
    exact ⟨.of_free hfree, .of_free_append hfree h⟩
  | @call f y hf hy =>
    have hfree := free_of_class (p := isOperand) (by decide) hf
    rw [List.append_assoc] at h
    obtain ⟨hgroup, hrest⟩ := Power.quoted_start hP hy (.of_free_append hfree h)
    exact ⟨(Quoted.of_free hfree).append hgroup, hrest⟩
  | group hy => exact Power.quoted_start hP hy h

theorem Operand.quoted_end (ho : Operand w x) (h : Quoted P false (before ++ w)) :
    Quoted P false before ∧ Quoted P false w := by
  cases ho with
  | word hw =>
    have hfree := free_of_class (p := isOperand) (by decide) hw
    exact ⟨.of_append_free hfree h, .of_free hfree⟩
  | @call f y hf hy =>
    have hfree := free_of_class (p := isOperand) (by decide) hf
    rw [← List.append_assoc] at h
    obtain ⟨hbefore, hgroup⟩ := Power.quoted_end hP hy h
    exact ⟨.of_append_free hfree hbefore, (Quoted.of_free hfree).append hgroup⟩
  | group hy => exact Power.quoted_end hP hy h

end Paired

theorem Operand.quoted_kept {w x : Text} (ho : Operand w x) (h : Quoted P false w) :
    Quoted P false x ∧ literals x = literals w := by
  cases ho with
  | word | call => exact ⟨h, rfl⟩
  | @group y hy =>
    have hinner : Quoted P false y := .of_append_free (w := [')']) (by simp [isQuote]) (h.tail_of_code rfl)
    have hbetween : between? '(' ')' ('(' :: (y ++ [')'])) = some y := by simp [between?]
    rw [dropParens, hbetween]
    dsimp only
    split
    · exact ⟨h, rfl⟩
    · exact ⟨hinner, hinner.parens.2.symm⟩

/-- The base of a power takes whole literals. -/
theorem quoted_base? (hP : ∀ lit, P lit → Paired lit) (h : Quoted P false t) {before base : Text}
    (hb : base? t = some (before, base)) :
    Quoted P false before ∧ Quoted P false base ∧ literals before ++ literals base = literals t := by
  obtain ⟨w, g, rfl, hg, ho⟩ := base?_operand hb
  have hfree := free_of_class (p := isBlank) (by decide) (mem_of_allBlank hg)
  rw [← List.append_assoc] at h ⊢
  obtain ⟨hbefore, hw⟩ := ho.quoted_end hP (h.of_append_free hfree)
  obtain ⟨hx, hl⟩ := ho.quoted_kept hw
  refine ⟨hbefore, hx, ?_⟩
  rw [(hbefore.append hw).literals_append_free hfree, hbefore.literals_append, hl]

/-- The exponent of a power takes whole literals. -/
theorem quoted_exponent? (hP : ∀ lit, P lit → Paired lit) (h : Quoted P tail t) {exponent rest : Text}
    (he : exponent? t = some (exponent, rest)) :
    Quoted P false exponent ∧ Quoted P tail rest ∧ literals exponent ++ literals rest = literals t := by
  obtain ⟨g, s, w, x, rfl, hg, hs, rfl, ho⟩ := exponent?_operand he
  have hblank := free_of_class (p := isBlank) (by decide) (mem_of_allBlank hg)
  have hsign : ∀ c ∈ s, isQuote c = false := fun c hc => by rcases hs c hc with rfl | rfl <;> rfl
  obtain ⟨hw, hrest⟩ := ho.quoted_start hP ((h.of_free_append hblank).of_free_append hsign)
  obtain ⟨hx, hl⟩ := ho.quoted_kept hw
  refine ⟨(Quoted.of_free hsign).append hx, hrest, ?_⟩
  rw [literals_free_append hsign, literals_free_append hblank, literals_free_append hsign, hw.literals_append, hl]

end Operands

/-- A literal that powers pass over: it holds none, and its parentheses pair. -/
structure IsQuiet (lit : Text) : Prop where
  cut : cut? lit = none
  paired : Paired lit

/-- One power is written and every literal stays. -/
theorem quoted_step? {before after next : Text} (hb : Quoted IsQuiet false before)
    (ha : Quoted IsQuiet true after) (h : step? before after = some next) :
    Quoted IsQuiet true next ∧ literals next = literals before ++ literals after := by
  have hP (lit : Text) (hl : IsQuiet lit) : Paired lit := hl.paired
  simp only [step?, Option.bind_eq_bind, Option.bind_eq_some_iff] at h
  obtain ⟨⟨before', base⟩, hbase, ⟨exponent, rest⟩, hexp, h⟩ := h
  cases h
  obtain ⟨hbefore, hbase, hl₁⟩ := quoted_base? hP hb hbase
  obtain ⟨hexponent, hrest, hl₂⟩ := quoted_exponent? hP ha hexp
  have free {w : Text} (hw : (w.all fun c => !isQuote c) = true) : Quoted IsQuiet false w :=
    .of_free (not_quote_of_all hw)
  have h₁ : Quoted IsQuiet false (before' ++ "pow(") := hbefore.append (free rfl)
  have h₂ : Quoted IsQuiet false (before' ++ "pow(" ++ base) := h₁.append hbase
  have h₃ : Quoted IsQuiet false (before' ++ "pow(" ++ base ++ ", ") := h₂.append (free rfl)
  have h₄ : Quoted IsQuiet false (before' ++ "pow(" ++ base ++ ", " ++ exponent) := h₃.append hexponent
  have h₅ : Quoted IsQuiet false (before' ++ "pow(" ++ base ++ ", " ++ exponent ++ ")") :=
    h₄.append (free rfl)
  refine ⟨h₅.append hrest, ?_⟩
  rw [h₅.literals_append, h₄.literals_append_free (not_quote_of_all rfl), h₃.literals_append,
    h₂.literals_append_free (not_quote_of_all rfl), h₁.literals_append,
    hbefore.literals_append_free (not_quote_of_all rfl), hl₁, List.append_assoc, hl₂]

/-- All powers are written and every literal stays. -/
theorem literals_replace? {t r : Text} (ht : Quoted IsQuiet true t) (h : replace? t = some r) :
    literals r = literals t := by
  fun_induction replace? t with
  | case1 t _ => rw [Option.some.inj h]
  | case2 => cases h
  | case3 t before after hcut next hstep ih =>
    obtain ⟨hb, ha⟩ := quoted_cut? (fun _ hl => hl.cut) ht hcut
    obtain ⟨hnext, hl⟩ := quoted_step? hb ha hstep
    have hstars : literals (before ++ '*' :: '*' :: after) = literals before ++ literals after := by
      rw [hb.literals_append, literals_code rfl, literals_code rfl]
    rw [ih hnext h, hl, eq_of_cut? hcut, hstars]

theorem cut?_replace? {t r : Text} (h : replace? t = some r) : cut? r = none := by
  fun_induction replace? t with
  | case1 t hcut => rwa [← Option.some.inj h]
  | case2 => cases h
  | case3 t before after _ next _ ih => exact ih h

end Power

namespace Spelling
open Text

section Normalize
variable {t : Text} (hheld : IsHeld t)
  (hpaired : Power.cut? (beforePowers t) = none ∨ ∀ lit ∈ literals t, Paired lit)
include hheld hpaired

/-- Literals without powers come out with their type names collapsed. -/
theorem literals_normalize (h : ∀ lit ∈ literals t, Power.cut? lit = none) :
    literals (normalize t).1 = (literals t).map collapseTypes := by
  have hbefore := literals_beforePowers hheld
  simp only [normalize]
  split
  · next r hr =>
    rw [← hbefore]
    rcases hpaired with hcut | hpaired
    · rw [Power.replace?] at hr
      split at hr
      · rw [Option.some.inj hr]
      · next hc =>
        rw [hcut] at hc
        cases hc
    · refine Power.literals_replace? (Quoted.of_literals fun lit hl => ?_) hr
      rw [hbefore] at hl
      obtain ⟨old, hold, rfl⟩ := List.mem_map.1 hl
      exact ⟨cut?_collapseTypes (h old hold), (depthAfter_collapseTypes old 0).trans (hpaired old hold)⟩
  · exact hbefore

/-- The literals stay exactly when no type name of two words or with a size stands in them, and, where
powers are written, no power. -/
theorem literals_normalize_iff : literals (normalize t).1 = literals t ↔
    ∀ lit ∈ literals t, collapseTypes lit = lit ∧ ((normalize t).2 = [] → Power.cut? lit = none) := by
  have hself : (literals t).map collapseTypes = literals t ↔ ∀ lit ∈ literals t, collapseTypes lit = lit := by
    have h := List.map_inj_left (l := literals t) (f := collapseTypes) (g := id)
    rwa [List.map_id] at h
  cases hr : Power.replace? (beforePowers t) with
  | none =>
    have hn : normalize t = (beforePowers t, [.powerOperand]) := by rw [normalize, hr]
    simp only [hn, literals_beforePowers hheld, hself, List.cons_ne_nil, false_imp_iff, and_true]
  | some r =>
    have hn : normalize t = (r, []) := by rw [normalize, hr]
    have hfree (h : ∀ lit ∈ literals t, Power.cut? lit = none) :
        literals (normalize t).1 = (literals t).map collapseTypes := literals_normalize hheld hpaired h
    rw [hn] at hfree ⊢
    constructor
    · intro heq
      have hcut (lit : Text) (hl : lit ∈ literals t) : Power.cut? lit = none :=
        Power.cut?_infix (infix_of_mem_literals (heq.symm ▸ hl)) (Power.cut?_replace? hr)
      have hfixed := hself.1 ((hfree hcut).symm.trans heq)
      exact fun lit hl => ⟨hfixed lit hl, fun _ => hcut lit hl⟩
    · intro h
      exact (hfree fun lit hl => (h lit hl).2 rfl).trans (hself.2 fun lit hl => (h lit hl).1)

end Normalize

end Spelling

/-- What the spelling of a unit does to the literals of a line whose own parentheses pair.  Nothing but
the text of the line changes; literals without powers keep all but their type names; and they all stay
exactly when they hold neither such a type name nor, where powers are written, a power. -/
theorem Stage.literals_spelling (a : Analysis) {b : Buffer} {l : Line} (hl : l ∈ b.lines)
    (hcode : l.shape.isSilent = false) (hheld : Text.IsHeld l.text)
    (hpaired : Power.cut? (Spelling.beforePowers l.text) = none ∨
      ∀ lit ∈ Text.literals l.text, Text.Paired lit) :
    ∃ m ∈ (Stage.run .spelling a b).2.lines, { m with text := l.text } = l ∧
      ((∀ lit ∈ Text.literals l.text, Power.cut? lit = none) →
        Text.literals m.text = (Text.literals l.text).map Spelling.collapseTypes) ∧
      (Text.literals m.text = Text.literals l.text ↔ ∀ lit ∈ Text.literals l.text,
        Spelling.collapseTypes lit = lit ∧
          ((Spelling.normalize l.text).2 = [] → Power.cut? lit = none)) := by
  have hspelled : Stage.spelled l.toDraft = { l.toDraft with text := (Spelling.normalize l.text).1 } := by
    rw [Stage.spelled, if_neg (by simp [hcode])]
  refine ⟨{ l with toDraft := Stage.spelled l.toDraft }, ?_, ?_, ?_, ?_⟩
  · rw [Stage.run, Stage.edit_spell]
    exact List.mem_map.2 ⟨l, hl, rfl⟩
  · rw [hspelled]
  · rw [hspelled]
    exact Spelling.literals_normalize hheld hpaired
  · rw [hspelled]
    exact Spelling.literals_normalize_iff hheld hpaired

/-- A line with a type name in a literal, parentheses in another, and a power. -/
def sampleLiterals : Text := Text.ofString "      x = 'DOUBLE PRECISION' // 'f(i)' // (y)**2"

theorem Stage.literals_spelling_sample :
    ∃ m ∈ (Stage.run .spelling {} (Buffer.ofTexts [sampleLiterals] .other)).2.lines,
      Text.literals m.text = ["'doubleprecision'".toList, "'f(i)'".toList] ∧
        Text.literals m.text ≠ Text.literals sampleLiterals := by
  have hlits : Text.literals sampleLiterals = ["'DOUBLE PRECISION'".toList, "'f(i)'".toList] := by decide +kernel
  have hcollapse : ["'DOUBLE PRECISION'".toList, "'f(i)'".toList].map Spelling.collapseTypes =
      ["'doubleprecision'".toList, "'f(i)'".toList] := by decide +kernel
  obtain ⟨m, hm, -, hmap, -⟩ := Stage.literals_spelling {} (b := Buffer.ofTexts [sampleLiterals] .other)
    (l := { text := sampleLiterals, shape := .other, id := 0, origin := 1 }) (by decide) rfl
    (Text.isHeld_ofString _) (.inr (by rw [hlits]; decide))
  refine ⟨m, hm, ?_⟩
  rw [hlits] at hmap
  rw [hmap (by decide), hcollapse, hlits]
  exact ⟨rfl, by decide⟩

end FixedForm
