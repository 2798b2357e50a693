import FixedForm.Proofs.Formula.Logic
import FixedForm.Proofs.Text.Fold
import FixedForm.Proofs.Text.Literal
import FixedForm.Proofs.Text.Substitution
import FixedForm.Spelling
import Mathlib.Tactic.ByContra

/-! Words between points become symbols one word after the other.  No other place of an expression
looks like such a word, unless an operand is a name that is spelled like one.  So the passes turn an
expression with points into the formula with symbols. -/
namespace FixedForm

namespace Text
variable {lead t rest : Text}

theorem eq_of_afterFold? (h : afterFold? lead t = some rest) :
    ∃ u, t = u ++ rest ∧ u.map Char.toLower = lead := by
  fun_induction afterFold? lead t with
  | case1 t => exact ⟨[], by simpa using h, rfl⟩
  | case2 => cases h
  | case3 a lead c t hc ih =>
    obtain ⟨u, rfl, hu⟩ := ih h
    exact ⟨c :: u, rfl, by rw [List.map_cons, hu, eq_of_beq hc]⟩
  | case4 => cases h

theorem afterFold?_append (u t : Text) : afterFold? (u.map Char.toLower) (u ++ t) = some t := by
  induction u with
  | nil => rfl
  | cons c u ih => simp [afterFold?, ih]

end Text

namespace Formula
open Text Spelling

namespace Word

theorem name_injective {w k : Word} (h : w.name = k.name) : w = k := by
  have hall : ∀ w ∈ all, ∀ k ∈ all, w.name = k.name → w = k := by decide
  exact hall w w.mem_all k k.mem_all h

theorem name_alpha (w : Word) : w.name ≠ [] ∧ ∀ c ∈ w.name, c.isAlpha = true := by
  have hall : ∀ w ∈ all, w.name ≠ [] ∧ w.name.all Char.isAlpha = true := by decide
  exact ⟨(hall w w.mem_all).1, List.all_eq_true.1 (hall w w.mem_all).2⟩

theorem point_not_mem_text (w : Word) : '.' ∉ w.text := by
  have hall : ∀ w ∈ all, '.' ∉ w.text := by decide
  exact hall w w.mem_all

end Word

theorem dottedWords_eq : dottedWords = Word.all.map fun w => dotted w.name w.text := rfl

theorem word_of_alpha {c : Char} (h : c.isAlpha = true) : isWord c = true := by
  simp [isWord, Char.isAlphanum, h]

theorem mem_spelled_alpha {w : Word} (s : Spelled w) : ∀ c ∈ s.1, c.isAlpha = true := by
  intro c hc
  rw [← isAlpha_toLower]
  refine w.name_alpha.2 _ ?_
  rw [← s.2]
  exact List.mem_map_of_mem hc

theorem mem_spelled {w : Word} (s : Spelled w) : ∀ c ∈ s.1, isWord c = true :=
  fun c hc => word_of_alpha (mem_spelled_alpha s c hc)

/-! ### Where no word starts -/

/-- Behind a point the text is no word with another point. -/
def Quiet (t : Text) : Prop := ∀ w : Word, afterFold? (w.name ++ ".") t = none

section Quiet
variable {t u r : Text}

theorem quiet_of_outside (h : StartsOutside Char.isAlpha t) : Quiet t := by
  intro w
  by_contra hsome
  obtain ⟨rest, hrest⟩ := Option.ne_none_iff_exists'.1 hsome
  obtain ⟨u, rfl, hu⟩ := eq_of_afterFold? hrest
  obtain ⟨hne, halpha⟩ := w.name_alpha
  cases hw : w.name with
  | nil => exact hne hw
  | cons a n =>
    rw [hw] at hu
    cases u with
    | nil => cases hu
    | cons c u =>
      have hc : c.toLower = a := (List.cons.inj hu).1
      have ha : c.isAlpha = true := by
        rw [← isAlpha_toLower, hc]
        exact halpha a (by simp [hw])
      simp [h c rfl] at ha

theorem quiet_of_word (h : StartsOutside isWord t) : Quiet t :=
  quiet_of_outside (h.mono fun _ => word_of_alpha)

/-- A run of word characters and a point are the word only if the run is. -/
theorem afterFold?_run {w : Word} (hu : ∀ c ∈ u, isWord c = true) (hr : StartsOutside isWord r)
    (h : r.head? = some '.' → u.map Char.toLower ≠ w.name) : afterFold? (w.name ++ ".") (u ++ r) = none := by
  by_contra hsome
  obtain ⟨rest, hrest⟩ := Option.ne_none_iff_exists'.1 hsome
  obtain ⟨v, heq, hv⟩ := eq_of_afterFold? hrest
  obtain ⟨n, p, rfl, hn, hp⟩ := List.map_eq_append_iff.1 hv
  obtain ⟨c, rfl, hc⟩ : ∃ c, p = [c] ∧ c.toLower = '.' := by
    simpa [List.map_eq_cons_iff] using hp
  have hpoint : c = '.' := by
    have hb := beq_toLower (d := '.') (by decide) c
    simpa [hc] using hb
  have hword : ∀ c ∈ n, isWord c = true := mem_spelled ⟨n, hn⟩
  rw [hpoint, List.append_assoc] at heq
  have hstop : StartsOutside isWord ("." ++ rest) := .cons (by decide)
  have hun : u = n := by
    rw [← takeWhile_run hu hr, ← takeWhile_run hword hstop]
    exact congrArg _ heq
  subst hun
  have hrr : r = "." ++ rest := List.append_cancel_left heq
  exact h (by rw [hrr]; rfl) hn

end Quiet

/-- Every point in the text is quiet, whatever follows the text. -/
def Free : Text → Prop
  | [] => True
  | c :: t => (c = '.' → ∀ r, StartsOutside isWord r → Quiet (t ++ r)) ∧ Free t

/-! ### One pass -/

def pass (w : Word) (t : Text) : Text := t.substitute (dotted w.name w.text)

section Pass
variable {w : Word} {c : Char} {t u r : Text}

/-- What stands before a place does not matter to these rules. -/
theorem substituteFrom_dotted (name new before before' t : Text) :
    substituteFrom (dotted name new) before t = substituteFrom (dotted name new) before' t := by
  fun_induction substituteFrom (dotted name new) before t generalizing before' with
  | case1 => simp [substituteFrom]
  | case2 before c rest h ih =>
    have h' : dotted name new before' (c :: rest) = none := h
    rw [substituteFrom, h', ih]
  | case3 before c rest n left h hl seen ih =>
    have h' : dotted name new before' (c :: rest) = some (n, left) := h
    rw [substituteFrom, h']
    simp only [if_pos hl]
    exact congrArg (n ++ ·) (ih _)
  | case4 before c rest n left h hl ih =>
    have h' : dotted name new before' (c :: rest) = some (n, left) := h
    rw [substituteFrom, h']
    simp only [if_neg hl]
    exact congrArg (c :: ·) (ih _)

theorem pass_nil (w : Word) : pass w [] = [] := by
  simp [pass, substitute, substituteFrom]

theorem pass_of_none (h : afterFold? ("." ++ w.name ++ ".") (c :: t) = none) :
    pass w (c :: t) = c :: pass w t := by
  rw [pass, substitute, substituteFrom, dotted, h]
  exact congrArg (c :: ·) (substituteFrom_dotted _ _ _ _ _)

theorem pass_skip (h : '.' ∉ u) (t : Text) : pass w (u ++ t) = u ++ pass w t := by
  induction u with
  | nil => rfl
  | cons c u ih =>
    rw [List.mem_cons, not_or] at h
    have hnone : afterFold? ("." ++ w.name ++ ".") (c :: (u ++ t)) = none := by
      have hc := beq_toLower (d := '.') (by decide) c
      simp [afterFold?, hc, Ne.symm h.1]
    rw [List.cons_append, pass_of_none hnone, ih h.2]
    rfl

theorem pass_point (h : afterFold? (w.name ++ ".") t = none) : pass w ('.' :: t) = '.' :: pass w t := by
  refine pass_of_none ?_
  simpa [afterFold?] using h

theorem pass_free (h : Free t) (hr : StartsOutside isWord r) : pass w (t ++ r) = t ++ pass w r := by
  induction t with
  | nil => rfl
  | cons c t ih =>
    have ht := ih h.2
    by_cases hc : c = '.'
    · subst hc
      rw [List.cons_append, pass_point (h.1 rfl r hr w), ht]
      rfl
    · have hs := pass_skip (w := w) (u := [c]) (by simpa using Ne.symm hc) (t ++ r)
      rw [ht] at hs
      exact hs

/-- The word of the pass becomes its symbol. -/
theorem pass_own (s : Spelled w) (t : Text) : pass w (s.dotted ++ t) = w.text ++ pass w t := by
  have hfold : afterFold? ("." ++ w.name ++ ".") (s.dotted ++ t) = some t := by
    have h := afterFold?_append s.dotted t
    rwa [Spelled.dotted, List.map_append, List.map_append, s.2] at h
  have hlen : t.length < (s.dotted ++ t).length := by
    simp [Spelled.dotted]
    omega
  have htext : s.dotted ++ t = '.' :: (s.1 ++ "." ++ t) := by simp [Spelled.dotted]
  rw [htext] at hfold hlen ⊢
  rw [pass, substitute, substituteFrom, dotted, hfold]
  simp only [Option.map_some, if_pos hlen]
  exact congrArg (w.text ++ ·) (substituteFrom_dotted _ _ _ _ _)

/-- Another word stays. -/
theorem pass_other {k : Word} (s : Spelled k) (hk : k ≠ w) (h : Quiet t) :
    pass w (s.dotted ++ t) = s.dotted ++ pass w t := by
  have hname : s.1.map Char.toLower ≠ w.name := by
    rw [s.2]
    exact fun he => hk (Word.name_injective he)
  have hfree : '.' ∉ s.1 := fun hm => absurd (mem_spelled s '.' hm) (by decide)
  have htext (t : Text) : s.dotted ++ t = '.' :: (s.1 ++ '.' :: t) := by simp [Spelled.dotted]
  rw [htext, htext, pass_point (afterFold?_run (mem_spelled s) (.cons (by decide)) fun _ => hname),
    pass_skip hfree, pass_point (h w)]

end Pass

/-! ### Operands -/

section Free
variable {t u : Text}

theorem Free.behind (h : '.' ∉ t) (hu : Free u) : Free (t ++ u) := by
  induction t with
  | nil => exact hu
  | cons c t ih =>
    rw [List.mem_cons, not_or] at h
    exact ⟨fun hc => absurd hc.symm h.1, ih h.2⟩

theorem free_of_not_mem (h : '.' ∉ t) : Free t := by
  have hf := Free.behind h (u := []) trivial
  rwa [List.append_nil] at hf

theorem outside_append (hu : StartsOutside isWord u) {r : Text} (hr : StartsOutside isWord r) :
    StartsOutside isWord (u ++ r) := by
  cases u with
  | nil => exact hr
  | cons c u => exact .cons (hu c rfl)

theorem Free.append (ht : Free t) (hu : Free u) (h : StartsOutside isWord u) : Free (t ++ u) := by
  induction t with
  | nil => exact hu
  | cons c t ih =>
    refine ⟨fun hc r hr => ?_, ih ht.2⟩
    have hq := ht.1 hc (u ++ r) (outside_append h hr)
    rwa [← List.append_assoc] at hq

end Free

theorem not_mem_gap (g : Gap) : '.' ∉ g.1 := g.not_mem (by decide)

theorem not_mem_name (w : Name) : '.' ∉ w.1 := fun h => absurd (w.2.mem_word.2 '.' h) (by decide)

theorem outside_word {t : Text} (h : StartsOutside isOperand t) : StartsOutside isWord t :=
  h.mono fun c hc => by simp [isOperand, hc]

theorem not_mem_around {t : Text} (h : '.' ∉ t) (p : Pad) : '.' ∉ p.around t := by
  simp [Pad.around, not_mem_gap, h]

theorem outside_around {w : Text} (hw : w ∈ symbols) (p : Pad) (t : Text) :
    StartsOutside isOperand (p.around w ++ t) := by
  rw [Pad.around, List.append_assoc, List.append_assoc]
  exact p.before.outside_operand (outside_symbol hw _)

theorem free_around {t : Text} (h : Free t) (p : Pad) : Free (p.around t) := by
  refine (Free.behind (not_mem_gap p.before) h).append (free_of_not_mem (not_mem_gap p.after)) ?_
  have hg := p.after.outside_operand .nil
  rw [List.append_nil] at hg
  exact outside_word hg

theorem free_parens {t : Text} (h : Free t) : Free ("(" ++ t ++ ")") :=
  (Free.behind (by decide) h).append (free_of_not_mem (by decide)) (.cons (by decide))

theorem free_wrap {t : Text} (h : Free t) (b : Bool) : Free (wrap b t) := by
  cases b with
  | false => exact h
  | true => exact free_parens h

theorem not_alpha_of_digit {c : Char} (h : c.isDigit = true) : c.isAlpha = false := by
  cases ha : c.isAlpha with
  | false => rfl
  | true =>
    have h₁ := isDigit_iff.1 h
    have h₂ := isAlpha_iff.1 ha
    omega

theorem not_mem_exponent (n : Numeral) : '.' ∉ n.exponent := by
  intro hm
  rcases n.exponent_form with he | ⟨m, s, d, he, hmark, hs, hd⟩
  · simp [he] at hm
  · rw [he, List.mem_cons, List.mem_append] at hm
    rcases hm with rfl | hm | hm
    · exact absurd hmark (by decide)
    · rcases hs with rfl | ⟨c, rfl, hc⟩
      · cases hm
      · obtain rfl := List.mem_singleton.1 hm
        exact absurd hc (by decide)
    · exact absurd ((mem_of_isDigits hd).2 '.' hm) (by decide)

theorem quiet_exponent (n : Numeral) {r : Text} (hr : StartsOutside isWord r) : Quiet (n.exponent ++ r) := by
  have hmark {m : Char} (h : isExponentMark m = true) : isWord m = true := by
    simp only [isExponentMark, Bool.or_eq_true, beq_iff_eq] at h
    rcases h with ((rfl | rfl) | rfl) | rfl <;> decide
  rcases n.exponent_form with he | ⟨m, s, d, he, hm, rfl | ⟨c, rfl, hc⟩, hd⟩
  · rw [he]
    exact quiet_of_word hr
  · -- A word of letters is not an exponent, which has digits.
    obtain ⟨hne, hd⟩ := mem_of_isDigits hd
    rw [he]
    refine fun w => afterFold?_run ?_ hr fun _ hw => ?_
    · intro c hc
      rcases List.mem_cons.1 hc with rfl | hc
      · exact hmark hm
      · exact word_of_digit (hd c hc)
    · obtain ⟨c, hc⟩ := List.exists_mem_of_ne_nil d hne
      have ha := mem_spelled_alpha (⟨_, hw⟩ : Spelled w) c (by simp [hc])
      simp [not_alpha_of_digit (hd c hc)] at ha
  · rw [he]
    refine fun w => afterFold?_run (u := [m]) (r := c :: (d ++ r)) ?_ ?_ ?_
    · simpa using hmark hm
    · exact outside_word (.cons (not_operand_of_sign hc))
    · rintro ⟨⟩
      exact absurd hc (by decide)

/-- Behind the point of a number there is a digit, an exponent or nothing of the number. -/
theorem free_number (n : Numeral) : Free n.text := by
  have hwhole : '.' ∉ n.whole := fun h => absurd (n.whole_digits '.' h) (by decide)
  rw [Numeral.text, List.append_assoc]
  refine .behind hwhole ?_
  rcases n.fraction_form with hf | ⟨d, hf, hd⟩
  · rw [hf]
    exact free_of_not_mem (not_mem_exponent n)
  · have hdigits : '.' ∉ d := fun hm => absurd (hd '.' hm) (by decide)
    rw [hf]
    refine ⟨fun _ r hr => ?_, .behind hdigits (free_of_not_mem (not_mem_exponent n))⟩
    cases d with
    | nil => exact quiet_exponent n hr
    | cons c d => exact quiet_of_outside (.cons (not_alpha_of_digit (hd c (by simp))))

theorem free_call {t : Text} (f : Name) (gap : Gap) (h : Free t) :
    Free (f.1 ++ gap.1 ++ "(" ++ t ++ ")") := by
  have hf := Free.behind (not_mem_name f) (Free.behind (not_mem_gap gap) (free_parens h))
  simpa only [List.append_assoc] using hf

theorem free_print {part : Part} (e : Tree part) : Free e.print := by
  induction e with
  | name w => exact free_of_not_mem (not_mem_name w)
  | number n => exact free_number n
  | group p e ih => exact free_parens (free_around ih p)
  | thunk f gap inner => exact free_call f gap (free_of_not_mem (not_mem_gap inner))
  | call f gap args ih => exact free_call f gap ih
  | sign s gap e ih =>
    have hs : '.' ∉ s.text := by cases s <;> decide
    have hf := Free.behind hs (Free.behind (not_mem_gap gap) (free_wrap ih (e.level < 2)))
    simpa only [Tree.print, List.append_assoc] using hf
  | binary op p a b iha ihb =>
    have hop : '.' ∉ op.text := by cases op <;> decide
    have hf := (free_wrap iha (a.level < op.leftLevel)).append
      (Free.behind (not_mem_around hop p) (free_wrap ihb (b.level < op.rightLevel)))
      (outside_word (outside_around op.mem_symbols p _))
    simpa only [Tree.print, List.append_assoc] using hf
  | one p e ih => exact free_around ih p
  | more args p e iha ihe =>
    have hf := iha.append (Free.behind (t := ",".toList) (by decide) (free_around ihe p)) (.cons (by decide))
    simpa only [Tree.print, List.append_assoc] using hf

/-- A name before something that is neither a point nor part of a word. -/
theorem quiet_name (w : Name) {r : Text} (hr : StartsOutside isOperand r) : Quiet (w.1 ++ r) := by
  refine fun k => afterFold?_run w.2.mem_word.2 (outside_word hr) fun hdot => ?_
  exact absurd (hr '.' hdot) (by decide)

theorem quiet_call (f : Name) (gap : Gap) (t : Text) : Quiet (f.1 ++ gap.1 ++ "(" ++ t) := by
  have hq := quiet_name f (gap.outside_operand (t := "(" ++ t) (.cons (by decide)))
  simpa only [List.append_assoc] using hq

theorem quiet_wrap {t r : Text} (h : Quiet (t ++ r)) (b : Bool) : Quiet (wrap b t ++ r) := by
  cases b with
  | false => exact h
  | true => exact quiet_of_outside (.cons (by decide))

/-- An operand is quiet, unless it is spelled like a word and a point follows. -/
theorem quiet_print : (e : Tree .expr) → {r : Text} → StartsOutside isWord r →
    (r.head? = some '.' → e.isSpelled = false) → Quiet (e.print ++ r)
  | .name w, r, hr, h => by
    refine fun k => afterFold?_run w.2.mem_word.2 hr fun hdot hk => ?_
    have hs := h hdot
    simp only [Tree.isSpelled, List.any_eq_false, beq_iff_eq] at hs
    exact hs k k.mem_all hk
  | .number n, r, _, _ => by
    obtain ⟨c, u, ht, hc⟩ := n.head
    rw [Tree.print, ht]
    refine quiet_of_outside (.cons ?_)
    rcases Bool.or_eq_true_iff.1 hc with h | h
    · exact not_alpha_of_digit h
    · rw [beq_iff_eq.1 h]
      decide
  | .group p e, r, _, _ => quiet_of_outside (.cons (by decide))
  | .thunk f gap inner, r, _, _ => by
    have hq := quiet_call f gap (inner.1 ++ ")" ++ r)
    simpa only [Tree.print, List.append_assoc] using hq
  | .call f gap args, r, _, _ => by
    have hq := quiet_call f gap (args.print ++ ")" ++ r)
    simpa only [Tree.print, List.append_assoc] using hq
  | .sign s gap e, r, _, _ => by
    cases s <;> exact quiet_of_outside (.cons (by decide))
  | .binary op p a b, r, _, _ => by
    have hstart := outside_around op.mem_symbols p (wrap (b.level < op.rightLevel) b.print ++ r)
    have hq := quiet_wrap (quiet_print a (outside_word hstart) fun hdot => absurd (hstart _ hdot) (by decide))
      (a.level < op.leftLevel)
    simpa only [Tree.print, List.append_assoc] using hq

/-! ### All passes -/

/-- The words in `done` are symbols already. -/
def stage (done : List Word) (w : Word) (s : Spelled w) : Text := if w ∈ done then w.text else s.dotted

/-- The constants come behind all other words. -/
def InOrder (done : List Word) : Prop :=
  ∀ b w, Word.constant b ∈ done → w ∉ done → ∃ b, w = .constant b

section Stage
variable {done : List Word} {w k : Word} {t r : Text}

theorem pass_stage (s : Spelled k) (h : k ∉ done → Quiet t) :
    pass w (stage done k s ++ t) = stage (done ++ [w]) k s ++ pass w t := by
  by_cases hk : k ∈ done
  · rw [stage, stage, if_pos hk, if_pos (List.mem_append_left _ hk), pass_skip k.point_not_mem_text]
  · by_cases hw : k = w
    · subst hw
      rw [stage, stage, if_neg hk, if_pos (by simp), pass_own]
    · rw [stage, stage, if_neg hk, if_neg (by simp [hk, hw]), pass_other s hw (h hk)]

/-- An operator starts with a point or a blank. -/
theorem outside_stage (done : List Word) (s : Spelled k) (hk : ∀ b, k ≠ .constant b) (t : Text) :
    StartsOutside isWord (stage done k s ++ t) := by
  rw [stage]
  split
  · cases k with
    | constant b => exact absurd rfl (hk b)
    | relation | not | junction => exact .cons (by decide)
  · exact .cons (by decide)

theorem outside_stage_around (done : List Word) (s : Spelled k) (hk : ∀ b, k ≠ .constant b) (p : Pad)
    (t : Text) : StartsOutside isWord (p.around (stage done k s) ++ t) := by
  rw [Pad.around, List.append_assoc, List.append_assoc]
  exact p.before.outside (fun _ => not_word_of_blank) (outside_stage done s hk _)

theorem quiet_gap (g : Gap) (h : Quiet t) : Quiet (g.1 ++ t) := by
  obtain ⟨g, hg, -⟩ := g
  cases g with
  | nil => exact h
  | cons c g => exact quiet_of_word (.cons (not_word_of_blank (mem_of_allBlank hg c (by simp))))

/-- Behind a point an expression is quiet, as long as its constants have their points. -/
theorem quiet_write (hdone : ∀ b, Word.constant b ∉ done) (e : Logic) (h : e.avoidsWords = true)
    (hr : StartsOutside isWord r) : Quiet (e.write (stage done) ++ r) := by
  induction e generalizing r with
  | constant b s =>
    rw [Logic.write, stage, if_neg (hdone b)]
    exact quiet_of_word (.cons (by decide))
  | reference e he => exact quiet_print e hr fun _ => by simpa [Logic.avoidsWords] using h
  | relation q s p a b =>
    simp only [Logic.avoidsWords, Bool.and_eq_true, Bool.not_eq_true'] at h
    have hq := quiet_print a (outside_stage_around done s (by simp) p (b.print ++ r)) fun _ => h.1
    simpa only [Logic.write, List.append_assoc] using hq
  | group p e => exact quiet_of_word (.cons (by decide))
  | not s gap e =>
    rw [Logic.write, List.append_assoc, List.append_assoc]
    exact quiet_of_word (outside_stage done s (by simp) _)
  | junction j s p a b iha =>
    simp only [Logic.avoidsWords, Bool.and_eq_true] at h
    have hq := quiet_wrap (iha h.1 (outside_stage_around done s (by simp) p
      (wrap (b.level < j.level + 1) (b.write (stage done)) ++ r))) (a.level < j.level)
    simpa only [Logic.write, List.append_assoc] using hq

/-- The pass of `w` turns `t` into `u`, whatever follows. -/
def Turns (w : Word) (t u : Text) : Prop :=
  ∀ r, StartsOutside isWord r → pass w (t ++ r) = u ++ pass w r

theorem Turns.around {u : Text} (h : Turns w t u) (p : Pad) : Turns w (p.around t) (p.around u) := by
  intro r hr
  rw [Pad.around, List.append_assoc, List.append_assoc, pass_skip (not_mem_gap p.before),
    h _ (p.after.outside (fun _ => not_word_of_blank) hr), pass_skip (not_mem_gap p.after)]
  simp [Pad.around]

theorem Turns.parens {u : Text} (h : Turns w t u) : Turns w ("(" ++ t ++ ")") ("(" ++ u ++ ")") := by
  intro r hr
  rw [List.append_assoc, List.append_assoc, pass_skip (by decide), h (")" ++ r) (.cons (by decide)),
    pass_skip (by decide)]
  simp

theorem Turns.wrap {u : Text} (h : Turns w t u) (b : Bool) : Turns w (Formula.wrap b t) (Formula.wrap b u) := by
  cases b with
  | false => exact h
  | true => exact h.parens

/-- An operator between two texts. -/
theorem Turns.operator {t t' u u' : Text} (ht : Turns w t t') (hu : Turns w u u') (s : Spelled k)
    (hk : ∀ b, k ≠ .constant b) (p : Pad)
    (hq : k ∉ done → ∀ r, StartsOutside isWord r → Quiet (u ++ r)) :
    Turns w (t ++ p.around (stage done k s) ++ u) (t' ++ p.around (stage (done ++ [w]) k s) ++ u') := by
  intro r hr
  have hnext : k ∉ done → Quiet (p.after.1 ++ (u ++ r)) := fun h => quiet_gap p.after (hq h r hr)
  rw [List.append_assoc, List.append_assoc, ht _ (outside_stage_around done s hk p _), Pad.around,
    List.append_assoc, List.append_assoc, pass_skip (not_mem_gap p.before), pass_stage s hnext,
    pass_skip (not_mem_gap p.after), hu r hr]
  simp [Pad.around]

theorem turns_print (e : Tree .expr) : Turns w e.print e.print := fun _ hr => pass_free (free_print e) hr

/-- One pass over an expression. -/
theorem turns_write (hdone : InOrder done) (w : Word) (e : Logic) (h : e.avoidsWords = true) :
    Turns w (e.write (stage done)) (e.write (stage (done ++ [w]))) := by
  -- An operator that waits for its pass stands before expressions whose constants wait as well.
  have hwait {k : Word} (hk : ∀ b, k ≠ .constant b) (hmem : k ∉ done) : ∀ b, Word.constant b ∉ done := by
    intro b hb
    obtain ⟨b', hb'⟩ := hdone b k hb hmem
    exact hk b' hb'
  induction e with
  | constant b s => exact fun r hr => pass_stage s fun _ => quiet_of_word hr
  | reference e he => exact turns_print e
  | relation q s p a b =>
    simp only [Logic.avoidsWords, Bool.and_eq_true, Bool.not_eq_true'] at h
    exact (turns_print a).operator (turns_print b) s (by simp) p fun _ r hr => quiet_print b hr fun _ => h.2
  | group p e ih => exact ((ih h).around p).parens
  | not s gap e ih =>
    have hnil : Turns w [] [] := fun _ _ => rfl
    have ht := hnil.operator ((ih h).wrap (e.level < 4)) s (by simp) ⟨.none, gap⟩ fun hk r hr =>
      quiet_wrap (quiet_write (hwait (by simp) hk) e h hr) _
    simpa only [Logic.write, Pad.around, Gap.none, List.nil_append] using ht
  | junction j s p a b iha ihb =>
    simp only [Logic.avoidsWords, Bool.and_eq_true] at h
    exact ((iha h.1).wrap _).operator ((ihb h.2).wrap _) s (by simp) p fun hk r hr =>
      quiet_wrap (quiet_write (hwait (by simp) hk) b h.2 hr) _

theorem inOrder_take (n : Nat) : InOrder (Word.all.take n) := by
  intro b w hb hw
  rcases Nat.le_total n 9 with hn | hn
  · have hb' := (List.take_prefix_take_left hn).subset hb
    cases b <;> exact absurd hb' (by decide)
  · have hw' : w ∉ Word.all.take 9 := fun h => hw ((List.take_prefix_take_left hn).subset h)
    cases w with
    | constant b => exact ⟨b, rfl⟩
    | relation r => exact absurd (by cases r <;> decide) hw'
    | not => exact absurd (by decide) hw'
    | junction j => exact absurd (by cases j <;> decide) hw'

/-- The first passes turn the first words into symbols. -/
theorem foldl_pass (e : Logic) (h : e.avoidsWords = true) (n : Nat) :
    (Word.all.take n).foldl (fun t w => pass w t) e.print = e.write (stage (Word.all.take n)) := by
  induction n with
  | zero => rfl
  | succ n ih =>
    rw [List.take_add_one, List.foldl_append, ih]
    cases Word.all[n]? with
    | none => simp
    | some w =>
      have ht := turns_write (inOrder_take n) w e h [] .nil
      rw [pass_nil, List.append_nil, List.append_nil] at ht
      exact ht

end Stage

theorem not_quote_of_printed {c : Char} (h : IsPrinted c) : isQuote c = false := by
  cases hq : isQuote c with
  | false => rfl
  | true =>
    simp only [isQuote, Bool.or_eq_true, beq_iff_eq] at hq
    rcases hq with rfl | rfl
    iterate 2 rcases h with h | ⟨h, -⟩ | h <;> exact absurd h (by decide)

theorem printed_dotted {w : Word} (s : Spelled w) : ∀ c ∈ s.dotted, IsPrinted c := by
  have hpoint : ∀ c ∈ ".".toList, IsPrinted c := by
    intro c hc
    obtain rfl := List.mem_singleton.1 hc
    exact .inl (by decide)
  have hs : ∀ c ∈ s.1, IsPrinted c := fun c hc => .inl (by simp [isOperand, mem_spelled s c hc])
  exact printed_append (printed_append hpoint hs) hpoint

theorem Logic.mem_print (e : Logic) : ∀ c ∈ e.print, IsPrinted c := by
  induction e with
  | constant b s => exact printed_dotted s
  | reference e h => exact e.mem_print
  | relation r s p a b =>
    exact printed_append (printed_append a.mem_print (printed_around p (printed_dotted s))) b.mem_print
  | group p e ih => exact printed_parens (printed_around p ih)
  | not s gap e ih => exact printed_append (printed_append (printed_dotted s) gap.mem_printed) (printed_wrap ih _)
  | junction j s p a b iha ihb =>
    exact printed_append (printed_append (printed_wrap iha _) (printed_around p (printed_dotted s)))
      (printed_wrap ihb _)

/-- The words of an expression become symbols. -/
theorem operators_print (e : Logic) (h : e.avoidsWords = true) : operators e.print = e.formula := by
  have hall : stage Word.all = fun w _ => w.text := by
    funext w s
    rw [stage, if_pos w.mem_all]
  have hfold := foldl_pass e h Word.all.length
  rw [List.take_length, hall] at hfold
  rw [operators, mapCode_of_free fun c hc => not_quote_of_printed (e.mem_print c hc), substituteAll,
    dottedWords_eq, List.foldl_map]
  exact hfold

/-- Symbols for words keep the truth value of a logical expression, where every relation under a
negation is in parentheses and no operand is a name that is spelled like a word. -/
theorem operators_keep_truth {V : Type} (A : Interpretation V) (e : Logic) (hg : e.isGuarded = true)
    (ha : e.avoidsWords = true) : ∃ v, A.read (operators e.print) = some v ∧ A.truth v = e.truth A := by
  rw [operators_print e ha]
  exact e.read_formula A hg

/-- `.not.(u .GT. 5).and.g(v).ge.-5 .or..false.` -/
def sampleLogic : Logic :=
  let five : Tree .expr := .number (.ofDigits "5" (by decide))
  let u : Tree .expr := .name ⟨"u", by decide⟩
  let v : Tree .expr := .name ⟨"v", by decide⟩
  let call : Tree .expr := .call ⟨"g", by decide⟩ .none (.one .none v)
  let first : Logic := .not ⟨"not", by decide⟩ .none
    (.group .none (.relation .gt ⟨"GT", by decide⟩ ⟨.space, .space⟩ u five))
  let second : Logic := .relation .ge ⟨"ge", by decide⟩ .none call (.sign .minus .none five)
  .junction .or ⟨"or", by decide⟩ ⟨.space, .none⟩
    (.junction .and ⟨"and", by decide⟩ .none first second) (.constant false ⟨"false", by decide⟩)

theorem operators_keep_truth_sample :
    sampleLogic.print = ".not.(u .GT. 5).and.g(v).ge.-5 .or..false." ∧ sampleLogic.isGuarded = true ∧
      sampleLogic.avoidsWords = true ∧
      ∃ v, integerLogic.read (operators sampleLogic.print) = some v ∧ integerLogic.truth v = true := by
  obtain ⟨hprint, hguarded, havoids, htruth⟩ :
      sampleLogic.print = ".not.(u .GT. 5).and.g(v).ge.-5 .or..false." ∧ sampleLogic.isGuarded = true ∧
        sampleLogic.avoidsWords = true ∧ sampleLogic.truth integerLogic = true := by
    decide +kernel
  have h := operators_keep_truth integerLogic sampleLogic hguarded havoids
  rw [htruth] at h
  exact ⟨hprint, hguarded, havoids, h⟩

end Formula

end FixedForm
