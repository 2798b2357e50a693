import FixedForm.Proofs.Formula.Arithmetic

/-! Logical expressions over arithmetic ones.  The words for operators and constants may be written in
any way, so one function gives the text with points and the one with symbols.  Read as a formula, the
text with symbols has the truth value of the expression, if no relation is negated without
parentheses. -/
namespace FixedForm.Formula
open Text

inductive Relation where
  | gt | ge | lt | le | eq | ne
  deriving DecidableEq

def Relation.symbol : Relation → Text
  | .gt => ">"
  | .ge => ">="
  | .lt => "<"
  | .le => "<="
  | .eq => "=="
  | .ne => "!="

inductive Junction where
  | and | or
  deriving DecidableEq

namespace Junction

def symbol : Junction → Text
  | .and => "&&"
  | .or => "||"

def join : Junction → Bool → Bool → Bool
  | .and, a, b => a && b
  | .or, a, b => a || b

def level : Junction → Nat
  | .or => 1
  | .and => 2

end Junction

/-- What is written between points. -/
inductive Word where
  | relation (r : Relation)
  | not
  | junction (j : Junction)
  | constant (b : Bool)
  deriving DecidableEq

namespace Word

def name : Word → Text
  | .relation .gt => "gt"
  | .relation .ge => "ge"
  | .relation .lt => "lt"
  | .relation .le => "le"
  | .relation .eq => "eq"
  | .relation .ne => "ne"
  | .not => "not"
  | .junction .and => "and"
  | .junction .or => "or"
  | .constant true => "true"
  | .constant false => "false"

/-- How the word is written in a formula. -/
def text : Word → Text
  | .relation r => " " ++ r.symbol ++ " "
  | .not => " !"
  | .junction j => " " ++ j.symbol ++ " "
  | .constant b => (Word.constant b).name

/-- The words in the order in which they get their symbols. -/
def all : List Word :=
  [.relation .gt, .relation .ge, .relation .lt, .relation .le, .relation .eq, .relation .ne, .not,
    .junction .and, .junction .or, .constant true, .constant false]

theorem mem_all (w : Word) : w ∈ all := by
  rcases w with r | _ | j | b
  · cases r <;> decide
  · decide
  · cases j <;> decide
  · cases b <;> decide

end Word

/-- A word in letters of either case. -/
abbrev Spelled (w : Word) := { s : Text // s.map Char.toLower = w.name }

def Spelled.dotted {w : Word} (s : Spelled w) : Text := "." ++ s.1 ++ "."

/-- A variable, an element of an array or a call. -/
def Tree.isReference : Tree .expr → Bool
  | .name _ | .thunk _ _ _ | .call _ _ _ => true
  | _ => false

/-- A name that is spelled like one of the words. -/
def Tree.isSpelled : Tree .expr → Bool
  | .name w => Word.all.any fun k => w.1.map Char.toLower == k.name
  | _ => false

inductive Logic where
  | constant (b : Bool) (s : Spelled (.constant b))
  | reference (e : Tree .expr) (h : e.isReference = true)
  | relation (r : Relation) (s : Spelled (.relation r)) (p : Pad) (a b : Tree .expr)
  | group (p : Pad) (e : Logic)
  | not (s : Spelled .not) (gap : Gap) (e : Logic)
  | junction (j : Junction) (s : Spelled (.junction j)) (p : Pad) (a b : Logic)

namespace Logic

/-- How tightly the outermost operator binds.  A relation binds tighter than a negation. -/
def level : Logic → Nat
  | .junction j _ _ _ _ => j.level
  | .not _ _ _ => 3
  | .relation _ _ _ _ _ => 4
  | _ => 5

/-- The text of an expression with the fewest parentheses, where `f` writes the words. -/
def write (f : (w : Word) → Spelled w → Text) : Logic → Text
  | .constant b s => f (.constant b) s
  | .reference e _ => e.print
  | .relation r s p a b => a.print ++ p.around (f (.relation r) s) ++ b.print
  | .group p e => "(" ++ p.around (e.write f) ++ ")"
  | .not s gap e => f .not s ++ gap.1 ++ wrap (e.level < 4) (e.write f)
  | .junction j s p a b =>
    wrap (a.level < j.level) (a.write f) ++ p.around (f (.junction j) s) ++
      wrap (b.level < j.level + 1) (b.write f)

def print (e : Logic) : Text := e.write fun _ s => s.dotted

def formula (e : Logic) : Text := e.write fun w _ => w.text

/-- Every relation under a negation is in parentheses. -/
def isGuarded : Logic → Bool
  | .constant _ _ | .reference _ _ | .relation _ _ _ _ _ => true
  | .group _ e => e.isGuarded
  | .not _ _ e => e.level != 4 && e.isGuarded
  | .junction _ _ _ a b => a.isGuarded && b.isGuarded

/-- No operand is a name that is spelled like one of the words. -/
def avoidsWords : Logic → Bool
  | .constant _ _ => true
  | .reference e _ => !e.isSpelled
  | .relation _ _ _ a b => !a.isSpelled && !b.isSpelled
  | .group _ e => e.avoidsWords
  | .not _ _ e => e.avoidsWords
  | .junction _ _ _ a b => a.avoidsWords && b.avoidsWords

end Logic

/-- What relations say of values, and which values count as true. -/
structure Interpretation (V : Type) extends Arithmetic V where
  holds : Relation → V → V → Bool
  truth : V → Bool
  truth_relation : ∀ (r : Relation) (v w : V), truth (binary r.symbol v w) = holds r v w
  truth_not : ∀ v : V, truth (unary "!" v) = !truth v
  truth_junction : ∀ (j : Junction) (v w : V), truth (binary j.symbol v w) = j.join (truth v) (truth w)
  truth_constant : ∀ b : Bool, truth (name (Word.constant b).name) = b

theorem toInt_bne_zero (b : Bool) : (b.toInt != 0) = b := by
  cases b <;> rfl

/-- Integers, where all but zero count as true. -/
def integerLogic : Interpretation Int where
  toArithmetic := integers
  holds r v w := match r with
    | .gt => v > w
    | .ge => v ≥ w
    | .lt => v < w
    | .le => v ≤ w
    | .eq => v == w
    | .ne => v != w
  truth v := v != 0
  truth_relation r v w := by cases r <;> exact toInt_bne_zero _
  truth_not v := (toInt_bne_zero (v == 0)).trans (Bool.not_not (v == 0)).symm
  truth_junction j v w := by cases j <;> exact toInt_bne_zero _
  truth_constant b := by cases b <;> decide

def Logic.truth {V : Type} (A : Interpretation V) : Logic → Bool
  | .constant b _ => b
  | .reference e _ => A.truth (e.value A.toAlgebra)
  | .relation r _ _ a b => A.holds r (a.value A.toAlgebra) (b.value A.toAlgebra)
  | .group _ e => e.truth A
  | .not _ _ e => !e.truth A
  | .junction j _ _ a b => j.join (a.truth A) (b.truth A)

/-! ### Tokens -/

def Logic.tokens : Logic → List Token
  | .constant b _ => [.name (Word.constant b).name]
  | .reference e _ => e.tokens
  | .relation r _ _ a b => a.tokens ++ .op r.symbol :: b.tokens
  | .group _ e => .opening :: (e.tokens ++ [.closing])
  | .not _ _ e => .op "!" :: wrapTokens (e.level < 4) e.tokens
  | .junction j _ _ a b =>
    wrapTokens (a.level < j.level) a.tokens ++ .op j.symbol :: wrapTokens (b.level < j.level + 1) b.tokens

/-- The same blanks and one more on each side. -/
def Pad.wide (p : Pad) : Pad := ⟨p.before.append .space, Gap.space.append p.after⟩

theorem Pad.around_wide (p : Pad) (t : Text) : p.around (" " ++ t ++ " ") = p.wide.around t := by
  simp [around, wide, Gap.append, Gap.space]

def constantName (b : Bool) : Name := ⟨(Word.constant b).name, by cases b <;> decide⟩

theorem Logic.apart_formula (e : Logic) : Apart e.formula := by
  induction e with
  | constant b s => exact .name (constantName b)
  | reference e h => exact e.apart_print
  | relation r s p a b => exact (a.apart_print.append _).append _
  | group p e => exact .cons (by decide) _
  | not s gap e => exact .cons (by decide) _
  | junction j s p a b iha => exact ((iha.wrap _).append _).append _

theorem Relation.mem_symbols (r : Relation) : r.symbol ∈ symbols := by
  cases r <;> decide

theorem Junction.mem_symbols (j : Junction) : j.symbol ∈ symbols := by
  cases j <;> decide

theorem Logic.spells_formula (e : Logic) : Spells e.formula e.tokens := by
  induction e with
  | constant b s => exact .name (constantName b)
  | reference e h => exact e.spells_print
  | relation r s p a b =>
    have h := a.spells_print.binary r.mem_symbols p.wide b.apart_print b.spells_print
    rwa [← p.around_wide] at h
  | group p e ih => exact (ih.around p).parens
  | not s gap e ih =>
    have h : Spells ("!" ++ gap.1 ++ wrap (e.level < 4) e.formula) (Logic.not s gap e).tokens :=
      .op (by decide) gap (e.apart_formula.wrap _) (ih.wrap _)
    intro rest hr
    exact (tokens?_gap .space _).trans (h rest hr)
  | junction j s p a b iha ihb =>
    have h := (iha.wrap (a.level < j.level)).binary j.mem_symbols p.wide
      (b.apart_formula.wrap (b.level < j.level + 1)) (ihb.wrap _)
    rwa [← p.around_wide] at h

/-! ### The truth value of a formula -/

section Derives
variable {V : Type} (A : Interpretation V)

/-- The level of the grammar at which an expression is read. -/
def Logic.readLevel : Logic → Nat
  | .junction j _ _ _ _ => j.level
  | .not _ _ _ => 7
  | .relation _ _ _ _ _ => 3
  | _ => 9

/-- The tokens form a formula of level `l` that is true as often as the expression. -/
def Logic.Reads (e : Logic) (l : Nat) (ts : List Token) : Prop :=
  ∃ v, Derives A.toAlgebra (.expr l) ts v ∧ A.truth v = e.truth A

variable {A}

theorem Logic.Reads.tighter {e : Logic} {l l' : Nat} {ts : List Token} (h : e.Reads A l ts) (hl : l' ≤ l) :
    e.Reads A l' ts := by
  obtain ⟨v, hd, hv⟩ := h
  exact ⟨v, hd.tighter hl, hv⟩

theorem Logic.one_le_readLevel (e : Logic) : 1 ≤ e.readLevel := by
  cases e with
  | junction j =>
    simp only [readLevel]
    cases j <;> decide
  | constant | reference | relation | group | not => simp [readLevel]

/-- Up to the level of negations, symbols bind in the order of the words. -/
theorem Logic.le_readLevel {e : Logic} {l : Nat} (hl : l ≤ 3) (h : l ≤ e.level) : l ≤ e.readLevel := by
  cases e with
  | junction j => exact h
  | constant | reference | relation | group | not =>
    simp only [readLevel]
    omega

/-- What is written in parentheses if it needs them is read at the level that was asked for. -/
theorem Logic.Reads.wrap {e : Logic} {l k : Nat} (h : e.Reads A e.readLevel e.tokens) (hk : k ≤ 9)
    (hlevel : l ≤ e.level → k ≤ e.readLevel) : e.Reads A k (wrapTokens (e.level < l) e.tokens) := by
  by_cases hlt : e.level < l
  · obtain ⟨v, hd, hv⟩ := h
    rw [wrapTokens, if_pos (by simpa using hlt)]
    exact ⟨v, (Derives.group (hd.tighter e.one_le_readLevel)).tighter hk, hv⟩
  · rw [wrapTokens, if_neg (by simpa using hlt)]
    exact h.tighter (hlevel (Nat.le_of_not_lt hlt))

variable (A)

theorem Relation.level_symbol (r : Relation) : ∃ l, level? r.symbol = some l ∧ 3 ≤ l ∧ l ≤ 4 := by
  cases r with
  | eq => exact ⟨3, by decide⟩
  | ne => exact ⟨3, by decide⟩
  | gt => exact ⟨4, by decide⟩
  | ge => exact ⟨4, by decide⟩
  | lt => exact ⟨4, by decide⟩
  | le => exact ⟨4, by decide⟩

theorem Tree.derives (e : Tree .expr) :
    Derives A.toAlgebra (.expr 5) e.tokens (e.value A.toAlgebra) :=
  (e.read A.toArithmetic).1.tighter (readLevel_mono (Nat.zero_le e.level))

theorem Logic.reads (e : Logic) (h : e.isGuarded = true) : e.Reads A e.readLevel e.tokens := by
  induction e with
  | constant b s => exact ⟨_, .name _, A.truth_constant b⟩
  | reference e he =>
    have hl : e.level = 4 := by
      cases e with
      | name | thunk | call => rfl
      | number | group | sign | binary => cases he
    have hr := (e.read A.toArithmetic).1
    rw [hl] at hr
    exact ⟨_, hr, rfl⟩
  | relation r s p a b =>
    obtain ⟨l, hs, hl, hl'⟩ := r.level_symbol
    have ha : Derives A.toAlgebra (.expr l) a.tokens (a.value A.toAlgebra) :=
      (a.derives A).tighter (by omega)
    have hb : Derives A.toAlgebra (.expr (l + 1)) b.tokens (b.value A.toAlgebra) :=
      (b.derives A).tighter (by omega)
    exact ⟨_, (Derives.binary hs (by omega) ha hb).tighter hl, A.truth_relation r _ _⟩
  | group p e ih =>
    obtain ⟨v, hd, hv⟩ := ih h
    exact ⟨v, .group (hd.tighter e.one_le_readLevel), hv⟩
  | not s gap e ih =>
    simp only [isGuarded, Bool.and_eq_true, bne_iff_ne, ne_eq] at h
    have hlevel : 4 ≤ e.level → 7 ≤ e.readLevel := by
      intro hl
      cases e with
      | relation => exact absurd rfl h.1
      | junction j => cases j <;> simp [level, Junction.level] at hl
      | constant | reference | group | not => simp [readLevel]
    obtain ⟨v, hd, hv⟩ := (ih h.2).wrap (by decide) hlevel
    refine ⟨_, .unary (by decide) hd, ?_⟩
    rw [A.truth_not, hv]
    rfl
  | junction j s p a b iha ihb =>
    simp only [isGuarded, Bool.and_eq_true] at h
    have hj : j.level ≤ 2 ∧ level? j.symbol = some j.level := by cases j <;> decide
    obtain ⟨v, hd, hv⟩ := (iha h.1).wrap (by omega) (le_readLevel (l := j.level) (by omega))
    obtain ⟨w, hd', hw⟩ := (ihb h.2).wrap (by omega) (le_readLevel (l := j.level + 1) (by omega))
    refine ⟨_, Derives.binary (l := j.level) hj.2 (by omega) hd hd', ?_⟩
    rw [A.truth_junction, hv, hw]
    rfl

/-- A formula is true as often as the expression. -/
theorem Logic.read_formula (e : Logic) (h : e.isGuarded = true) :
    ∃ v, A.read e.formula = some v ∧ A.truth v = e.truth A := by
  obtain ⟨v, hd, hv⟩ := e.reads A h
  exact ⟨v, read_of_derives e.spells_formula.tokens hd, hv⟩

end Derives

end FixedForm.Formula
