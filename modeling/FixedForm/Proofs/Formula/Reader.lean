import FixedForm.Proofs.Text.Classes

/-! Formulas in the syntax of the output: names, numbers, calls, groups and operators in the order in
which they bind.  Between the stages the power operator may be left in them.  The value of a formula is
read off its text with a stack of operators that wait for their right side.  A grammar says which value
each formula has, and the reader finds it. -/
namespace FixedForm.Formula
open Text

/-! ### Tokens -/

inductive Token where
  | name (w : Text)
  | number (w : Text)
  | op (symbol : Text)
  | opening
  | closing
  | comma
  deriving DecidableEq, Repr

def Token.power : Token := .op "**"

def isExponentMark (c : Char) : Bool := c == 'e' || c == 'E' || c == 'd' || c == 'D'

def isSign (c : Char) : Bool := c == '+' || c == '-'

/-- The number that a text starts with, and what follows it.  A sign belongs to the number when the
mark of an exponent stands before it. -/
def number (t : Text) : Text × Text :=
  let lead := t.takeWhile isOperand
  match lead.getLast?, t.dropWhile isOperand with
  | some m, s :: rest =>
    if isExponentMark m && isSign s then (lead ++ s :: rest.takeWhile isOperand, rest.dropWhile isOperand)
    else (lead, s :: rest)
  | _, rest => (lead, rest)

/-- The operators, the longer ones first. -/
def symbols : List Text :=
  ["||", "&&", "==", "!=", "<=", ">=", "**", "<", ">", "+", "-", "*", "/", "!"]

/-- The operator that a text starts with, and what follows it. -/
def symbol? (t : Text) : Option (Text × Text) :=
  symbols.findSome? fun s => (after? s t).map (s, ·)

/-- The first token of a text that does not start with a blank, and what follows it. -/
def token? (t : Text) : Option (Token × Text) :=
  match t with
  | [] => none
  | '(' :: t => some (.opening, t)
  | ')' :: t => some (.closing, t)
  | ',' :: t => some (.comma, t)
  | c :: t =>
    if c.isDigit || c == '.' then some (.number (number (c :: t)).1, (number (c :: t)).2)
    else if isWord c then some (.name (c :: t.takeWhile isWord), t.dropWhile isWord)
    else (symbol? (c :: t)).map fun (s, rest) => (.op s, rest)

def tokens? (t : Text) : Option (List Token) :=
  match t with
  | [] => some []
  | c :: t =>
    if isBlank c then tokens? t
    else
      match token? (c :: t) with
      | none => none
      | some (token, rest) =>
        if rest.length < (c :: t).length then (tokens? rest).map (token :: ·) else none
termination_by t.length
decreasing_by
  · exact Nat.lt_succ_self _
  · assumption

section Tokens
variable {c : Char} {g t w u rest : Text}

theorem tokens?_blanks (hg : g.allBlank = true) : tokens? (g ++ t) = tokens? t := by
  induction g with
  | nil => rfl
  | cons c g ih =>
    simp only [allBlank, List.all_cons, Bool.and_eq_true] at hg
    rw [List.cons_append, tokens?, if_pos hg.1, ih hg.2]

theorem tokens?_token {token : Token} (hne : u ≠ []) (hb : StartsOutside isBlank u)
    (h : token? (u ++ rest) = some (token, rest)) :
    tokens? (u ++ rest) = (tokens? rest).map (token :: ·) := by
  cases u with
  | nil => exact absurd rfl hne
  | cons c u =>
    have hlen : rest.length < (c :: (u ++ rest)).length := by
      simp only [List.length_cons, List.length_append]
      omega
    rw [List.cons_append] at h ⊢
    rw [tokens?, if_neg (by simp [hb c rfl]), h]
    exact if_pos hlen

/-- A character that is neither a parenthesis nor a comma. -/
theorem token?_other (h : c ≠ '(' ∧ c ≠ ')' ∧ c ≠ ',') : token? (c :: t) =
    if c.isDigit || c == '.' then some (.number (number (c :: t)).1, (number (c :: t)).2)
    else if isWord c then some (.name (c :: t.takeWhile isWord), t.dropWhile isWord)
    else (symbol? (c :: t)).map fun (s, rest) => (.op s, rest) := by
  rw [token?]
  · exact h.1
  · exact h.2.1
  · exact h.2.2

theorem ne_marks_of_operand (h : isOperand c = true) : c ≠ '(' ∧ c ≠ ')' ∧ c ≠ ',' := by
  refine ⟨?_, ?_, ?_⟩
  · rintro rfl
    exact absurd h (by decide)
  · rintro rfl
    exact absurd h (by decide)
  · rintro rfl
    exact absurd h (by decide)

theorem tokens?_name (hw : IsName w) (hr : StartsOutside isWord rest) :
    tokens? (w ++ rest) = (tokens? rest).map (.name w :: ·) := by
  obtain ⟨hne, hword⟩ := hw.mem_word
  cases w with
  | nil => exact absurd rfl hne
  | cons c w =>
    have hc : isWord c = true := hword c (by simp)
    refine tokens?_token hne (.cons (not_blank_of_word hc)) ?_
    have hpoint : c ≠ '.' := by
      rintro rfl
      exact absurd hc (by decide)
    have htail : ∀ d ∈ w, isWord d = true := fun d hd => hword d (by simp [hd])
    rw [List.cons_append, token?_other (ne_marks_of_operand (by simp [isOperand, hc]))]
    simp [hw.start c rfl, hpoint, hc, takeWhile_run htail hr, dropWhile_run htail hr]

theorem tokens?_number (hne : w ≠ []) (hstart : ∀ c, w.head? = some c → (c.isDigit || c == '.') = true)
    (h : number (w ++ rest) = (w, rest)) : tokens? (w ++ rest) = (tokens? rest).map (.number w :: ·) := by
  cases w with
  | nil => exact absurd rfl hne
  | cons c w =>
    have hc := hstart c rfl
    have hop : isOperand c = true := by
      rcases Bool.or_eq_true_iff.1 hc with hd | hp
      · simp [isOperand, word_of_digit hd]
      · simp [isOperand, hp]
    have hblank : isBlank c = false := by
      rcases Bool.or_eq_true_iff.1 hc with hd | hp
      · exact not_blank_of_word (word_of_digit hd)
      · rw [eq_of_beq hp]
        decide
    refine tokens?_token hne (.cons hblank) ?_
    rw [List.cons_append] at h ⊢
    rw [token?_other (ne_marks_of_operand hop), if_pos hc, h]

@[simp] theorem tokens?_opening : tokens? ('(' :: rest) = (tokens? rest).map (.opening :: ·) :=
  tokens?_token (u := ['(']) (by simp) (.cons (by decide)) rfl

@[simp] theorem tokens?_closing : tokens? (')' :: rest) = (tokens? rest).map (.closing :: ·) :=
  tokens?_token (u := [')']) (by simp) (.cons (by decide)) rfl

@[simp] theorem tokens?_comma : tokens? (',' :: rest) = (tokens? rest).map (.comma :: ·) :=
  tokens?_token (u := [',']) (by simp) (.cons (by decide)) rfl

/-- A character that would make an operator longer. -/
def isGlue (c : Char) : Bool := c == '=' || c == '*' || c == '&' || c == '|'

theorem symbol?_append (hw : w ∈ symbols) (hr : StartsOutside isGlue rest) :
    symbol? (w ++ rest) = some (w, rest) := by
  have hafter (d : Char) (hd : isGlue d = true) : after? [d] rest = none := by
    cases rest with
    | nil => rfl
    | cons c rest =>
      have hne : c ≠ d := by
        rintro rfl
        simp [hr c rfl] at hd
      simp [after?, hne]
  simp only [symbols, List.mem_cons, List.not_mem_nil, or_false] at hw
  rcases hw with rfl | rfl | rfl | rfl | rfl | rfl | rfl | rfl | rfl | rfl | rfl | rfl | rfl | rfl <;>
    simp [symbol?, symbols, List.findSome?, after?, hafter, isGlue]

theorem tokens?_symbol (hw : w ∈ symbols) (hr : StartsOutside isGlue rest) :
    tokens? (w ++ rest) = (tokens? rest).map (.op w :: ·) := by
  have hne : w ≠ [] := by
    rintro rfl
    exact absurd hw (by decide)
  have hhead : ∀ w ∈ symbols, ∃ c u, w = c :: u ∧ isBlank c = false ∧ (c ≠ '(' ∧ c ≠ ')' ∧ c ≠ ',') ∧
      (c.isDigit || c == '.') = false ∧ isWord c = false := by
    intro w hw
    simp only [symbols, List.mem_cons, List.not_mem_nil, or_false] at hw
    rcases hw with rfl | rfl | rfl | rfl | rfl | rfl | rfl | rfl | rfl | rfl | rfl | rfl | rfl | rfl <;>
      exact ⟨_, _, rfl, by decide⟩
  obtain ⟨c, u, rfl, hb, hm, hd, hword⟩ := hhead w hw
  refine tokens?_token hne (.cons hb) ?_
  rw [List.cons_append, token?_other hm, hd, hword, ← List.cons_append, symbol?_append hw hr]
  rfl

end Tokens

/-! ### Values -/

/-- What the names, the numbers and the operators of a formula stand for. -/
structure Algebra (V : Type) where
  name : Text → V
  number : Text → V
  apply : Text → List V → V
  unary : Text → V → V
  binary : Text → V → V → V

/-- How tightly a binary operator binds.  The power operator, which is none of the output, binds tighter
than a sign. -/
def level? (symbol : Text) : Option Nat :=
  List.lookup symbol [("||", 1), ("&&", 2), ("==", 3), ("!=", 3), ("<", 4), ("<=", 4), (">", 4),
    (">=", 4), ("+", 5), ("-", 5), ("*", 6), ("/", 6), ("**", 8)]

def isUnary (symbol : Text) : Bool := symbol == "!" || symbol == "+" || symbol == "-"

/-- An operator that waits for its right side. -/
inductive Entry (V : Type) where
  | binary (left : V) (symbol : Text) (level : Nat)
  | unary (symbol : Text)

/-- An open parenthesis, with the operators that wait outside. -/
inductive Frame (V : Type) where
  | group (pending : List (Entry V))
  | call (pending : List (Entry V)) (f : Text) (args : List V)

inductive Cursor (V : Type) where
  | need
  | word (w : Text)
  | value (v : V)

structure State (V : Type) where
  cursor : Cursor V
  pending : List (Entry V)
  frames : List (Frame V)

/-- An operator that comes takes over those that bind at least so tightly.  Powers group from the
right, so a power takes over none. -/
def threshold (level : Nat) : Nat := if level = 8 then 9 else level

def Entry.level {V : Type} : Entry V → Nat
  | .binary _ _ level => level
  | .unary _ => 7

namespace Algebra
variable {V : Type} (A : Algebra V)

def settle : Entry V → V → V
  | .binary left symbol _, v => A.binary symbol left v
  | .unary symbol, v => A.unary symbol v

/-- Applies the waiting operators that bind at least as tightly as `p`. -/
def reduce (p : Nat) : V → List (Entry V) → V × List (Entry V)
  | v, [] => (v, [])
  | v, e :: pending => if p ≤ e.level then reduce p (A.settle e v) pending else (v, e :: pending)

def value? : Cursor V → Option V
  | .need => none
  | .word w => some (A.name w)
  | .value v => some v

def close (v : V) : List (Frame V) → Option (State V)
  | .group pending :: frames => some ⟨.value v, pending, frames⟩
  | .call pending f args :: frames => some ⟨.value (A.apply f (args ++ [v])), pending, frames⟩
  | [] => none

def next (v : V) : List (Frame V) → Option (State V)
  | .call pending f args :: frames => some ⟨.need, [], .call pending f (args ++ [v]) :: frames⟩
  | _ => none

/-- A closing parenthesis where a value must come ends an empty list. -/
def closeEmpty : List (Entry V) → List (Frame V) → Option (State V)
  | [], .call pending f [] :: frames => some ⟨.value (A.apply f []), pending, frames⟩
  | _, _ => none

def step (s : State V) : Token → Option (State V)
  | .name w =>
    match s.cursor with
    | .need => some { s with cursor := .word w }
    | _ => none
  | .number w =>
    match s.cursor with
    | .need => some { s with cursor := .value (A.number w) }
    | _ => none
  | .opening =>
    match s.cursor with
    | .need => some ⟨.need, [], .group s.pending :: s.frames⟩
    | .word f => some ⟨.need, [], .call s.pending f [] :: s.frames⟩
    | .value _ => none
  | .op symbol =>
    match A.value? s.cursor with
    | none => if isUnary symbol then some { s with pending := .unary symbol :: s.pending } else none
    | some v => (level? symbol).map fun level =>
      let (left, pending) := A.reduce (threshold level) v s.pending
      ⟨.need, .binary left symbol level :: pending, s.frames⟩
  | .closing =>
    match A.value? s.cursor with
    | none => A.closeEmpty s.pending s.frames
    | some v => A.close (A.reduce 0 v s.pending).1 s.frames
  | .comma => (A.value? s.cursor).bind fun v => next (A.reduce 0 v s.pending).1 s.frames

def finish (s : State V) : Option V :=
  match A.value? s.cursor, s.frames with
  | some v, [] => some (A.reduce 0 v s.pending).1
  | _, _ => none

def run (s : State V) (ts : List Token) : Option V := (ts.foldlM A.step s).bind A.finish

/-- The value of a formula in which powers may be left. -/
def read (t : Text) : Option V := (tokens? t).bind (A.run ⟨.need, [], []⟩)

/-- The value of a formula of the output, which has no power operator. -/
def readOutput (t : Text) : Option V :=
  (tokens? t).bind fun ts => if .power ∈ ts then none else A.run ⟨.need, [], []⟩ ts

theorem run_cons (s : State V) (t : Token) (ts : List Token) :
    A.run s (t :: ts) = (A.step s t).bind (A.run · ts) := by
  simp only [run, List.foldlM_cons, Option.bind_eq_bind, Option.bind_assoc]

end Algebra

/-! ### The grammar -/

inductive Phrase where
  | expr (level : Nat)
  | args

abbrev Phrase.Value (V : Type) : Phrase → Type
  | .expr _ => V
  | .args => List V

/-- The value of each phrase. -/
inductive Derives {V : Type} (A : Algebra V) : (phrase : Phrase) → List Token → phrase.Value V → Prop where
  | name (w : Text) : Derives A (.expr 9) [.name w] (A.name w)
  | number (w : Text) : Derives A (.expr 9) [.number w] (A.number w)
  | group {ts : List Token} {v : V} (h : Derives A (.expr 1) ts v) :
    Derives A (.expr 9) (.opening :: (ts ++ [.closing])) v
  | thunk (f : Text) : Derives A (.expr 9) [.name f, .opening, .closing] (A.apply f [])
  | call {ts : List Token} {vs : List V} (f : Text) (h : Derives A .args ts vs) :
    Derives A (.expr 9) (.name f :: .opening :: (ts ++ [.closing])) (A.apply f vs)
  | power {a b : List Token} {v w : V} (ha : Derives A (.expr 9) a v) (hb : Derives A (.expr 8) b w) :
    Derives A (.expr 8) (a ++ .op "**" :: b) (A.binary "**" v w)
  | unary {a : List Token} {v : V} {symbol : Text} (hs : isUnary symbol = true)
    (ha : Derives A (.expr 7) a v) : Derives A (.expr 7) (.op symbol :: a) (A.unary symbol v)
  | binary {a b : List Token} {v w : V} {symbol : Text} {l : Nat} (hs : level? symbol = some l)
    (hl : l ≤ 6) (ha : Derives A (.expr l) a v) (hb : Derives A (.expr (l + 1)) b w) :
    Derives A (.expr l) (a ++ .op symbol :: b) (A.binary symbol v w)
  | tighter {ts : List Token} {v : V} {l l' : Nat} (h : Derives A (.expr l) ts v) (hl : l' ≤ l) :
    Derives A (.expr l') ts v
  | one {ts : List Token} {v : V} (h : Derives A (.expr 1) ts v) : Derives A .args ts [v]
  | more {a ts : List Token} {vs : List V} {v : V} (ha : Derives A .args a vs)
    (h : Derives A (.expr 1) ts v) : Derives A .args (a ++ .comma :: ts) (vs ++ [v])

/-- The operators that wait before a formula of level `l` bind less tightly than those in it. -/
def bound (l : Nat) : Nat := if l ≤ 6 then l else 9

def Waits {V : Type} (l : Nat) (pending : List (Entry V)) : Prop :=
  ∀ e, pending.head? = some e → e.level < bound l

section Reads
variable {V : Type} (A : Algebra V)

/-- What the reader does with a phrase: behind it the state is as good as one that has its value. -/
def Reads : (phrase : Phrase) → List Token → phrase.Value V → Prop
  | .expr l, ts, v => ∀ (pending : List (Entry V)) (frames : List (Frame V)) (rest : List Token),
    Waits l pending → rest.head? ≠ some .opening →
      ∃ w pending', A.run ⟨.need, pending, frames⟩ (ts ++ rest) = A.run ⟨.value w, pending', frames⟩ rest ∧
        ∀ p ≤ l, A.reduce p w pending' = A.reduce p v pending
  | .args, ts, vs => ∀ (pending : List (Entry V)) (f : Text) (frames : List (Frame V))
      (rest : List Token), rest.head? ≠ some .opening →
      ∃ args w pending', A.run ⟨.need, [], .call pending f [] :: frames⟩ (ts ++ rest) =
          A.run ⟨.value w, pending', .call pending f args :: frames⟩ rest ∧
        args ++ [(A.reduce 0 w pending').1] = vs

variable {A}

theorem reduce_waits {l p : Nat} {pending : List (Entry V)} (h : Waits l pending) (hp : bound l ≤ p)
    (v : V) : A.reduce p v pending = (v, pending) := by
  cases pending with
  | nil => rfl
  | cons e pending =>
    have hlt := h e rfl
    rw [Algebra.reduce, if_neg (by omega)]

theorem waits_nil (l : Nat) : Waits (V := V) l [] := nofun

theorem waits_cons {l : Nat} {e : Entry V} {pending : List (Entry V)} (h : e.level < bound l) :
    Waits l (e :: pending) := by
  rintro _ ⟨⟩
  exact h

theorem reduce_binary {p level : Nat} (h : p ≤ level) (v w : V) (symbol : Text)
    (pending : List (Entry V)) :
    A.reduce p w (.binary v symbol level :: pending) = A.reduce p (A.binary symbol v w) pending :=
  if_pos h

theorem reduce_unary {p : Nat} (h : p ≤ 7) (v : V) (symbol : Text) (pending : List (Entry V)) :
    A.reduce p v (.unary symbol :: pending) = A.reduce p (A.unary symbol v) pending :=
  if_pos h

theorem run_word {w : Text} {pending : List (Entry V)} {frames : List (Frame V)} {rest : List Token}
    (h : rest.head? ≠ some .opening) :
    A.run ⟨.word w, pending, frames⟩ rest = A.run ⟨.value (A.name w), pending, frames⟩ rest := by
  cases rest with
  | nil => rfl
  | cons t rest =>
    rw [Algebra.run_cons, Algebra.run_cons]
    cases t with
    | opening => exact absurd rfl h
    | name => rfl
    | number => rfl
    | op => rfl
    | closing => rfl
    | comma => rfl

theorem bound_mono {l l' : Nat} (h : l' ≤ l) : bound l' ≤ bound l := by
  unfold bound
  split <;> split <;> omega

/-- What is read up to a closing parenthesis or a comma has all its operators applied. -/
theorem reads_whole {l : Nat} {v : V} {ts : List Token} (h : Reads A (.expr l) ts v)
    (frames : List (Frame V)) (rest : List Token) (hr : rest.head? ≠ some .opening) :
    ∃ w pending, A.run ⟨.need, [], frames⟩ (ts ++ rest) = A.run ⟨.value w, pending, frames⟩ rest ∧
      (A.reduce 0 w pending).1 = v := by
  obtain ⟨w, pending, hrun, hred⟩ := h [] frames rest (waits_nil l) hr
  exact ⟨w, pending, hrun, by rw [hred 0 (Nat.zero_le l)]; rfl⟩

/-- An operator behind its left side: what binds less tightly goes on waiting. -/
theorem run_op {l level : Nat} {v w : V} {symbol : Text} {pending pending' : List (Entry V)}
    {frames : List (Frame V)} {rest : List Token} (hs : level? symbol = some level)
    (hl : threshold level ≤ l) (hb : bound l ≤ threshold level) (hw : Waits l pending)
    (hred : ∀ p ≤ l, A.reduce p w pending' = A.reduce p v pending) :
    A.run ⟨.value w, pending', frames⟩ (.op symbol :: rest) =
      A.run ⟨.need, .binary v symbol level :: pending, frames⟩ rest := by
  have hstep : A.step ⟨.value w, pending', frames⟩ (.op symbol) =
      some ⟨.need, .binary v symbol level :: pending, frames⟩ := by
    simp only [Algebra.step, Algebra.value?, hs, Option.map_some]
    rw [hred _ hl, reduce_waits hw hb]
  rw [Algebra.run_cons, hstep, Option.bind_some]

/-- An operation is read when its sides are: the left side binds as tightly as the operator demands of
what stands before it, and nothing that waits before the right side is applied in it. -/
theorem reads_operation {la lb l level : Nat} {a b : List Token} {v w : V} {symbol : Text}
    (hs : level? symbol = some level) (hla : threshold level ≤ la) (hleft : bound la ≤ threshold level)
    (hl : bound l ≤ bound la) (hright : level < bound lb) (hlevel : l ≤ level) (hlb : l ≤ lb)
    (ha : Reads A (.expr la) a v) (hb : Reads A (.expr lb) b w) :
    Reads A (.expr l) (a ++ .op symbol :: b) (A.binary symbol v w) := by
  intro pending frames rest hw hr
  have hwaits : Waits la pending := fun e he => Nat.lt_of_lt_of_le (hw e he) hl
  obtain ⟨x, pending₁, hrun₁, hred₁⟩ := ha pending frames (.op symbol :: (b ++ rest)) hwaits (by simp)
  obtain ⟨y, pending₂, hrun₂, hred₂⟩ := hb (.binary v symbol level :: pending) frames rest
    (waits_cons hright) hr
  refine ⟨y, pending₂, ?_, fun p hp => ?_⟩
  · rw [List.append_assoc, List.cons_append, hrun₁, run_op hs hla hleft hwaits hred₁, hrun₂]
  · rw [hred₂ p (Nat.le_trans hp hlb), reduce_binary (Nat.le_trans hp hlevel)]

theorem Derives.reads {phrase : Phrase} {ts : List Token} {v : phrase.Value V}
    (h : Derives A phrase ts v) : Reads A phrase ts v := by
  induction h with
  | name w =>
    intro pending frames rest _ hr
    exact ⟨A.name w, pending, run_word hr, fun _ _ => rfl⟩
  | number w =>
    intro pending frames rest _ _
    exact ⟨A.number w, pending, rfl, fun _ _ => rfl⟩
  | @group ts v _ ih =>
    intro pending frames rest _ _
    obtain ⟨w, pending', hrun, hv⟩ := reads_whole ih (.group pending :: frames)
      (.closing :: rest) (by simp)
    refine ⟨v, pending, ?_, fun _ _ => rfl⟩
    rw [← hv, List.cons_append, List.append_assoc, Algebra.run_cons]
    exact hrun
  | thunk f =>
    intro pending frames rest _ _
    exact ⟨A.apply f [], pending, rfl, fun _ _ => rfl⟩
  | @call ts vs f _ ih =>
    intro pending frames rest _ _
    obtain ⟨args, w, pending', hrun, hvs⟩ := ih pending f frames (.closing :: rest) (by simp)
    refine ⟨A.apply f vs, pending, ?_, fun _ _ => rfl⟩
    rw [← hvs, List.cons_append, List.cons_append, List.append_assoc, Algebra.run_cons]
    exact hrun
  | power _ _ iha ihb =>
    exact reads_operation rfl (by decide) (by decide) (by decide) (by decide) (by decide) (by decide)
      iha ihb
  | @unary a v symbol hs _ ih =>
    intro pending frames rest hb hr
    obtain ⟨w, pending', hrun, hred⟩ := ih (.unary symbol :: pending) frames rest
      (waits_cons (show 7 < bound 7 by decide)) hr
    refine ⟨w, pending', ?_, fun p hp => ?_⟩
    · have hstep : A.step ⟨.need, pending, frames⟩ (.op symbol) =
          some ⟨.need, .unary symbol :: pending, frames⟩ := if_pos hs
      rw [List.cons_append, Algebra.run_cons, hstep, Option.bind_some, hrun]
    · rw [hred p hp, reduce_unary hp]
  | @binary a b v w symbol l hs hl _ _ iha ihb =>
    have hbound : bound l = l := if_pos hl
    have hthreshold : threshold l = l := if_neg (by omega)
    have hnext : l < bound (l + 1) := by
      unfold bound
      split <;> omega
    exact reads_operation hs (by omega) (by omega) (Nat.le_refl _) hnext (Nat.le_refl l) (Nat.le_succ l)
      iha ihb
  | @tighter ts v l l' _ hl ih =>
    intro pending frames rest hb hr
    obtain ⟨w, pending', hrun, hred⟩ := ih pending frames rest
      (fun e he => Nat.lt_of_lt_of_le (hb e he) (bound_mono hl)) hr
    exact ⟨w, pending', hrun, fun p hp => hred p (Nat.le_trans hp hl)⟩
  | @one ts v _ ih =>
    intro pending f frames rest hr
    obtain ⟨w, pending', hrun, hv⟩ := reads_whole ih (.call pending f [] :: frames) rest hr
    exact ⟨[], w, pending', hrun, by rw [hv]; rfl⟩
  | @more a ts vs v _ _ iha ih =>
    intro pending f frames rest hr
    obtain ⟨args, w, pending₁, hrun₁, hvs⟩ := iha pending f frames (.comma :: (ts ++ rest)) (by simp)
    obtain ⟨x, pending₂, hrun₂, hv⟩ := reads_whole ih (.call pending f vs :: frames) rest hr
    refine ⟨vs, x, pending₂, ?_, by rw [hv]⟩
    rw [List.append_assoc, List.cons_append, hrun₁, Algebra.run_cons, ← hrun₂, ← hvs]
    rfl

/-- The reader finds the value of every formula of the grammar. -/
theorem read_of_derives {l : Nat} {v : V} {t : Text} {ts : List Token} (ht : tokens? t = some ts)
    (h : Derives A (.expr l) ts v) : A.read t = some v := by
  obtain ⟨w, pending, hrun, hv⟩ := reads_whole h.reads [] [] (by simp)
  rw [List.append_nil] at hrun
  rw [Algebra.read, ht, Option.bind_some, hrun, ← hv]
  rfl

theorem readOutput_of_derives {l : Nat} {v : V} {t : Text} {ts : List Token} (ht : tokens? t = some ts)
    (hp : .power ∉ ts) (h : Derives A (.expr l) ts v) : A.readOutput t = some v := by
  have hread := read_of_derives ht h
  rw [Algebra.read, ht, Option.bind_some] at hread
  rw [Algebra.readOutput, ht, Option.bind_some, if_neg hp, hread]

end Reads

end FixedForm.Formula
