import FixedForm.Proofs.Text.Classes
import FixedForm.Reference.Bracket

/-! Integer index expressions, how they are written without blanks, and their values.  A machine reads
an index in its brackets from left to right and works out its value; it accepts the written expressions
and no other text, so a text has one value. -/
namespace FixedForm.Index
open Text

abbrev Name := { w : Text // IsName w }

abbrev Literal := { d : Text // d.isDigits = true }

inductive Part where
  | factor | term | expr | items

inductive Tree : Part → Type where
  | name (w : Name) : Tree .factor
  | number (d : Literal) : Tree .factor
  | group (e : Tree .expr) : Tree .factor
  | thunk (f : Name) : Tree .factor
  | call (f : Name) (args : Tree .items) : Tree .factor
  | element (a : Name) (args : Tree .items) : Tree .factor
  | single (f : Tree .factor) : Tree .term
  | mul (t : Tree .term) (f : Tree .factor) : Tree .term
  | div (t : Tree .term) (f : Tree .factor) : Tree .term
  | plain (t : Tree .term) : Tree .expr
  | neg (t : Tree .term) : Tree .expr
  | add (e : Tree .expr) (t : Tree .term) : Tree .expr
  | sub (e : Tree .expr) (t : Tree .term) : Tree .expr
  | one (e : Tree .expr) : Tree .items
  | more (args : Tree .items) (e : Tree .expr) : Tree .items

def Tree.print {part : Part} : Tree part → Text
  | .name w => w.1
  | .number d => d.1
  | .group e => "(" ++ e.print ++ ")"
  | .thunk f => f.1 ++ "()"
  | .call f args => f.1 ++ "(" ++ args.print ++ ")"
  | .element a args => a.1 ++ "[" ++ args.print ++ "]"
  | .single f => f.print
  | .mul t f => t.print ++ "*" ++ f.print
  | .div t f => t.print ++ "/" ++ f.print
  | .plain t => t.print
  | .neg t => "-" ++ t.print
  | .add e t => e.print ++ "+" ++ t.print
  | .sub e t => e.print ++ "-" ++ t.print
  | .one e => e.print
  | .more args e => args.print ++ "," ++ e.print

/-- What the names of variables, functions and arrays stand for. -/
structure Reading where
  name : Text → Int
  call : Text → List Int → Int
  element : Text → List Int → Int

/-- An integer under every reading. -/
abbrev Meaning := Reading → Int

/-- Division goes toward zero. -/
def Meaning.quot (m n : Meaning) : Meaning := fun I => (m I).tdiv (n I)

def Meaning.applied (f : Text) (args : List Meaning) : Meaning := fun I => I.call f (args.map (· I))

def Meaning.entry (a : Text) (args : List Meaning) : Meaning := fun I => I.element a (args.map (· I))

abbrev Part.Meaning : Part → Type
  | .items => List Index.Meaning
  | _ => Index.Meaning

def Tree.meaning {part : Part} : Tree part → part.Meaning
  | .name w => fun I => I.name w.1
  | .number d => fun _ => d.1.value
  | .group e => e.meaning
  | .thunk f => .applied f.1 []
  | .call f args => .applied f.1 args.meaning
  | .element a args => .entry a.1 args.meaning
  | .single f => f.meaning
  | .mul t f => fun I => t.meaning I * f.meaning I
  | .div t f => .quot t.meaning f.meaning
  | .plain t => t.meaning
  | .neg t => fun I => -t.meaning I
  | .add e t => fun I => e.meaning I + t.meaning I
  | .sub e t => fun I => e.meaning I - t.meaning I
  | .one e => [e.meaning]
  | .more args e => args.meaning ++ [e.meaning]

/-- The sum of all literals. -/
def Tree.literals {part : Part} : Tree part → Nat
  | .name _ | .thunk _ => 0
  | .number d => d.1.value
  | .group e => e.literals
  | .call _ args | .element _ args => args.literals
  | .single f => f.literals
  | .mul t f | .div t f => t.literals + f.literals
  | .plain t | .neg t => t.literals
  | .add e t | .sub e t => e.literals + t.literals
  | .one e => e.literals
  | .more args e => args.literals + e.literals

/-! ### The machine -/

/-- What stands before the term that is being read. -/
inductive Lead where
  | start
  | minus
  | plus (sum : Meaning)
  | less (sum : Meaning)

def Lead.apply : Lead → Meaning → Meaning
  | .start, m => m
  | .minus, m => fun I => -m I
  | .plus s, m => fun I => s I + m I
  | .less s, m => fun I => s I - m I

/-- What stands in the term before the factor that is being read. -/
inductive Product where
  | first
  | times (term : Meaning)
  | divide (term : Meaning)

def Product.apply : Product → Meaning → Meaning
  | .first, m => m
  | .times t, m => fun I => t I * m I
  | .divide t, m => .quot t m

/-- The place in an expression: a factor must come, a word has begun, or a term may end. -/
inductive Cursor where
  | need (lead : Lead) (product : Product)
  | word (lead : Lead) (product : Product) (w : Text)
  | done (lead : Lead) (term : Meaning)

/-- An open parenthesis or bracket, with the place in the expression around it. -/
inductive Opening where
  | whole
  | group (lead : Lead) (product : Product)
  | call (lead : Lead) (product : Product) (f : Text) (args : List Meaning)
  | element (lead : Lead) (product : Product) (a : Text) (args : List Meaning)

structure State where
  cursor : Cursor
  openings : List Opening
  /-- The sum of the literals so far. -/
  total : Nat

inductive Machine where
  | fresh
  | inside (s : State)
  | closed (value : Meaning) (total : Nat)

/-- The meaning of a word, and its value when it is a literal. -/
def word? (w : Text) : Option (Meaning × Nat) :=
  if w.isDigits then some (fun _ => w.value, w.value)
  else if IsName w then some (fun I => I.name w, 0)
  else none

/-- The term that ends here, with what stands before it and the literal that it ends with. -/
def Cursor.term? : Cursor → Option (Lead × Meaning × Nat)
  | .need _ _ => none
  | .word lead product w => (word? w).map fun (m, n) => (lead, product.apply m, n)
  | .done lead t => some (lead, t, 0)

def Cursor.extend? (c : Char) : Cursor → Option Cursor
  | .need lead product => some (.word lead product [c])
  | .word lead product w => some (.word lead product (w ++ [c]))
  | .done _ _ => none

/-- A parenthesis opens a group, or the arguments of the name before it. -/
def Cursor.open? : Cursor → Option Opening
  | .need lead product => some (.group lead product)
  | .word lead product w => if IsName w then some (.call lead product w []) else none
  | .done _ _ => none

def Cursor.openElement? : Cursor → Option Opening
  | .word lead product w => if IsName w then some (.element lead product w []) else none
  | _ => none

def start : Cursor := .need .start .first

/-- An expression of value `v` ends with `c`. -/
def finish (c : Char) (v : Meaning) (total : Nat) : List Opening → Option Machine
  | .group lead product :: st =>
    if c = ')' then some (.inside ⟨.done lead (product.apply v), st, total⟩) else none
  | .call lead product f args :: st =>
    if c = ')' then some (.inside ⟨.done lead (product.apply (.applied f (args ++ [v]))), st, total⟩)
    else if c = ',' then some (.inside ⟨start, .call lead product f (args ++ [v]) :: st, total⟩)
    else none
  | .element lead product a args :: st =>
    if c = ']' then some (.inside ⟨.done lead (product.apply (.entry a (args ++ [v]))), st, total⟩)
    else if c = ',' then some (.inside ⟨start, .element lead product a (args ++ [v]) :: st, total⟩)
    else none
  | [.whole] => if c = ']' then some (.closed v total) else none
  | _ => none

/-- A mark behind a term. -/
def follow (c : Char) (st : List Opening) (total : Nat) : Lead × Meaning × Nat → Option Machine
  | (lead, t, n) =>
    if c = '+' then some (.inside ⟨.need (.plus (lead.apply t)) .first, st, total + n⟩)
    else if c = '-' then some (.inside ⟨.need (.less (lead.apply t)) .first, st, total + n⟩)
    else if c = '*' then some (.inside ⟨.need lead (.times t), st, total + n⟩)
    else if c = '/' then some (.inside ⟨.need lead (.divide t), st, total + n⟩)
    else finish c (lead.apply t) (total + n) st

/-- A mark where a factor must come: the sign of an expression, or the end of an empty list. -/
def lack (c : Char) (total : Nat) : Cursor → List Opening → Option Machine
  | .need .start .first, st =>
    if c = '-' then some (.inside ⟨.need .minus .first, st, total⟩)
    else if c = ')' then
      match st with
      | .call lead product f [] :: st =>
        some (.inside ⟨.done lead (product.apply (.applied f [])), st, total⟩)
      | _ => none
    else none
  | _, _ => none

def State.step (s : State) (c : Char) : Option Machine :=
  if isWord c then (s.cursor.extend? c).map fun cur => .inside { s with cursor := cur }
  else if c = '(' then s.cursor.open?.map fun o => .inside ⟨start, o :: s.openings, s.total⟩
  else if c = '[' then s.cursor.openElement?.map fun o => .inside ⟨start, o :: s.openings, s.total⟩
  else
    match s.cursor.term? with
    | some t => follow c s.openings s.total t
    | none => lack c s.total s.cursor s.openings

def Machine.step : Machine → Char → Option Machine
  | .fresh, c => if c = '[' then some (.inside ⟨start, [.whole], 0⟩) else none
  | .inside s, c => s.step c
  | .closed _ _, _ => none

def Machine.run (m : Machine) (t : Text) : Option Machine := t.foldlM Machine.step m

@[simp] theorem Machine.run_nil (m : Machine) : m.run [] = some m := rfl

@[simp] theorem Machine.run_cons (m : Machine) (c : Char) (t : Text) :
    m.run (c :: t) = (m.step c).bind (·.run t) := rfl

theorem Machine.run_append (m : Machine) (t u : Text) :
    m.run (t ++ u) = (m.run t).bind (·.run u) := by
  rw [run, List.foldlM_append]
  rfl

/-! ### Every written expression is read -/

/-- A mark that ends a factor. -/
def isEnd (c : Char) : Bool := !isWord c && c != '(' && c != '['

def Ends (rest : Text) : Prop := ∃ c t, rest = c :: t ∧ isEnd c = true

theorem ends_cons {c : Char} (t : Text) (h : isEnd c = true) : Ends (c :: t) := ⟨c, t, rfl, h⟩

section Steps
variable {lead : Lead} {product : Product} {st : List Opening} {n : Nat} {w rest : Text}

theorem step_of_end {s : State} {c : Char} (hc : isEnd c = true) :
    s.step c = match s.cursor.term? with
      | some t => follow c s.openings s.total t
      | none => lack c s.total s.cursor s.openings := by
  simp only [isEnd, Bool.and_eq_true, Bool.not_eq_true', bne_iff_ne] at hc
  rw [State.step, if_neg (by simp [hc.1.1]), if_neg hc.1.2, if_neg hc.2]

theorem step_of_term {s : State} {c : Char} {r : Lead × Meaning × Nat} (hc : isEnd c = true)
    (h : s.cursor.term? = some r) : s.step c = follow c s.openings s.total r := by
  rw [step_of_end hc, h]

theorem step_of_lack {s : State} {c : Char} (hc : isEnd c = true) (h : s.cursor.term? = none) :
    s.step c = lack c s.total s.cursor s.openings := by
  rw [step_of_end hc, h]

/-- A word that has ended is as good as its meaning. -/
theorem run_settled {cur : Cursor} {t : Meaning} {k : Nat} (h : cur.term? = some (lead, t, k))
    (hr : Ends rest) :
    (Machine.inside ⟨cur, st, n⟩).run rest = (Machine.inside ⟨.done lead t, st, n + k⟩).run rest := by
  obtain ⟨c, u, rfl, hc⟩ := hr
  have hcur : State.step ⟨cur, st, n⟩ c = follow c st n (lead, t, k) := step_of_term hc h
  have hdone : State.step ⟨.done lead t, st, n + k⟩ c = follow c st (n + k) (lead, t, 0) :=
    step_of_term hc rfl
  rw [Machine.run_cons, Machine.run_cons, Machine.step, Machine.step, hcur, hdone]
  rfl

theorem run_more {v : Text} (hw : ∀ c ∈ w, isWord c = true) :
    (Machine.inside ⟨.word lead product v, st, n⟩).run w =
      some (.inside ⟨.word lead product (v ++ w), st, n⟩) := by
  induction w generalizing v with
  | nil => simp
  | cons c w ih =>
    have hc : isWord c = true := hw c (by simp)
    have hstep : (Machine.inside ⟨.word lead product v, st, n⟩).step c =
        some (.inside ⟨.word lead product (v ++ [c]), st, n⟩) := by
      simp [Machine.step, State.step, Cursor.extend?, hc]
    have hrun := ih (v := v ++ [c]) fun d hd => hw d (by simp [hd])
    rw [Machine.run_cons, hstep, Option.bind_some, hrun, List.append_assoc, List.singleton_append]

theorem run_word (hne : w ≠ []) (hw : ∀ c ∈ w, isWord c = true) :
    (Machine.inside ⟨.need lead product, st, n⟩).run w =
      some (.inside ⟨.word lead product w, st, n⟩) := by
  cases w with
  | nil => exact absurd rfl hne
  | cons c w =>
    have hc : isWord c = true := hw c (by simp)
    have hstep : (Machine.inside ⟨.need lead product, st, n⟩).step c =
        some (.inside ⟨.word lead product [c], st, n⟩) := by
      simp [Machine.step, State.step, Cursor.extend?, hc]
    rw [Machine.run_cons, hstep, Option.bind_some, run_more fun d hd => hw d (by simp [hd])]
    rfl

/-- A whole word is read, and what follows it. -/
theorem run_word_append {m : Meaning} {k : Nat} (hne : w ≠ []) (hw : ∀ c ∈ w, isWord c = true)
    (h : Index.word? w = some (m, k)) (hr : Ends rest) :
    (Machine.inside ⟨.need lead product, st, n⟩).run (w ++ rest) =
      (Machine.inside ⟨.done lead (product.apply m), st, n + k⟩).run rest := by
  have hterm : (Cursor.word lead product w).term? = some (lead, product.apply m, k) := by
    simp [Cursor.term?, h]
  rw [Machine.run_append, run_word hne hw, Option.bind_some, run_settled hterm hr]

theorem run_name_append (f : Name) :
    (Machine.inside ⟨.need lead product, st, n⟩).run (f.1 ++ rest) =
      (Machine.inside ⟨.word lead product f.1, st, n⟩).run rest := by
  rw [Machine.run_append, run_word f.2.mem_word.1 f.2.mem_word.2, Option.bind_some]

theorem word?_digits (d : Literal) : Index.word? d.1 = some (fun _ => (d.1.value : Int), d.1.value) := by
  rw [Index.word?, if_pos d.2]

theorem not_digits_of_name (h : IsName w) : w.isDigits = false := by
  cases hd : w.isDigits with
  | false => rfl
  | true =>
    obtain ⟨hne, hd⟩ := mem_of_isDigits hd
    cases w with
    | nil => exact absurd rfl hne
    | cons c w => simpa [h.start c rfl] using hd c (by simp)

theorem word?_name (w : Name) : Index.word? w.1 = some (fun I => I.name w.1, 0) := by
  rw [Index.word?, not_digits_of_name w.2, if_neg Bool.false_ne_true, if_pos w.2]

@[simp] theorem step_group : (Machine.inside ⟨.need lead product, st, n⟩).step '(' =
    some (.inside ⟨Index.start, .group lead product :: st, n⟩) := rfl

@[simp] theorem step_call (f : Name) : (Machine.inside ⟨.word lead product f.1, st, n⟩).step '(' =
    some (.inside ⟨Index.start, .call lead product f.1 [] :: st, n⟩) := by
  change (Cursor.open? _).map _ = _
  rw [Cursor.open?, if_pos f.2]
  rfl

@[simp] theorem step_element (a : Name) :
    (Machine.inside ⟨.word lead product a.1, st, n⟩).step '[' =
      some (.inside ⟨Index.start, .element lead product a.1 [] :: st, n⟩) := by
  change (Cursor.openElement? _).map _ = _
  rw [Cursor.openElement?, if_pos a.2]
  rfl

theorem close_group {lead' : Lead} {t : Meaning} :
    (Machine.inside ⟨.done lead' t, .group lead product :: st, n⟩).step ')' =
      some (.inside ⟨.done lead (product.apply (lead'.apply t)), st, n⟩) := rfl

@[simp] theorem step_plus {t : Meaning} : (Machine.inside ⟨.done lead t, st, n⟩).step '+' =
    some (.inside ⟨.need (.plus (lead.apply t)) .first, st, n⟩) := rfl

@[simp] theorem step_less {t : Meaning} : (Machine.inside ⟨.done lead t, st, n⟩).step '-' =
    some (.inside ⟨.need (.less (lead.apply t)) .first, st, n⟩) := rfl

@[simp] theorem step_times {t : Meaning} : (Machine.inside ⟨.done lead t, st, n⟩).step '*' =
    some (.inside ⟨.need lead (.times t), st, n⟩) := rfl

@[simp] theorem step_over {t : Meaning} : (Machine.inside ⟨.done lead t, st, n⟩).step '/' =
    some (.inside ⟨.need lead (.divide t), st, n⟩) := rfl

@[simp] theorem step_minus : (Machine.inside ⟨Index.start, st, n⟩).step '-' =
    some (.inside ⟨.need .minus .first, st, n⟩) := rfl

end Steps

/-- What the machine does with a written expression where it may stand. -/
def Tree.Read {part : Part} (e : Tree part) : Prop :=
  match part with
  | .factor => ∀ lead product st n rest, Ends rest →
    (Machine.inside ⟨.need lead product, st, n⟩).run (e.print ++ rest) =
      (Machine.inside ⟨.done lead (product.apply e.meaning), st, n + e.literals⟩).run rest
  | .term => ∀ lead st n rest, Ends rest →
    (Machine.inside ⟨.need lead .first, st, n⟩).run (e.print ++ rest) =
      (Machine.inside ⟨.done lead e.meaning, st, n + e.literals⟩).run rest
  | .expr => ∀ st n rest, Ends rest → ∃ lead t, lead.apply t = e.meaning ∧
    (Machine.inside ⟨start, st, n⟩).run (e.print ++ rest) =
      (Machine.inside ⟨.done lead t, st, n + e.literals⟩).run rest
  | .items => ∀ o : List Meaning → Opening,
    (∀ v n args st, finish ',' v n (o args :: st) = some (.inside ⟨start, o (args ++ [v]) :: st, n⟩)) →
    ∀ st n rest, Ends rest → ∃ args lead t, args ++ [lead.apply t] = e.meaning ∧
      (Machine.inside ⟨start, o [] :: st, n⟩).run (e.print ++ rest) =
        (Machine.inside ⟨.done lead t, o args :: st, n + e.literals⟩).run rest

theorem Tree.read {part : Part} (e : Tree part) : e.Read := by
  induction e with
  | name w =>
    intro lead product st n rest hr
    exact run_word_append w.2.mem_word.1 w.2.mem_word.2 (word?_name w) hr
  | number d =>
    intro lead product st n rest hr
    obtain ⟨hne, hd⟩ := mem_of_isDigits d.2
    exact run_word_append hne (fun c hc => word_of_digit (hd c hc)) (word?_digits d) hr
  | group e ih =>
    intro lead product st n rest hr
    obtain ⟨lead', t, ht, hrun⟩ := ih (.group lead product :: st) n (')' :: rest) (ends_cons _ (by decide))
    have hprint : (Tree.group e).print ++ rest = '(' :: (e.print ++ ')' :: rest) := by simp [print]
    rw [hprint, Machine.run_cons, step_group, Option.bind_some, hrun, Machine.run_cons, close_group, ht]
    rfl
  | thunk f =>
    intro lead product st n rest hr
    have hprint : (Tree.thunk f).print ++ rest = f.1 ++ '(' :: ')' :: rest := by simp [print]
    rw [hprint, run_name_append, Machine.run_cons, step_call, Option.bind_some]
    rfl
  | call f args ih =>
    intro lead product st n rest hr
    obtain ⟨args', lead', t, ht, hrun⟩ := ih (.call lead product f.1) (fun _ _ _ _ => rfl) st n
      (')' :: rest) (ends_cons _ (by decide))
    have hprint : (Tree.call f args).print ++ rest = f.1 ++ '(' :: (args.print ++ ')' :: rest) := by
      simp [print]
    rw [hprint, run_name_append, Machine.run_cons, step_call, Option.bind_some, hrun, meaning, ← ht]
    rfl
  | element a args ih =>
    intro lead product st n rest hr
    obtain ⟨args', lead', t, ht, hrun⟩ := ih (.element lead product a.1) (fun _ _ _ _ => rfl) st n
      (']' :: rest) (ends_cons _ (by decide))
    have hprint : (Tree.element a args).print ++ rest = a.1 ++ '[' :: (args.print ++ ']' :: rest) := by
      simp [print]
    rw [hprint, run_name_append, Machine.run_cons, step_element, Option.bind_some, hrun, meaning, ← ht]
    rfl
  | single f ih =>
    intro lead st n rest hr
    exact ih lead .first st n rest hr
  | mul t f iht ihf | div t f iht ihf =>
    intro lead st n rest hr
    simp only [print, String.reduceToList, List.append_assoc, List.cons_append, List.nil_append]
    refine (iht lead st n _ (ends_cons _ (by decide))).trans ?_
    simp only [Machine.run_cons, step_times, step_over, Option.bind_some]
    rw [ihf lead _ st _ rest hr, Nat.add_assoc]
    rfl
  | plain t ih =>
    intro st n rest hr
    exact ⟨.start, t.meaning, rfl, ih .start st n rest hr⟩
  | neg t ih =>
    intro st n rest hr
    have hprint : (Tree.neg t).print ++ rest = '-' :: (t.print ++ rest) := by simp [print]
    refine ⟨.minus, t.meaning, rfl, ?_⟩
    rw [hprint, Machine.run_cons, step_minus, Option.bind_some, ih .minus st n rest hr]
    rfl
  | add e t ihe iht =>
    intro st n rest hr
    have hprint : (Tree.add e t).print ++ rest = e.print ++ '+' :: (t.print ++ rest) := by simp [print]
    obtain ⟨lead, s, hs, hrun⟩ := ihe st n ('+' :: (t.print ++ rest)) (ends_cons _ (by decide))
    refine ⟨.plus e.meaning, t.meaning, rfl, ?_⟩
    rw [hprint, hrun, Machine.run_cons, step_plus, Option.bind_some, hs, iht _ st _ rest hr,
      Nat.add_assoc]
    rfl
  | sub e t ihe iht =>
    intro st n rest hr
    have hprint : (Tree.sub e t).print ++ rest = e.print ++ '-' :: (t.print ++ rest) := by simp [print]
    obtain ⟨lead, s, hs, hrun⟩ := ihe st n ('-' :: (t.print ++ rest)) (ends_cons _ (by decide))
    refine ⟨.less e.meaning, t.meaning, rfl, ?_⟩
    rw [hprint, hrun, Machine.run_cons, step_less, Option.bind_some, hs, iht _ st _ rest hr,
      Nat.add_assoc]
    rfl
  | one e ih =>
    intro o ho st n rest hr
    obtain ⟨lead, t, ht, hrun⟩ := ih (o [] :: st) n rest hr
    exact ⟨[], lead, t, by rw [ht]; rfl, hrun⟩
  | more args e iha ihe =>
    intro o ho st n rest hr
    have hprint : (Tree.more args e).print ++ rest = args.print ++ ',' :: (e.print ++ rest) := by
      simp [print]
    obtain ⟨args', lead, t, ht, hrun⟩ := iha o ho st n (',' :: (e.print ++ rest))
      (ends_cons _ (by decide))
    have hcomma : (Machine.inside ⟨.done lead t, o args' :: st, n + args.literals⟩).step ',' =
        some (.inside ⟨start, o args.meaning :: st, n + args.literals⟩) := by
      rw [← ht]
      exact ho _ _ _ _
    obtain ⟨lead', t', ht', hrun'⟩ := ihe (o args.meaning :: st) (n + args.literals) rest hr
    refine ⟨args.meaning, lead', t', by rw [ht']; rfl, ?_⟩
    rw [hprint, hrun, Machine.run_cons, hcomma, Option.bind_some, hrun', Nat.add_assoc]
    rfl

/-- The machine reads `t` as an index in brackets of value `m`, whose literals add up to `n`. -/
def Accepts (t : Text) (m : Meaning) (n : Nat) : Prop := Machine.fresh.run t = some (.closed m n)

theorem accepts_print (e : Tree .expr) : Accepts ("[" ++ e.print ++ "]") e.meaning e.literals := by
  obtain ⟨lead, t, ht, hrun⟩ := e.read [.whole] 0 [']'] (ends_cons _ (by decide))
  have hclose : (Machine.inside ⟨.done lead t, [.whole], 0 + e.literals⟩).step ']' =
    some (.closed (lead.apply t) (0 + e.literals)) := rfl
  have hopen : Machine.fresh.step '[' = some (.inside ⟨start, [.whole], 0⟩) := rfl
  have htext : "[" ++ e.print ++ "]" = '[' :: (e.print ++ [']']) := by simp
  rw [Accepts, htext, Machine.run_cons, hopen, Option.bind_some, hrun, Machine.run_cons, hclose, ht,
    Nat.zero_add]
  rfl

/-! ### Nothing else is read -/

def Lead.Writes : Lead → Text → Prop
  | .start, u => u = []
  | .minus, u => u = ['-']
  | .plus s, u => ∃ e : Tree .expr, e.meaning = s ∧ u = e.print ++ ['+']
  | .less s, u => ∃ e : Tree .expr, e.meaning = s ∧ u = e.print ++ ['-']

def Product.Writes : Product → Text → Prop
  | .first, u => u = []
  | .times s, u => ∃ t : Tree .term, t.meaning = s ∧ u = t.print ++ ['*']
  | .divide s, u => ∃ t : Tree .term, t.meaning = s ∧ u = t.print ++ ['/']

/-- The text of an expression up to the factor that is being read. -/
def Place (lead : Lead) (product : Product) (u : Text) : Prop :=
  ∃ v w, u = v ++ w ∧ lead.Writes v ∧ product.Writes w

def Cursor.Writes : Cursor → Text → Prop
  | .need lead product, u => Place lead product u
  | .word lead product w, u =>
    (w ≠ [] ∧ ∀ c ∈ w, isWord c = true) ∧ ∃ v, u = v ++ w ∧ Place lead product v
  | .done lead s, u => ∃ v, ∃ t : Tree .term, u = v ++ t.print ∧ lead.Writes v ∧ t.meaning = s

/-- The text of the arguments before the one that is being read. -/
def WritesArgs (args : List Meaning) (u : Text) : Prop :=
  (args = [] ∧ u = []) ∨ ∃ t : Tree .items, t.meaning = args ∧ u = t.print ++ [',']

/-- The text of an opening behind the text `u` of those around it. -/
def Opening.Writes (u : Text) : Opening → Text → Prop
  | .whole, w => u = [] ∧ w = ['[']
  | .group lead product, w => ∃ v, w = u ++ v ++ ['('] ∧ Place lead product v
  | .call lead product f args, w => IsName f ∧ ∃ v x, w = u ++ v ++ f ++ ['('] ++ x ∧
    Place lead product v ∧ WritesArgs args x
  | .element lead product a args, w => IsName a ∧ ∃ v x, w = u ++ v ++ a ++ ['['] ++ x ∧
    Place lead product v ∧ WritesArgs args x

def WritesOpenings : List Opening → Text → Prop
  | [], u => u = []
  | o :: st, w => ∃ u, WritesOpenings st u ∧ o.Writes u w

/-- The text that the machine has read. -/
def Machine.Writes : Machine → Text → Prop
  | .fresh, t => t = []
  | .inside s, t => ∃ u v, t = u ++ v ∧ WritesOpenings s.openings u ∧ s.cursor.Writes v
  | .closed m _, t => ∃ e : Tree .expr, e.meaning = m ∧ t = ['['] ++ e.print ++ [']']

section Writes
variable {lead : Lead} {product : Product} {st : List Opening} {n : Nat} {c : Char} {u v w : Text}

theorem Product.Writes.factor (h : product.Writes u) (f : Tree .factor) :
    ∃ t : Tree .term, t.print = u ++ f.print ∧ t.meaning = product.apply f.meaning := by
  cases product with
  | first =>
    obtain rfl := h
    exact ⟨.single f, rfl, rfl⟩
  | times s =>
    obtain ⟨t, rfl, rfl⟩ := h
    exact ⟨.mul t f, rfl, rfl⟩
  | divide s =>
    obtain ⟨t, rfl, rfl⟩ := h
    exact ⟨.div t f, rfl, rfl⟩

theorem Lead.Writes.term (h : lead.Writes u) (t : Tree .term) :
    ∃ e : Tree .expr, e.print = u ++ t.print ∧ e.meaning = lead.apply t.meaning := by
  cases lead with
  | start =>
    obtain rfl := h
    exact ⟨.plain t, rfl, rfl⟩
  | minus =>
    obtain rfl := h
    exact ⟨.neg t, rfl, rfl⟩
  | plus s =>
    obtain ⟨e, rfl, rfl⟩ := h
    exact ⟨.add e t, rfl, rfl⟩
  | less s =>
    obtain ⟨e, rfl, rfl⟩ := h
    exact ⟨.sub e t, rfl, rfl⟩

theorem Place.factor (h : Place lead product u) (f : Tree .factor) :
    (Cursor.done lead (product.apply f.meaning)).Writes (u ++ f.print) := by
  obtain ⟨v, w, rfl, hv, hw⟩ := h
  obtain ⟨t, ht, hm⟩ := hw.factor f
  exact ⟨v, t, by rw [ht, List.append_assoc], hv, hm⟩

theorem place_start : Place .start .first [] := ⟨[], [], rfl, rfl, rfl⟩

theorem exists_factor {m : Meaning} {k : Nat} (h : Index.word? w = some (m, k)) :
    ∃ f : Tree .factor, f.print = w ∧ f.meaning = m ∧ f.literals = k := by
  rw [Index.word?] at h
  split at h
  · next hd =>
    cases h
    exact ⟨.number ⟨w, hd⟩, rfl, rfl, rfl⟩
  · split at h
    · next hn =>
      cases h
      exact ⟨.name ⟨w, hn⟩, rfl, rfl, rfl⟩
    · cases h

theorem Cursor.Writes.term {cur : Cursor} {t : Meaning} {k : Nat} (h : cur.Writes u)
    (ht : cur.term? = some (lead, t, k)) : (Cursor.done lead t).Writes u := by
  cases cur with
  | need lead product => cases ht
  | word lead product w =>
    obtain ⟨-, v, rfl, hv⟩ := h
    obtain ⟨⟨m, j⟩, hm, hr⟩ := Option.map_eq_some_iff.1 ht
    obtain ⟨rfl, rfl, -⟩ : lead = _ ∧ product.apply m = t ∧ j = k := by simpa using hr
    obtain ⟨f, rfl, rfl, -⟩ := exists_factor hm
    exact hv.factor f
  | done lead' t' =>
    obtain ⟨rfl, rfl, -⟩ : lead' = lead ∧ t' = t ∧ 0 = k := by simpa [Cursor.term?] using ht
    exact h

theorem exists_expr {t : Meaning} (h : (Cursor.done lead t).Writes u) :
    ∃ e : Tree .expr, e.print = u ∧ e.meaning = lead.apply t := by
  obtain ⟨v, s, rfl, hv, rfl⟩ := h
  exact hv.term s

theorem WritesArgs.append {args : List Meaning} (h : WritesArgs args u) (e : Tree .expr) :
    ∃ t : Tree .items, t.print = u ++ e.print ∧ t.meaning = args ++ [e.meaning] := by
  rcases h with ⟨rfl, rfl⟩ | ⟨t, rfl, rfl⟩
  · exact ⟨.one e, rfl, rfl⟩
  · exact ⟨.more t e, rfl, rfl⟩

theorem finish_writes {t : Meaning} {m : Machine} (hst : WritesOpenings st u)
    (hv : (Cursor.done lead t).Writes v) (h : finish c (lead.apply t) n st = some m) :
    m.Writes (u ++ v ++ [c]) := by
  obtain ⟨e, rfl, he⟩ := exists_expr hv
  rw [← he] at h
  unfold finish at h
  split at h
  · -- a group
    next lead' product' st =>
    obtain ⟨hc, rfl⟩ : c = ')' ∧ _ = m := by simpa using h
    obtain ⟨x, hx, y, rfl, hy⟩ := hst
    refine ⟨x, y ++ (Tree.group e).print, by simp [Tree.print, hc], hx, hy.factor (.group e)⟩
  · -- the arguments of a call
    next lead' product' f args st =>
    obtain ⟨x, hx, hf, y, z, rfl, hy, hz⟩ := hst
    obtain ⟨items, hp, hm⟩ := hz.append e
    split at h
    · next hc =>
      cases h
      rw [← hm]
      refine ⟨x, y ++ (Tree.call ⟨f, hf⟩ items).print, by simp [Tree.print, hc, hp], hx,
        hy.factor (.call ⟨f, hf⟩ items)⟩
    · obtain ⟨rfl, rfl⟩ : c = ',' ∧ _ = m := by simpa using h
      rw [← hm]
      exact ⟨_, [], (List.append_nil _).symm, ⟨x, hx, hf, y, items.print ++ [','], by simp [hp], hy,
        .inr ⟨items, rfl, rfl⟩⟩, place_start⟩
  · -- the subscripts of an element
    next lead' product' a args st =>
    obtain ⟨x, hx, ha, y, z, rfl, hy, hz⟩ := hst
    obtain ⟨items, hp, hm⟩ := hz.append e
    split at h
    · next hc =>
      cases h
      rw [← hm]
      refine ⟨x, y ++ (Tree.element ⟨a, ha⟩ items).print, by simp [Tree.print, hc, hp], hx,
        hy.factor (.element ⟨a, ha⟩ items)⟩
    · obtain ⟨rfl, rfl⟩ : c = ',' ∧ _ = m := by simpa using h
      rw [← hm]
      exact ⟨_, [], (List.append_nil _).symm, ⟨x, hx, ha, y, items.print ++ [','], by simp [hp], hy,
        .inr ⟨items, rfl, rfl⟩⟩, place_start⟩
  · obtain ⟨rfl, rfl⟩ : c = ']' ∧ _ = m := by simpa using h
    obtain ⟨x, hx, rfl, rfl⟩ := hst
    exact ⟨e, rfl, rfl⟩
  · cases h

theorem follow_writes {t : Meaning} {k : Nat} {m : Machine} (hst : WritesOpenings st u)
    (hv : (Cursor.done lead t).Writes v) (h : follow c st n (lead, t, k) = some m) :
    m.Writes (u ++ v ++ [c]) := by
  have htext : u ++ v ++ [c] = u ++ (v ++ [c]) := List.append_assoc _ _ _
  rw [follow] at h
  iterate 2
    split at h
    · next hc =>
      cases h
      obtain ⟨e, rfl, he⟩ := exists_expr hv
      exact ⟨u, _, htext, hst, e.print ++ [c], [], (List.append_nil _).symm, ⟨e, he, by rw [hc]⟩, rfl⟩
  iterate 2
    split at h
    · next hc =>
      cases h
      obtain ⟨x, s, rfl, hx, hs⟩ := hv
      exact ⟨u, _, htext, hst, x, s.print ++ [c], List.append_assoc _ _ _, hx, s, hs, by rw [hc]⟩
  exact finish_writes hst hv h

theorem lack_writes {cur : Cursor} {m : Machine} (hst : WritesOpenings st u) (hv : cur.Writes v)
    (h : lack c n cur st = some m) : m.Writes (u ++ v ++ [c]) := by
  unfold lack at h
  split at h
  · obtain ⟨x, y, rfl, rfl, rfl⟩ := hv
    split at h
    · next hc =>
      cases h
      exact ⟨u, [c], by simp, hst, [c], [], rfl, by rw [hc]; rfl, rfl⟩
    · split at h
      · next hc =>
        split at h
        · next lead product f st =>
          cases h
          obtain ⟨x, hx, hf, y, z, rfl, hy, hz⟩ := hst
          obtain rfl : z = [] := by
            rcases hz with ⟨-, hz⟩ | ⟨t, ht, -⟩
            · exact hz
            · cases t with
              | one e => cases ht
              | more t e => simp [Tree.meaning] at ht
          refine ⟨x, y ++ (Tree.thunk ⟨f, hf⟩).print, by simp [Tree.print, hc], hx,
            hy.factor (.thunk ⟨f, hf⟩)⟩
        · cases h
      · cases h
  · cases h

theorem step_writes {s : State} {m : Machine} (hs : (Machine.inside s).Writes w)
    (h : s.step c = some m) : m.Writes (w ++ [c]) := by
  obtain ⟨u, v, rfl, hst, hv⟩ := hs
  obtain ⟨cur, st, n⟩ := s
  rw [State.step] at h
  split at h
  · next hc =>
    obtain ⟨cur', hcur, rfl⟩ := Option.map_eq_some_iff.1 h
    refine ⟨u, v ++ [c], List.append_assoc _ _ _, hst, ?_⟩
    cases cur with
    | need lead product =>
      cases hcur
      exact ⟨⟨by simp, by simpa using hc⟩, v, rfl, hv⟩
    | word lead product w =>
      cases hcur
      obtain ⟨⟨-, hw⟩, x, rfl, hx⟩ := hv
      refine ⟨⟨by simp, fun d hd => ?_⟩, x, List.append_assoc _ _ _, hx⟩
      rcases List.mem_append.1 hd with hd | hd
      · exact hw d hd
      · rw [List.mem_singleton.1 hd, hc]
    | done lead t => cases hcur
  split at h
  · next hc =>
    obtain ⟨o, ho, rfl⟩ := Option.map_eq_some_iff.1 h
    refine ⟨u ++ v ++ [c], [], (List.append_nil _).symm, ⟨u, hst, ?_⟩, place_start⟩
    cases cur with
    | need lead product =>
      cases ho
      exact ⟨v, by rw [hc], hv⟩
    | word lead product w =>
      obtain ⟨hw, rfl⟩ : IsName w ∧ _ = o := by simpa [Cursor.open?] using ho
      obtain ⟨-, x, rfl, hx⟩ := hv
      exact ⟨hw, x, [], by simp [hc], hx, .inl ⟨rfl, rfl⟩⟩
    | done lead t => cases ho
  split at h
  · next hc =>
    obtain ⟨o, ho, rfl⟩ := Option.map_eq_some_iff.1 h
    refine ⟨u ++ v ++ [c], [], (List.append_nil _).symm, ⟨u, hst, ?_⟩, place_start⟩
    cases cur with
    | word lead product w =>
      obtain ⟨hw, rfl⟩ : IsName w ∧ _ = o := by simpa [Cursor.openElement?] using ho
      obtain ⟨-, x, rfl, hx⟩ := hv
      exact ⟨hw, x, [], by simp [hc], hx, .inl ⟨rfl, rfl⟩⟩
    | need lead product => cases ho
    | done lead t => cases ho
  split at h
  · next r hr =>
    obtain ⟨lead, t, k⟩ := r
    exact follow_writes hst (hv.term hr) h
  · exact lack_writes hst hv h

theorem run_writes {m m' : Machine} (hm : m.Writes u) (h : m.run v = some m') : m'.Writes (u ++ v) := by
  induction v generalizing m u with
  | nil =>
    cases h
    simpa using hm
  | cons c v ih =>
    obtain ⟨next, hstep, hrun⟩ := Option.bind_eq_some_iff.1 h
    have hnext : next.Writes (u ++ [c]) := by
      cases m with
      | fresh =>
        obtain rfl := hm
        obtain ⟨rfl, rfl⟩ : c = '[' ∧ _ = next := by simpa [Machine.step] using hstep
        exact ⟨['['], [], rfl, ⟨[], rfl, rfl, rfl⟩, place_start⟩
      | inside s => exact step_writes hm hstep
      | closed => cases hstep
    simpa using ih hnext hrun

end Writes

/-- What is accepted is a written expression. -/
theorem Accepts.exists_tree {t : Text} {m : Meaning} {n : Nat} (h : Accepts t m n) :
    ∃ e : Tree .expr, t = "[" ++ e.print ++ "]" ∧ e.meaning = m := by
  have hfresh : Machine.fresh.Writes [] := rfl
  obtain ⟨e, he, ht⟩ := run_writes hfresh h
  exact ⟨e, ht, he⟩

theorem Accepts.meaning_eq {m : Meaning} {n : Nat} {e : Tree .expr}
    (h : Accepts ("[" ++ e.print ++ "]") m n) : e.meaning = m := by
  have hr := h.symm.trans (accepts_print e)
  simp only [Option.some.injEq, Machine.closed.injEq] at hr
  exact hr.1.symm

end FixedForm.Index
