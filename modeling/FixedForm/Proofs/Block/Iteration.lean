import FixedForm.Block.Loop
import FixedForm.Proofs.Files.Path
import FixedForm.Proofs.Formula.Integral

/-! The turns of a counted loop.  The header in the output is read as a `for` loop and run: its counter
takes the values from the start to the stop at the distance of the step, as many as the step fits in. -/
namespace FixedForm.Iteration
open Text Formula

/-! ### Running a header -/

/-- In each state formulas have values, and variables can be given values. -/
structure Machine (σ : Type) where
  formula : σ → Integral
  assign : Text → Int → σ → σ
  name_assign : ∀ v x s, (formula (assign v x s)).name v = x

/-- The operators of assignments, with the value that each gives from the old one and the right side. -/
def assignments : List (Text × (Int → Int → Int)) :=
  [("+=", fun old x => old + x), ("-=", fun old x => old - x), ("=", fun _ x => x)]

namespace Machine
variable {σ : Type} (M : Machine σ)

def get (v : Text) (s : σ) : Int := (M.formula s).name v

/-- An assignment, or `++` before a variable. -/
def exec? (t : Text) (s : σ) : Option σ :=
  match after? "++" t.trimStart with
  | some v => some (M.assign v (M.get v s + 1) s)
  | none => do
    let (v, rest) ← t.trimStart.word?
    let (f, e) ← assignments.findSome? fun (symbol, f) => (after? symbol rest.trimStart).map (f, ·)
    let x ← (M.formula s).readOutput e
    some (M.assign v (f (M.get v s) x) s)

def truth? (t : Text) (s : σ) : Option Bool := ((M.formula s).readOutput t).map (· != 0)

/-- A condition, or in parentheses a choice between two. -/
def test? (t : Text) (s : σ) : Option Bool :=
  match splitOn '?' t with
  | [t] => M.truth? t s
  | [c, choices] =>
    match after? "(" c.trimStart, splitOn ':' choices with
    | some c, [yes, no] => do
      let no ← after? ")" no.reverse
      if ← M.truth? c s then M.truth? yes s else M.truth? no.reverse s
    | _, _ => none
  | _ => none

/-- The values that a variable has in the turns of a loop. -/
inductive Turns (v test turn : Text) (body : σ → σ) : σ → List Int → Prop where
  | done {s : σ} (h : M.test? test s = some false) : Turns v test turn body s []
  | next {s s' : σ} {xs : List Int} (h : M.test? test s = some true)
    (hs : M.exec? turn (body s) = some s') (hr : Turns v test turn body s' xs) :
    Turns v test turn body s (M.get v s :: xs)

end Machine

/-- What a `for` header does first, what it tests and what it does after each turn. -/
def forParts? (header : Text) : Option (Text × Text × Text) := do
  let t ← after? "for(" header
  let t ← after? "\x7b)" t.reverse
  match splitOn ';' t.reverse with
  | [start, test, turn] => some (start, test, turn)
  | _ => none

/-- A loop with the header runs from the state `s` and gives `v` the values `xs`. -/
def Machine.Runs {σ : Type} (M : Machine σ) (v header : Text) (body : σ → σ) (s : σ) (xs : List Int) : Prop :=
  ∃ start test turn s', forParts? header = some (start, test, turn) ∧ M.exec? start s = some s' ∧
    M.Turns v test turn body s' xs

/-! ### The values of the counter -/

/-- The number of turns from `a` to `b` at the distance `k`. -/
def trips (a b k : Int) : Nat := ((b - a + k).fdiv k).toNat

def progression (a b k : Int) : List Int := (List.range (trips a b k)).map fun i : Nat => a + i * k

/-- The stop is not passed. -/
def within (a b k : Int) : Bool := if k < 0 then b ≤ a else a ≤ b

section Progression
variable {a b k : Int}

theorem trips_eq (hk : k ≠ 0) : trips a b k = ((b - a).fdiv k + 1).toNat := by
  have h := Int.add_mul_fdiv_right (b - a) 1 hk
  rw [Int.one_mul] at h
  rw [trips, h]

theorem trips_next : trips (a + k) b k = ((b - a).fdiv k).toNat := by
  rw [trips, show b - (a + k) + k = b - a by omega]

theorem fdiv_nonneg_iff (hk : k ≠ 0) : 0 ≤ (b - a).fdiv k ↔ within a b k = true := by
  rcases Int.lt_or_gt_of_ne hk with hneg | hpos
  · rw [within, if_pos hneg, decide_eq_true_iff, ← Int.neg_fdiv_neg]
    constructor
    · intro h
      by_contra hlt
      have := Int.fdiv_neg_of_neg_of_pos (a := -(b - a)) (b := -k) (by omega) (by omega)
      omega
    · exact fun h => Int.fdiv_nonneg (by omega) (by omega)
  · rw [within, if_neg (by omega), decide_eq_true_iff]
    constructor
    · intro h
      by_contra hlt
      have := Int.fdiv_neg_of_neg_of_pos (a := b - a) (by omega) hpos
      omega
    · exact fun h => Int.fdiv_nonneg (by omega) (by omega)

/-- The values start with `a`, unless `a` is beyond the stop. -/
theorem progression_eq (hk : k ≠ 0) :
    progression a b k = if within a b k then a :: progression (a + k) b k else [] := by
  have hdiv := fdiv_nonneg_iff (a := a) (b := b) hk
  split
  · next h =>
    have hnonneg := hdiv.2 h
    have htrips : trips a b k = trips (a + k) b k + 1 := by
      rw [trips_eq hk, trips_next]
      omega
    rw [progression, htrips, List.range_succ_eq_map, List.map_cons, List.map_map, progression]
    congr 1
    · simp
    · refine List.map_congr_left fun i _ => ?_
      rw [Function.comp_apply, Nat.succ_eq_add_one, Int.natCast_add_one, Int.add_mul, Int.one_mul]
      omega
  · next h =>
    have hneg : (b - a).fdiv k < 0 := by
      by_contra hlt
      exact h (hdiv.1 (by omega))
    have htrips : trips a b k = 0 := by
      rw [trips_eq hk]
      omega
    rw [progression, htrips]
    rfl

end Progression

/-- In the states `P`, a header tests whether `v` is within the stop and then moves `v` by `k`. -/
structure Machine.Counts {σ : Type} (M : Machine σ) (v test turn : Text) (P : σ → Prop) (b k : Int) : Prop where
  test_eq : ∀ s, P s → M.test? test s = some (within (M.get v s) b k)
  turn_eq : ∀ s, P s → M.exec? turn s = some (M.assign v (M.get v s + k) s)

section Counts
variable {σ : Type} {M : Machine σ} {v test turn : Text} {P : σ → Prop} {b k : Int} {body : σ → σ} {s : σ}

theorem turns_of_beyond (ht : M.test? test s = some false) (xs : List Int) :
    M.Turns v test turn body s xs ↔ xs = [] := by
  constructor
  · intro h
    cases h with
    | done => rfl
    | next h => simp [ht] at h
  · rintro rfl
    exact .done ht

theorem turns_of_within {s' : σ} (ht : M.test? test s = some true) (he : M.exec? turn (body s) = some s')
    (xs : List Int) : M.Turns v test turn body s xs ↔
      ∃ ys, xs = M.get v s :: ys ∧ M.Turns v test turn body s' ys := by
  constructor
  · intro h
    cases h with
    | done h => simp [ht] at h
    | next h hs hr =>
      obtain rfl := Option.some.inj (he.symm.trans hs)
      exact ⟨_, rfl, hr⟩
  · rintro ⟨ys, rfl, hr⟩
    exact .next ht he hr

/-- Such a loop ends, and its values are those of the progression. -/
theorem Machine.Counts.turns_iff (h : M.Counts v test turn P b k) (hk : k ≠ 0)
    (hbody : ∀ s, P s → P (body s) ∧ M.get v (body s) = M.get v s)
    (hassign : ∀ s x, P s → P (M.assign v x s)) (hs : P s) (xs : List Int) :
    M.Turns v test turn body s xs ↔ xs = progression (M.get v s) b k := by
  -- the values that are left get fewer with each turn
  induction hp : progression (M.get v s) b k generalizing s xs with
  | nil =>
    rw [progression_eq hk] at hp
    split at hp
    · cases hp
    · next hw => exact turns_of_beyond (by rw [h.test_eq s hs, Bool.not_eq_true _ |>.mp hw]) xs
  | cons x rest ih =>
    rw [progression_eq hk] at hp
    split at hp
    · next hw =>
      obtain ⟨rfl, rfl⟩ := List.cons.inj hp
      obtain ⟨hb, hget⟩ := hbody s hs
      have hturn := h.turn_eq (body s) hb
      rw [hget] at hturn
      have hnext : M.get v (M.assign v (M.get v s + k) (body s)) = M.get v s + k := M.name_assign _ _ _
      rw [turns_of_within (by rw [h.test_eq s hs, hw]) hturn]
      have hrest (ys : List Int) := ih (hassign _ _ hb) ys (by rw [hnext])
      constructor
      · rintro ⟨ys, rfl, hr⟩
        rw [(hrest ys).1 hr]
      · rintro rfl
        exact ⟨_, rfl, (hrest _).2 rfl⟩
    · cases hp

end Counts

/-! ### Bounds as they are written -/

/-- An arithmetic expression of the output, with blanks around it. -/
structure Bound where
  text : Text
  expr : Tree .expr
  trim_text : text.trim = expr.print
  powerless : .power ∉ expr.tokens

def Sign.apply : Sign → Nat → Int
  | .plus, n => n
  | .minus, n => -n

/-- A number below `2^53`, with a sign or without. -/
structure Literal where
  text : Text
  sign : Option Sign
  gap : Text
  digits : Text
  trim_text : text.trim = (sign.map Sign.text).getD [] ++ gap ++ digits
  blank : gap.allBlank = true
  isDigits : digits.isDigits = true
  small : digits.value < Nat.pow 2 53

def Literal.value (l : Literal) : Int := Sign.apply (l.sign.getD .plus) l.digits.value

def compare (t : Text) (r : Relation) (u : Text) : Text := t ++ (Word.relation r).text ++ u

def update (v symbol e : Text) : Text := v ++ " " ++ symbol ++ " " ++ e

def parens (t : Text) : Text := "(" ++ t ++ ")"

def choice (c yes no : Text) : Text := parens (parens c ++ " ? " ++ parens yes ++ " : " ++ parens no)

/-- The distance of the values of a counter: none is written, or a number, or an expression. -/
inductive Stride where
  | one
  | literal (l : Literal)
  | formula (b : Bound) (h : literalStep? b.expr.print = none)

namespace Stride

def texts : Stride → List Text
  | .one => []
  | .literal l => [l.text]
  | .formula b _ => [b.text]

def value (A : Integral) : Stride → Int
  | .one => 1
  | .literal l => l.value
  | .formula b _ => b.expr.value A.toAlgebra

/-- What the header tests, by the counter and the stop. -/
def test (v stop : Text) : Stride → Text
  | .one => compare v .le stop
  | .literal l => compare v (if l.value < 0 then .ge else .le) stop
  | .formula b _ => choice (compare b.expr.print .lt "0") (compare v .ge stop) (compare v .le stop)

/-- What the header does after each turn. -/
def turn (v : Text) : Stride → Text
  | .one => "++" ++ v
  | .literal l => update v (if l.value < 0 then "-=" else "+=") (Nat.toDigits 10 l.value.natAbs)
  | .formula b _ => update v "+=" b.expr.print

end Stride

theorem Literal.natAbs_value (l : Literal) : l.value.natAbs = l.digits.value := by
  rw [value]
  cases l.sign.getD .plus with
  | plus => rfl
  | minus => exact Int.natAbs_neg _

theorem Literal.literalStep_eq (l : Literal) : literalStep? l.text.trim = some (.finite l.value) := by
  have hstart : StartsOutside isBlank l.digits := by
    intro c hc
    exact not_blank_of_word (word_of_digit ((mem_of_isDigits l.isDigits).2 c (List.mem_of_mem_head? hc)))
  have htrim : trimStart (l.gap ++ l.digits) = l.digits := trimStart_run l.blank hstart
  have hcount : Count.ofDigits l.digits = .finite l.digits.value := Count.ofInt_of_lt l.small
  have hdigits := l.isDigits
  rw [l.trim_text, value]
  cases l.sign with
  | some s =>
    cases s with
    | plus =>
      change (if Text.isDigits (trimStart (l.gap ++ l.digits)) then
        some (Count.ofDigits (trimStart (l.gap ++ l.digits))) else none) = _
      rw [htrim, if_pos hdigits, hcount]
      rfl
    | minus =>
      change (if Text.isDigits (trimStart (l.gap ++ l.digits)) then
        some (Count.ofDigits (trimStart (l.gap ++ l.digits))) else none).map Count.neg = _
      rw [htrim, if_pos hdigits, hcount]
      rfl
  | none =>
    have hfree {c : Char} {t : Text} (he : l.gap ++ l.digits = c :: t) : isBlank c = true ∨ c.isDigit = true := by
      have hc : c ∈ l.gap ++ l.digits := by simp [he]
      exact (List.mem_append.1 hc).imp (mem_of_allBlank l.blank c) ((mem_of_isDigits hdigits).2 c)
    change literalStep? (l.gap ++ l.digits) = _
    rw [literalStep?]
    · rw [htrim]
      exact (if_pos hdigits).trans (congrArg some hcount)
    iterate 2 exact fun t he => absurd (hfree he) (by decide)

theorem count_render {n : Int} (h : n.natAbs < Nat.pow 2 Count.precision) :
    (if n < 0 then (Count.finite n).abs.render else (Count.finite n).render) = Nat.toDigits 10 n.natAbs := by
  split
  · next hneg =>
    have habs : (Count.finite n).abs = .finite (-n) := if_pos (decide_eq_true hneg)
    rw [habs, Count.render_of_lt (by rwa [Int.natAbs_neg]), if_neg (by omega), List.nil_append, Int.natAbs_neg]
  · next hneg => rw [Count.render_of_lt h, if_neg hneg, List.nil_append]

/-- The header of a loop, part by part. -/
theorem render_eq (v : Text) (start stop : Bound) (stride : Stride) :
    renderCountedLoop v (start.text :: stop.text :: stride.texts) =
      some ("for(" ++ update v "=" start.expr.print ++ ";" ++ (" " ++ stride.test v stop.expr.print) ++ ";" ++
        (" " ++ stride.turn v) ++ ")\x7b") := by
  have hassign : " = ".toList = " ".toList ++ ("=".toList ++ " ".toList) := by decide
  have hnext : "; ".toList = ";".toList ++ " ".toList := by decide
  have hle : " <= ".toList = (Word.relation .le).text := by decide
  have hge : " >= ".toList = (Word.relation .ge).text := by decide
  have hplus : " += ".toList = " ".toList ++ ("+=".toList ++ " ".toList) := by decide
  have hminus : " -= ".toList = " ".toList ++ ("-=".toList ++ " ".toList) := by decide
  cases stride with
  | one =>
    have hturn : "; ++".toList = ";".toList ++ (" ".toList ++ "++".toList) := by decide
    simp only [renderCountedLoop, Stride.texts, List.map_cons, List.map_nil, start.trim_text, stop.trim_text,
      Stride.test, Stride.turn, compare, update, hassign, hnext, hle, hturn, List.append_assoc]
  | literal l =>
    have hrender := count_render (n := l.value) (by rw [l.natAbs_value]; exact l.small)
    simp only [renderCountedLoop, Stride.texts, List.map_cons, List.map_nil, start.trim_text, stop.trim_text,
      l.literalStep_eq, Count.isNegative, Stride.test, Stride.turn, compare, update, hassign, hnext, hle, hge,
      hplus, hminus, List.append_assoc]
    by_cases hneg : l.value < 0
    · rw [if_pos hneg] at hrender
      simp only [hneg, hrender, decide_true, if_true]
    · rw [if_neg hneg] at hrender
      simp only [hneg, hrender, decide_false, Bool.false_eq_true, if_false]
  | formula b h =>
    have hopen : "((".toList = "(".toList ++ "(".toList := by decide
    have htest : " < 0) ? (".toList =
        (Word.relation .lt).text ++ ("0".toList ++ (")".toList ++ (" ? ".toList ++ "(".toList))) := by decide
    have helse : ") : (".toList = ")".toList ++ (" : ".toList ++ "(".toList) := by decide
    have hend : ")); ".toList = ")".toList ++ (")".toList ++ (";".toList ++ " ".toList)) := by decide
    simp only [renderCountedLoop, Stride.texts, List.map_cons, List.map_nil, start.trim_text, stop.trim_text,
      b.trim_text, h, Stride.test, Stride.turn, compare, update, choice, parens, hassign, hnext, hle, hge, hplus,
      hopen, htest, helse, hend, List.append_assoc]

theorem forParts?_eq {start test turn : Text} (h₁ : ';' ∉ start) (h₂ : ';' ∉ test) (h₃ : ';' ∉ turn) :
    forParts? ("for(" ++ start ++ ";" ++ test ++ ";" ++ turn ++ ")\x7b") = some (start, test, turn) := by
  have hopen : "for(" ++ start ++ ";" ++ test ++ ";" ++ turn ++ ")\x7b" =
      "for(".toList ++ (start ++ ';' :: (test ++ ';' :: turn) ++ ")\x7b".toList) := by simp
  have hclose : (start ++ ';' :: (test ++ ';' :: turn) ++ ")\x7b".toList).reverse =
      "\x7b)".toList ++ (start ++ ';' :: (test ++ ';' :: turn)).reverse := by simp
  have hparts : splitOn ';' (start ++ ';' :: (test ++ ';' :: turn)) = [start, test, turn] := by
    rw [splitOn_append h₁, splitOn_append h₂, splitOn_of_not_mem h₃]
  rw [forParts?, hopen, after?_append]
  simp only [Option.bind_eq_bind, Option.bind_some, hclose, after?_append, List.reverse_reverse, hparts]

/-! ### Reading the parts -/

section Parts
variable {σ : Type} (M : Machine σ) (s : σ) (v : Name)

/-- A mark between the parts of a header. -/
def isDivider (c : Char) : Bool := c == ';' || c == '?' || c == ':'

theorem not_divider_of_printed {c : Char} (h : IsPrinted c) : isDivider c = false := by
  cases hd : isDivider c with
  | false => rfl
  | true =>
    simp only [isDivider, Bool.or_eq_true, beq_iff_eq] at hd
    rcases hd with (rfl | rfl) | rfl <;> exact absurd h (by unfold IsPrinted; decide)

theorem readOutput_spaced (A : Integral) {e : Tree .expr} (he : .power ∉ e.tokens) :
    A.readOutput (' ' :: e.print) = some (e.value A.toAlgebra) := by
  have h := (Tree.denotes A.toArithmetic he).around ⟨.space, .none⟩ |>.readOutput
  rwa [Pad.around, Gap.none, List.append_nil] at h

theorem findSome?_assignments {symbol : Text} {f : Int → Int → Int} (hf : (symbol, f) ∈ assignments) (e : Text) :
    assignments.findSome? (fun (w, f) => (after? w (symbol ++ e)).map (f, ·)) = some (f, e) := by
  simp only [assignments, List.mem_cons, Prod.mk.injEq, List.not_mem_nil, or_false] at hf
  rcases hf with ⟨rfl, rfl⟩ | ⟨rfl, rfl⟩ | ⟨rfl, rfl⟩ <;> simp [assignments, List.findSome?, after?]

theorem outside_assignment {symbol : Text} {f : Int → Int → Int} (hf : (symbol, f) ∈ assignments) (e : Text) :
    StartsOutside isBlank (symbol ++ e) := by
  simp only [assignments, List.mem_cons, Prod.mk.injEq, List.not_mem_nil, or_false] at hf
  rcases hf with ⟨rfl, -⟩ | ⟨rfl, -⟩ | ⟨rfl, -⟩ <;> exact .cons (by decide)

theorem exec?_update {symbol : Text} {f : Int → Int → Int} (hf : (symbol, f) ∈ assignments) {g : Text}
    (hg : g.allBlank = true) {e : Tree .expr} (he : .power ∉ e.tokens) :
    M.exec? (g ++ update v.1 symbol e.print) s =
      some (M.assign v.1 (f (M.get v.1 s) (e.value (M.formula s).toAlgebra)) s) := by
  obtain ⟨c, u, hv, hc, -⟩ := v.2.startsName []
  rw [List.append_nil] at hv
  have hplus : c ≠ '+' := by
    rintro rfl
    exact absurd hc (by decide)
  have htext : update v.1 symbol e.print = v.1 ++ (" ".toList ++ (symbol ++ ' ' :: e.print)) := by
    simp [update]
  have htrim : trimStart (g ++ update v.1 symbol e.print) = update v.1 symbol e.print := by
    refine trimStart_run hg ?_
    rw [htext, hv]
    exact .cons (not_blank_of_word hc)
  have hnone : after? "++" (update v.1 symbol e.print) = none := by
    rw [htext, hv]
    simp [after?, hplus]
  have hword : word? (update v.1 symbol e.print) = some (v.1, " ".toList ++ (symbol ++ ' ' :: e.print)) := by
    rw [htext]
    exact word?_run v.2.mem_word.2 v.2.mem_word.1 (.cons (by decide))
  have hrest : trimStart (" ".toList ++ (symbol ++ ' ' :: e.print)) = symbol ++ ' ' :: e.print :=
    trimStart_run (by decide) (outside_assignment hf _)
  simp only [Machine.exec?, htrim, hnone, hword, hrest, Option.bind_eq_bind, Option.bind_some,
    findSome?_assignments hf, readOutput_spaced _ he]

theorem exec?_increment : M.exec? (" " ++ ("++" ++ v.1)) s = some (M.assign v.1 (M.get v.1 s + 1) s) := by
  have htrim : trimStart (" " ++ ("++" ++ v.1)) = "++" ++ v.1 := trimStart_run (by decide) (.cons (by decide))
  simp only [Machine.exec?, htrim, after?_append]

theorem denotes_compare (A : Integral) {a b : Tree .expr} (ha : .power ∉ a.tokens) (hb : .power ∉ b.tokens)
    (r : Relation) : ∃ l, 1 ≤ l ∧ Denotes false A.toAlgebra l (compare a.print r b.print)
      (integerLogic.holds r (a.value A.toAlgebra) (b.value A.toAlgebra)).toInt := by
  obtain ⟨l, hl, hlow, hhigh⟩ := r.level_symbol
  have h := Denotes.binary hl (by omega) r.mem_symbols ⟨.space, .space⟩
    ((Tree.denotes_sum A.toArithmetic ha).tighter (by omega))
    ((Tree.denotes_sum A.toArithmetic hb).tighter (by omega))
  rw [A.binary_relation] at h
  exact ⟨l, by omega, h⟩

theorem truth?_of_denotes {M : Machine σ} {s : σ} {l : Nat} {t : Text} {b : Bool}
    (h : Denotes false (M.formula s).toAlgebra l t b.toInt) (p : Pad) : M.truth? (p.around t) s = some b := by
  rw [Machine.truth?, (h.around p).readOutput, Option.map_some, toInt_bne_zero]

theorem divider_compare {c : Char} (hc : isDivider c = true) (a b : Tree .expr) (r : Relation) :
    c ∉ compare a.print r b.print := by
  intro hm
  rw [compare, List.mem_append, List.mem_append] at hm
  have hfree : isDivider c = false := by
    rcases hm with (hm | hm) | hm
    · exact not_divider_of_printed (a.mem_print c hm)
    · have htext : ((Word.relation r).text.all fun c => !isDivider c) = true := by cases r <;> decide
      simpa using List.all_eq_true.1 htext c hm
    · exact not_divider_of_printed (b.mem_print c hm)
  exact Bool.noConfusion (hc.symm.trans hfree)

theorem test?_compare {a b : Tree .expr} (ha : .power ∉ a.tokens) (hb : .power ∉ b.tokens) (r : Relation) :
    M.test? (" " ++ compare a.print r b.print) s =
      some (integerLogic.holds r (a.value (M.formula s).toAlgebra) (b.value (M.formula s).toAlgebra)) := by
  obtain ⟨l, -, h⟩ := denotes_compare (M.formula s) ha hb r
  have hone : splitOn '?' (" " ++ compare a.print r b.print) = [" " ++ compare a.print r b.print] :=
    splitOn_of_not_mem (by simpa using divider_compare rfl a b r)
  have hpad := truth?_of_denotes h ⟨.space, .none⟩
  rw [Pad.around, Gap.none, List.append_nil] at hpad
  rw [Machine.test?, hone]
  exact hpad

/-- A choice takes one of the sides by its condition. -/
theorem test?_choice {c yes no : Text} (hc : ∀ d, isDivider d = true → d ∉ c)
    (hyes : ∀ d, isDivider d = true → d ∉ yes) (hno : ∀ d, isDivider d = true → d ∉ no) :
    M.test? (" " ++ choice c yes no) s = (M.truth? ("(" ++ c ++ ")" ++ " ") s).bind fun b =>
      if b then M.truth? (" " ++ ("(" ++ yes ++ ")") ++ " ") s else M.truth? (" " ++ ("(" ++ no ++ ")")) s := by
  have htext : " " ++ choice c yes no =
      (" ((" ++ c ++ ") ") ++ '?' :: ((" (" ++ yes ++ ") ") ++ ':' :: (" (" ++ no ++ "))")) := by
    simp [choice, parens]
  have hparts : splitOn '?' (" " ++ choice c yes no) =
      [" ((" ++ c ++ ") ", (" (" ++ yes ++ ") ") ++ ':' :: (" (" ++ no ++ "))")] := by
    rw [htext, splitOn_append (by simp [hc '?' rfl]),
      splitOn_of_not_mem (by simp [hyes '?' rfl, hno '?' rfl])]
  have hsides : splitOn ':' ((" (" ++ yes ++ ") ") ++ ':' :: (" (" ++ no ++ "))")) =
      [" (" ++ yes ++ ") ", " (" ++ no ++ "))"] := by
    rw [splitOn_append (by simp [hyes ':' rfl]), splitOn_of_not_mem (by simp [hno ':' rfl])]
  have hopen : after? "(" (trimStart (" ((" ++ c ++ ") ")) = some ("(" ++ c ++ ")" ++ " ") := by
    have hspace : " ((" ++ c ++ ") " = " ".toList ++ '(' :: ("(" ++ c ++ ")" ++ " ") := by simp
    rw [hspace, trimStart_run (by decide) (.cons (by decide))]
    rfl
  have hclose : after? ")" (" (" ++ no ++ "))").reverse = some (" " ++ ("(" ++ no ++ ")")).reverse := by
    simp [after?]
  have hpad : " (" ++ yes ++ ") " = " " ++ ("(" ++ yes ++ ")") ++ " " := by simp
  rw [Machine.test?, hparts]
  simp only [hopen, hsides, hclose, Option.bind_eq_bind, Option.bind_some, List.reverse_reverse]
  rw [hpad]

theorem test?_direction {step stop : Tree .expr} (hs : .power ∉ step.tokens) (ht : .power ∉ stop.tokens) :
    M.test? (" " ++ choice (compare step.print .lt "0") (compare v.1 .ge stop.print) (compare v.1 .le stop.print)) s =
      some (within (M.get v.1 s) (stop.value (M.formula s).toAlgebra) (step.value (M.formula s).toAlgebra)) := by
  obtain ⟨l₁, h₁, hstep⟩ := denotes_compare (M.formula s) hs (powerless_decimal 0) .lt
  obtain ⟨l₂, h₂, hdown⟩ := denotes_compare (M.formula s) (powerless_name v) ht .ge
  obtain ⟨l₃, h₃, hup⟩ := denotes_compare (M.formula s) (powerless_name v) ht .le
  have hzero : (decimal 0).print = "0".toList := by decide
  have htest := truth?_of_denotes (hstep.parens h₁) ⟨.none, .space⟩
  have hyes := truth?_of_denotes (hdown.parens h₂) ⟨.space, .space⟩
  have hno := truth?_of_denotes (hup.parens h₃) ⟨.space, .none⟩
  rw [hzero, value_decimal, Pad.around, Gap.none, List.nil_append] at htest
  rw [Pad.around] at hyes
  rw [Pad.around, Gap.none, List.append_nil] at hno
  have hfree (d : Char) (hd : isDivider d = true) : d ∉ compare step.print .lt "0" :=
    hzero ▸ divider_compare hd step (decimal 0) .lt
  refine (test?_choice M s hfree (fun d hd => divider_compare hd (.name v) stop .ge)
    (fun d hd => divider_compare hd (.name v) stop .le)).trans ?_
  refine (congrArg (Option.bind · _) htest).trans ?_
  rw [Option.bind_some, within]
  by_cases hneg : step.value (M.formula s).toAlgebra < 0
  · rw [if_pos hneg]
    refine (if_pos (decide_eq_true hneg)).trans hyes
  · rw [if_neg hneg]
    exact (if_neg (by simpa [integerLogic] using hneg)).trans hno

end Parts

/-- The header of each form moves the counter by the step as long as the stop is not passed. -/
theorem Stride.counts {σ : Type} {M : Machine σ} (v : Name) {stop : Tree .expr} (ht : .power ∉ stop.tokens)
    (stride : Stride) {P : σ → Prop} {b k : Int} (hstop : ∀ s, P s → stop.value (M.formula s).toAlgebra = b)
    (hstride : ∀ s, P s → stride.value (M.formula s) = k) :
    M.Counts v.1 (" " ++ stride.test v.1 stop.print) (" " ++ stride.turn v.1) P b k := by
  have hadd : ("+=".toList, fun old x : Int => old + x) ∈ assignments := by simp [assignments]
  have hsub : ("-=".toList, fun old x : Int => old - x) ∈ assignments := by simp [assignments]
  cases stride with
  | one =>
    refine ⟨fun s hs => ?_, fun s hs => ?_⟩
    · rw [← hstop s hs, ← hstride s hs]
      exact test?_compare M s (powerless_name v) ht .le
    · rw [← hstride s hs]
      exact exec?_increment M s v
  | literal l =>
    have hvalue (s : σ) : (Stride.literal l).value (M.formula s) = l.value := rfl
    have hdigits {symbol : Text} {f : Int → Int → Int} (hf : (symbol, f) ∈ assignments) (s : σ) :
        M.exec? (" " ++ update v.1 symbol (Nat.toDigits 10 l.value.natAbs)) s =
          some (M.assign v.1 (f (M.get v.1 s) l.value.natAbs) s) := by
      rw [← print_decimal, ← value_decimal (M.formula s)]
      exact exec?_update M s v hf (by decide) (powerless_decimal l.value.natAbs)
    by_cases hneg : l.value < 0
    · refine ⟨fun s hs => ?_, fun s hs => ?_⟩
      · rw [← hstop s hs, ← hstride s hs, hvalue, test, if_pos hneg, within, if_pos hneg]
        exact test?_compare M s (powerless_name v) ht .ge
      · rw [← hstride s hs, hvalue, turn, if_pos hneg, hdigits hsub]
        congr 2
        omega
    · refine ⟨fun s hs => ?_, fun s hs => ?_⟩
      · rw [← hstop s hs, ← hstride s hs, hvalue, test, if_neg hneg, within, if_neg hneg]
        exact test?_compare M s (powerless_name v) ht .le
      · rw [← hstride s hs, hvalue, turn, if_neg hneg, hdigits hadd]
        congr 2
        omega
  | formula step h =>
    refine ⟨fun s hs => ?_, fun s hs => ?_⟩
    · rw [← hstop s hs, ← hstride s hs]
      exact test?_direction M s v step.powerless ht
    · rw [← hstride s hs]
      exact exec?_update M s v hadd (by decide) step.powerless

section Header
variable (v : Name)

theorem semicolon_update {symbol : Text} (hs : ';' ∉ symbol) (e : Tree .expr) :
    ';' ∉ update v.1 symbol e.print := by
  have hv : ';' ∉ v.1 := fun h => absurd (v.2.mem_word.2 _ h) (by decide)
  have he : ';' ∉ e.print := fun h => Bool.noConfusion (not_divider_of_printed (e.mem_print _ h))
  simp [update, hv, hs, he]

theorem semicolon_test (stride : Stride) (stop : Tree .expr) : ';' ∉ stride.test v.1 stop.print := by
  have hcompare (a b : Tree .expr) (r : Relation) : ';' ∉ compare a.print r b.print := divider_compare rfl a b r
  cases stride with
  | one => exact hcompare (.name v) stop .le
  | literal l => exact hcompare (.name v) stop _
  | formula step h =>
    have hstep := hcompare step.expr (decimal 0) .lt
    have hdown := hcompare (.name v) stop .ge
    have hup := hcompare (.name v) stop .le
    have hzero : (decimal 0).print = ['0'] := by decide
    rw [hzero] at hstep
    rw [Tree.print] at hdown hup
    simp [Stride.test, choice, parens, hstep, hdown, hup]

theorem semicolon_turn (stride : Stride) : ';' ∉ stride.turn v.1 := by
  cases stride with
  | one =>
    have hv : ';' ∉ v.1 := fun h => absurd (v.2.mem_word.2 _ h) (by decide)
    simp [Stride.turn, hv]
  | literal l =>
    rw [Stride.turn, ← print_decimal]
    exact semicolon_update v (by split <;> decide) _
  | formula step h => exact semicolon_update v (by decide) step.expr

end Header

/-- The header of a counted loop runs its turns: in states in which the stop and the step keep their values,
and with a body that keeps the counter, the loop ends and the counter takes the values
`a, a + k, …, a + (t - 1) * k`, where `t` is the number of times that `k` fits into the way from `a` to `b`. -/
theorem header_runs_iterations {σ : Type} (M : Machine σ) (v : Name) (start stop : Bound) (stride : Stride)
    (body : σ → σ) (s : σ) (P : σ → Prop) (a b k : Int) (hk : k ≠ 0)
    (hstart : start.expr.value (M.formula s).toAlgebra = a) (hs : P (M.assign v.1 a s))
    (hassign : ∀ s x, P s → P (M.assign v.1 x s))
    (hbody : ∀ s, P s → P (body s) ∧ M.get v.1 (body s) = M.get v.1 s)
    (hstop : ∀ s, P s → stop.expr.value (M.formula s).toAlgebra = b)
    (hstride : ∀ s, P s → stride.value (M.formula s) = k) :
    ∃ header, renderCountedLoop v.1 (start.text :: stop.text :: stride.texts) = some header ∧
      ∀ xs, M.Runs v.1 header body s xs ↔
        xs = (List.range ((b - a + k).fdiv k).toNat).map fun i : Nat => a + i * k := by
  have hcounts := stride.counts v stop.powerless hstop hstride
  have htest : ';' ∉ " " ++ stride.test v.1 stop.expr.print := by simp [semicolon_test]
  have hturn : ';' ∉ " " ++ stride.turn v.1 := by simp [semicolon_turn]
  have hset : ';' ∉ update v.1 "=" start.expr.print := semicolon_update v (by decide) start.expr
  have hparts := forParts?_eq hset htest hturn
  have hfirst : M.exec? (update v.1 "=" start.expr.print) s = some (M.assign v.1 a s) := by
    have hplain : ("=".toList, fun _ x : Int => x) ∈ assignments := by simp [assignments]
    have h := exec?_update M s v hplain (g := []) rfl start.powerless
    rwa [hstart] at h
  have hget : M.get v.1 (M.assign v.1 a s) = a := M.name_assign v.1 a s
  refine ⟨_, render_eq v.1 start stop stride, fun xs => ?_⟩
  have hturns := hcounts.turns_iff hk hbody hassign hs xs
  rw [hget] at hturns
  rw [Machine.Runs, hparts]
  constructor
  · rintro ⟨start', test, turn, s', he, hs', h⟩
    obtain ⟨rfl, rfl, rfl⟩ : _ = start' ∧ _ = test ∧ _ = turn := by simpa using he
    obtain rfl := Option.some.inj (hfirst.symm.trans hs')
    exact hturns.1 h
  · intro h
    exact ⟨_, _, _, _, rfl, hfirst, hturns.2 h⟩

/-- States are the values of the variables. -/
def store : Machine (Text → Int) where
  formula := valued
  assign v x s := fun w => if w = v then x else s w
  name_assign _ _ _ := if_pos rfl

theorem countdown_runs : ∃ header, renderCountedLoop "i" [" 10", "n - 2 ", " -k"] = some header ∧
    ∀ xs, store.Runs "i" header (fun s w => if w = "x" then s w + s "i" else s w)
      (fun w => if w = "n" ∨ w = "k" then 3 else 0) xs ↔ xs = [10, 7, 4, 1] := by
  let i : Name := ⟨"i", by decide⟩
  let n : Name := ⟨"n", by decide⟩
  let k : Name := ⟨"k", by decide⟩
  let start : Bound := ⟨" 10", decimal 10, by decide, by decide⟩
  let stop : Bound := ⟨"n - 2 ", .binary .sub ⟨.space, .space⟩ (.name n) (decimal 2), by decide,
    by decide⟩
  let step : Bound := ⟨" -k", .sign .minus .none (.name k), by decide, by decide⟩
  have hstop (s : Text → Int) (hn : s "n" = 3) : stop.expr.value (valued s).toAlgebra = 1 := by
    refine ((valued s).binary_sub (s "n") ((decimal 2).value (valued s).toAlgebra)).trans ?_
    rw [value_decimal, hn]
    rfl
  have hstep (s : Text → Int) (hk : s "k" = 3) : step.expr.value (valued s).toAlgebra = -3 :=
    congrArg Int.neg hk
  exact header_runs_iterations store i start stop (.formula step (by decide))
    (fun s w => if w = "x" then s w + s "i" else s w) (fun w => if w = "n" ∨ w = "k" then 3 else 0)
    (fun s => s "n" = 3 ∧ s "k" = 3) 10 1 (-3) (by decide) (value_decimal _ 10) ⟨rfl, rfl⟩
    (fun _ _ h => h) (fun _ h => ⟨h, rfl⟩) (fun s h => hstop s h.1) (fun s h => hstep s h.2)

end FixedForm.Iteration
