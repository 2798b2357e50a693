import FixedForm.Proofs.Formula.Integral
import FixedForm.Proofs.Reference.Index
import FixedForm.Proofs.Text.Pieces

/-! Numbers in an index.  Where none has a needless zero in front, the output reads the index with the value
that it has in decimal. -/
namespace FixedForm.Index
open Text Formula

/-! ### Zeros in front of numbers -/

/-- No number in the text has a needless zero in front. -/
def Unled (t : Text) : Prop := ∀ w ∈ words t, isDigits w = true → Nat.toDigits 10 (value w) = w

section Unled
variable {t u w : Text} {c : Char}

theorem unled_mark (hc : isWord c = false) : Unled (t ++ c :: u) ↔ Unled t ∧ Unled u := by
  rw [Unled, words_append_mark hc, List.forall_mem_append]
  rfl

theorem unled_cons (hc : isWord c = false) : Unled (c :: u) ↔ Unled u := by
  rw [Unled, words_mark hc]
  rfl

theorem unled_nil : Unled [] := by
  simp [Unled, words, pieces]

/-- No word goes from one text into the other. -/
theorem unled_append (h : StartsOutside isWord t.reverse ∨ StartsOutside isWord u) :
    Unled (t ++ u) ↔ Unled t ∧ Unled u := by
  rcases h with h | h
  · rcases List.eq_nil_or_concat t with rfl | ⟨t, c, rfl⟩
    · simp [unled_nil]
    · have hc : isWord c = false := h c (by simp)
      rw [List.concat_eq_append, List.append_assoc, List.singleton_append, unled_mark hc, unled_mark hc,
        and_iff_left unled_nil]
  · cases u with
    | nil => simp [unled_nil]
    | cons c u => rw [unled_mark (h c rfl), unled_cons (h c rfl)]

theorem unled_digits (hd : w.isDigits = true) : Unled w ↔ Nat.toDigits 10 w.value = w := by
  obtain ⟨hne, hdigits⟩ := mem_of_isDigits hd
  have hpieces := pieces_append_word (x := []) .nil hne (fun c hc => word_of_digit (hdigits c hc)) .nil
  rw [List.nil_append, List.append_nil] at hpieces
  rw [Unled, words, hpieces]
  simp [pieces, hd]

theorem unled_toDigits (n : Nat) : Unled (Nat.toDigits 10 n) :=
  (unled_digits (isDigits_toDigits n)).2 (by rw [value_toDigits])

end Unled

/-! ### The reading of the output -/

/-- The text with brackets as parentheses, so that an element of an array reads as a call. -/
def rounded (t : Text) : Text := t.map fun c => if c == '[' then '(' else if c == ']' then ')' else c

theorem rounded_append (t u : Text) : rounded (t ++ u) = rounded t ++ rounded u := List.map_append

theorem rounded_word {w : Text} (h : ∀ c ∈ w, isWord c = true) : rounded w = w := by
  have hword : ∀ c ∈ w, (if c == '[' then '(' else if c == ']' then ')' else c) = c := by
    intro c hc
    have hw := h c hc
    rw [if_neg, if_neg] <;> exact fun hb => absurd (eq_of_beq hb ▸ hw) (by decide)
  rw [rounded, List.map_congr_left hword, List.map_id']

/-- Integers where a sign negates and division goes toward zero. -/
structure Whole extends Integral where
  unary_minus : ∀ v : Int, unary "-" v = -v
  binary_div : ∀ v w : Int, binary "/" v w = v.tdiv w

def Whole.reading (A : Whole) : Reading := ⟨A.name, A.apply, A.apply⟩

/-- What the output reads in a part of an index.  A term may have a sign before it. -/
def Tree.Denoted (A : Whole) {part : Part} (e : Tree part) : Prop :=
  match part with
  | .factor => Denotes false A.toAlgebra 9 (rounded e.print) (e.meaning A.reading)
  | .term => Denotes false A.toAlgebra 6 (rounded e.print) (e.meaning A.reading) ∧
    Denotes false A.toAlgebra 6 ("-" ++ rounded e.print) (-e.meaning A.reading)
  | .expr => Denotes false A.toAlgebra 5 (rounded e.print) (e.meaning A.reading)
  | .items => ∃ ts, Spells (rounded e.print) ts ∧ .power ∉ ts ∧
    Derives A.toAlgebra .args ts (e.meaning.map (· A.reading))

section Denoted
variable {A : Whole} {t u : Text} {v w x : Int}

theorem denotes_call (f : Name) {ts : List Token} {vs : List Int} (hs : Spells t ts) (hp : .power ∉ ts)
    (hd : Derives A.toAlgebra .args ts vs) :
    Denotes false A.toAlgebra 9 (f.1 ++ "(" ++ t ++ ")") (A.apply f.1 vs) := by
  have hspells := Spells.call f .none hs
  rw [Gap.none, List.append_nil] at hspells
  refine ⟨(((Apart.name f).append _).append _).append _, _, hspells, .call f.1 hd, fun _ => ?_⟩
  simpa [Token.power] using hp

theorem denotes_minus (h : Denotes false A.toAlgebra 9 t v) : Denotes false A.toAlgebra 6 ("-" ++ t) (-v) := by
  obtain ⟨ts, hs, hd, hp⟩ := h.tokens
  have hspells := Spells.op (w := "-") (by decide) .none h.apart hs
  rw [Gap.none, List.append_nil] at hspells
  rw [← A.unary_minus]
  refine ⟨.cons (by decide) _, _, hspells, ?_, fun _ => by simpa [Token.power] using hp rfl⟩
  exact (Derives.unary (by decide) (hd.tighter (by decide))).tighter (by decide)

/-- A sign before a product is one before its first factor. -/
theorem denotes_product {s : Text} (hs : level? s = some 6) (hm : s ∈ symbols)
    (hx : A.binary s v w = x) (hneg : A.binary s (-v) w = -x)
    (ht : Denotes false A.toAlgebra 6 t v ∧ Denotes false A.toAlgebra 6 ("-" ++ t) (-v))
    (hu : Denotes false A.toAlgebra 9 u w) :
    Denotes false A.toAlgebra 6 (t ++ s ++ u) x ∧
      Denotes false A.toAlgebra 6 ("-" ++ (t ++ s ++ u)) (-x) := by
  have hfactor := hu.tighter (show 7 ≤ 9 by decide)
  rw [← hneg, ← hx]
  refine ⟨.operator hs (by decide) hm ht.1 hfactor, ?_⟩
  have hsigned := Denotes.operator hs (by decide) hm ht.2 hfactor
  rwa [List.append_assoc "-".toList, List.append_assoc "-".toList] at hsigned

end Denoted

theorem Tree.denoted (A : Whole) {part : Part} {e : Tree part} (h : Unled e.print) : e.Denoted A := by
  have hmarks : (isWord '(' = false ∧ isWord ')' = false) ∧ (isWord '[' = false ∧ isWord ']' = false) ∧
      (isWord '+' = false ∧ isWord '-' = false) ∧ (isWord '*' = false ∧ isWord '/' = false) ∧
      isWord ',' = false := by decide
  induction e with simp only [print, String.reduceToList, List.append_assoc, List.cons_append, List.nil_append,
      unled_mark, unled_cons, hmarks] at h
  | name w =>
    rw [Denoted, print, rounded_word w.2.mem_word.2]
    exact Formula.Tree.denotes A.toArithmetic (powerless_name w)
  | number d =>
    have hd := denotes_digits A.toArithmetic d.2
    rw [← (unled_digits d.2).1 h, A.number_toDigits, (unled_digits d.2).1 h] at hd
    rw [Denoted, print, rounded_word fun c hc => word_of_digit ((mem_of_isDigits d.2).2 c hc)]
    exact hd
  | group e ih =>
    rw [Denoted, print, rounded_append, rounded_append]
    exact (ih h.1).parens (by decide)
  | thunk f =>
    have htext : f.1 ++ rounded "()" = (Formula.Tree.thunk f .none .none).print := by
      simp [Formula.Tree.print, Gap.none, rounded]
    rw [Denoted, print, rounded_append, rounded_word f.2.mem_word.2, htext]
    exact Formula.Tree.denotes A.toArithmetic (e := .thunk f .none .none) (by simp [Formula.Tree.tokens, Token.power])
  | call f args ih | element f args ih =>
    obtain ⟨ts, hs, hp, hd⟩ := ih h.2.1
    rw [Denoted, print, rounded_append, rounded_append, rounded_append, rounded_word f.2.mem_word.2]
    exact denotes_call f hs hp hd
  | single f ih => exact ⟨(ih h).tighter (by decide), denotes_minus (ih h)⟩
  | mul t f iht ihf =>
    rw [Denoted, print, rounded_append, rounded_append]
    exact denotes_product (s := "*") (by decide) (by decide) (A.binary_mul _ _)
      (by rw [A.binary_mul, Int.neg_mul]; rfl) (iht h.1) (ihf h.2)
  | div t f iht ihf =>
    rw [Denoted, print, rounded_append, rounded_append]
    exact denotes_product (s := "/") (by decide) (by decide) (A.binary_div _ _)
      (by rw [A.binary_div, Int.neg_tdiv]; rfl) (iht h.1) (ihf h.2)
  | plain t ih => exact (ih h).1.tighter (by decide)
  | neg t ih =>
    rw [Denoted, print, rounded_append]
    exact (ih h).2.tighter (by decide)
  | add e t ihe iht | sub e t ihe iht =>
    rw [Denoted, print, rounded_append, rounded_append]
    simp only [meaning, ← A.binary_add, ← A.binary_sub]
    exact .operator (by decide) (by decide) (by decide) (ihe h.1) (iht h.2).1
  | one e ih =>
    obtain ⟨ts, hs, hd, hp⟩ := (ih h).tokens
    exact ⟨ts, hs, hp rfl, .one (hd.tighter (by decide))⟩
  | more args e iha ihe =>
    obtain ⟨ts, hs, hp, hd⟩ := iha h.1
    obtain ⟨us, hs', hd', hp'⟩ := (ihe h.2).tokens
    rw [Denoted, print, rounded_append, rounded_append]
    refine ⟨_, hs.comma hs', ?_, ?_⟩
    · rw [List.mem_append, List.mem_cons, not_or, not_or]
      exact ⟨hp, by decide, hp' rfl⟩
    · simpa [meaning] using Derives.more hd (hd'.tighter (by decide))

end FixedForm.Index
