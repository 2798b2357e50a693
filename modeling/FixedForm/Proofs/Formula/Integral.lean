import FixedForm.Proofs.Count
import FixedForm.Proofs.Formula.Logic
import Mathlib.Data.List.Induction

/-! Formulas over the integers.  Operators and relations are those of the integers, and a numeral that
starts with no needless zero is decimal.  What a zero in front does is left open: in the output it makes a
numeral octal. -/
namespace FixedForm.Formula
open Text

structure Integral extends Arithmetic Int where
  binary_add : ∀ v w : Int, binary "+" v w = v + w
  binary_sub : ∀ v w : Int, binary "-" v w = v - w
  binary_mul : ∀ v w : Int, binary "*" v w = v * w
  binary_relation : ∀ (r : Relation) (v w : Int), binary r.symbol v w = (integerLogic.holds r v w).toInt
  number_toDigits : ∀ n : Nat, number (Nat.toDigits 10 n) = n

/-! ### Numerals of the output -/

/-- The value of a numeral in the output. -/
def numeral : Text → Nat
  | '0' :: digits => digits.foldl (fun n c => 8 * n + (c.toNat - '0'.toNat)) 0
  | digits => digits.value

theorem head_toDigits {n : Nat} (h : 0 < n) : (Nat.toDigits 10 n).head? ≠ some '0' := by
  induction n using Nat.strongRecOn with
  | ind n ih =>
    by_cases hn : n < 10
    · have hdigit : ∀ d < 10, 0 < d → [Nat.digitChar d].head? ≠ some '0' := by decide
      rw [Nat.toDigits_of_lt_base hn]
      exact hdigit n hn h
    · have hrest := ih (n / 10) (by omega) (by omega)
      rw [Nat.toDigits_of_base_le (by decide) (by omega), List.head?_append]
      obtain ⟨c, t, hc⟩ := List.exists_cons_of_ne_nil (Nat.toDigits_ne_nil (n := n / 10) (b := 10))
      rw [hc] at hrest ⊢
      exact hrest

theorem digitChar_toNat {c : Char} (h : c.isDigit = true) : Nat.digitChar (c.toNat - 48) = c := by
  have hdigit : ∀ n < 10, Nat.digitChar n = Char.ofNat (n + 48) := by decide
  obtain ⟨h₁, h₂⟩ := isDigit_iff.1 h
  rw [hdigit _ (by omega), Nat.sub_add_cancel h₁, Char.ofNat_toNat]

/-- Digits without a zero in front are those of their value. -/
theorem toDigits_value {d : Text} (h : d.isDigits = true) (hz : d.head? ≠ some '0') :
    Nat.toDigits 10 d.value = d := by
  induction d using List.reverseRecOn with
  | nil => cases h
  | append_singleton t c ih =>
    obtain ⟨-, hdigits⟩ := mem_of_isDigits h
    have hc : c.isDigit = true := hdigits c (by simp)
    have hchar := digitChar_toNat hc
    have hlt : c.toNat - 48 < 10 := by
      have hbounds := isDigit_iff.1 hc
      omega
    have hvalue : value (t ++ [c]) = 10 * value t + (c.toNat - 48) := by simp [value, Nat.mul_comm]
    cases t with
    | nil =>
      rw [hvalue, value, List.foldl_nil, Nat.mul_zero, Nat.zero_add, Nat.toDigits_of_lt_base hlt, hchar,
        List.nil_append]
    | cons b t =>
      have hinit : isDigits (b :: t) = true := List.all_eq_true.2 fun x hx => hdigits x (List.mem_append_left _ hx)
      have hrest := ih hinit hz
      have hpos : value (b :: t) ≠ 0 := by
        intro h0
        rw [h0] at hrest
        exact hz (by rw [← hrest]; rfl)
      rw [hvalue, Nat.toDigits_of_base_le (by decide) (by omega), Nat.mul_add_div (by decide),
        Nat.div_eq_of_lt hlt, Nat.add_zero, hrest, Nat.mul_add_mod, Nat.mod_eq_of_lt hlt, hchar]

theorem numeral_toDigits (n : Nat) : numeral (Nat.toDigits 10 n) = n := by
  rcases Nat.eq_zero_or_pos n with rfl | h
  · decide
  · have hhead := head_toDigits h
    have hvalue := value_toDigits n
    revert hhead hvalue
    generalize Nat.toDigits 10 n = t
    intro hhead hvalue
    rw [numeral]
    · exact hvalue
    · rintro digits rfl
      exact hhead rfl

/-- Integers, where the names have given values. -/
def valued (s : Text → Int) : Integral where
  toArithmetic := { integers with name := s, number := fun t => numeral t }
  binary_add _ _ := rfl
  binary_sub _ _ := rfl
  binary_mul _ _ := rfl
  binary_relation r v w := by cases r <;> rfl
  number_toDigits n := congrArg Int.ofNat (numeral_toDigits n)

/-! ### Texts with their values -/

section Denotes
variable {V : Type} {powers : Bool} {A : Algebra V} {l l' : Nat} {t u : Text} {v w : V}

/-- The text is a formula of level `l` with the value `v`.  Powers are left in it only if `powers` holds. -/
structure Denotes (powers : Bool) (A : Algebra V) (l : Nat) (t : Text) (v : V) : Prop where
  apart : Apart t
  tokens : ∃ ts, Spells t ts ∧ Derives A (.expr l) ts v ∧ (powers = false → .power ∉ ts)

theorem Denotes.read (h : Denotes powers A l t v) : A.read t = some v := by
  obtain ⟨ts, hs, hd, -⟩ := h.tokens
  exact read_of_derives hs.tokens hd

theorem Denotes.readOutput (h : Denotes false A l t v) : A.readOutput t = some v := by
  obtain ⟨ts, hs, hd, hp⟩ := h.tokens
  exact readOutput_of_derives hs.tokens (hp rfl) hd

theorem Denotes.tighter (h : Denotes powers A l t v) (hl : l' ≤ l) : Denotes powers A l' t v := by
  obtain ⟨ts, hs, hd, hp⟩ := h.tokens
  exact ⟨h.apart, ts, hs, hd.tighter hl, hp⟩

theorem Denotes.around (h : Denotes powers A l t v) (p : Pad) : Denotes powers A l (p.around t) v := by
  obtain ⟨ts, hs, hd, hp⟩ := h.tokens
  exact ⟨h.apart.around p, ts, hs.around p, hd, hp⟩

theorem Denotes.parens (h : Denotes powers A l t v) (hl : 1 ≤ l) : Denotes powers A 9 ("(" ++ t ++ ")") v := by
  obtain ⟨ts, hs, hd, hp⟩ := h.tokens
  exact ⟨.cons (by decide) _, _, hs.parens, .group (hd.tighter hl), fun h => by simpa [Token.power] using hp h⟩

theorem Denotes.binary {symbol : Text} (hs : level? symbol = some l) (hl : l ≤ 6) (hm : symbol ∈ symbols)
    (p : Pad) (ha : Denotes powers A l t v) (hb : Denotes powers A (l + 1) u w) :
    Denotes powers A l (t ++ p.around symbol ++ u) (A.binary symbol v w) := by
  obtain ⟨ts, hts, hda, hpa⟩ := ha.tokens
  obtain ⟨us, hus, hdb, hpb⟩ := hb.tokens
  have hpower : Token.power ≠ .op symbol := by
    rintro ⟨⟩
    exact absurd (Option.some.inj hs) (by omega)
  refine ⟨(ha.apart.append _).append _, _, hts.binary hm p hb.apart hus, .binary hs hl hda hdb, fun h => ?_⟩
  simp [hpa h, hpb h, hpower]

/-- An operator without blanks around it. -/
theorem Denotes.operator {symbol : Text} (hs : level? symbol = some l) (hl : l ≤ 6) (hm : symbol ∈ symbols)
    (ha : Denotes powers A l t v) (hb : Denotes powers A (l + 1) u w) :
    Denotes powers A l (t ++ symbol ++ u) (A.binary symbol v w) := by
  have h := Denotes.binary hs hl hm .none ha hb
  rwa [Pad.around, Pad.none, Gap.none, List.nil_append, List.append_nil] at h

theorem Denotes.loose (h : Denotes false A l t v) : Denotes powers A l t v := by
  obtain ⟨ts, hs, hd, hp⟩ := h.tokens
  exact ⟨h.apart, ts, hs, hd, fun _ => hp rfl⟩

theorem Tree.denotes (A : Arithmetic V) {e : Tree .expr} (h : .power ∉ e.tokens) :
    Denotes false A.toAlgebra (Formula.readLevel e.level) e.print (e.value A.toAlgebra) :=
  ⟨e.apart_print, _, e.spells_print, (e.read A).1, fun _ => h⟩

theorem Tree.denotes_sum (A : Arithmetic V) {e : Tree .expr} (h : .power ∉ e.tokens) :
    Denotes false A.toAlgebra 5 e.print (e.value A.toAlgebra) :=
  (denotes A h).tighter (readLevel_mono (Nat.zero_le e.level))

theorem denotes_digits (A : Arithmetic V) {d : Text} (h : d.isDigits = true) :
    Denotes false A.toAlgebra 9 d (A.number d) := by
  have hd : Denotes false A.toAlgebra 9 (Numeral.ofDigits d h).text (A.number (Numeral.ofDigits d h).text) :=
    Tree.denotes A (e := .number (.ofDigits d h)) (by simp [Tree.tokens, Token.power])
  have htext : (Numeral.ofDigits d h).text = d := by
    rw [Numeral.text, Numeral.ofDigits, List.append_nil, List.append_nil]
  rwa [htext] at hd

end Denotes

/-- A natural number in decimal digits. -/
def decimal (n : Nat) : Tree .expr := .number (.ofDigits (Nat.toDigits 10 n) (isDigits_toDigits n))

theorem print_decimal (n : Nat) : (decimal n).print = Nat.toDigits 10 n := by
  rw [decimal, Tree.print, Numeral.text, Numeral.ofDigits, List.append_nil, List.append_nil]

theorem powerless_name (w : Name) : .power ∉ (Tree.name w).tokens := by
  simp [Tree.tokens, Token.power]

theorem powerless_decimal (n : Nat) : .power ∉ (decimal n).tokens := by
  simp [decimal, Tree.tokens, Token.power]

theorem value_decimal (A : Integral) (n : Nat) : (decimal n).value A.toAlgebra = n := by
  have hvalue : (decimal n).value A.toAlgebra = A.number (decimal n).print := rfl
  rw [hvalue, print_decimal, A.number_toDigits]

end FixedForm.Formula
