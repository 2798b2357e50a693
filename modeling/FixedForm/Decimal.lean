import FixedForm.Count

/-!
Decimal numbers that are held with 53 significant bits, and their shortest spelling: the fewest digits
that read back as the same number, of these the nearest, a tie to the even one.
-/

namespace FixedForm

/-- The number `significand * 2 ^ exponent`. -/
structure Binary where
  significand : Nat
  exponent : Int
  deriving DecidableEq, Repr

/-- The number `coefficient * 10 ^ exponent`. -/
structure Decimal where
  coefficient : Nat
  exponent : Int
  deriving DecidableEq, Repr

/-- A fraction of natural numbers. -/
structure Ratio where
  num : Nat
  den : Nat
  deriving DecidableEq, Repr

namespace Ratio

/-- `r * base ^ exponent`. -/
def scale (r : Ratio) (base : Nat) (exponent : Int) : Ratio :=
  if exponent < 0 then { r with den := r.den * Nat.pow base exponent.natAbs }
  else { r with num := r.num * Nat.pow base exponent.natAbs }

/-- The nearest natural number, a tie to the even one. -/
def round (r : Ratio) : Nat :=
  let low := r.num / r.den
  let rest := r.num % r.den
  if r.den < 2 * rest || (2 * rest == r.den && low % 2 == 1) then low + 1 else low

end Ratio

namespace Binary

/-- The least exponent. -/
def leastExponent : Int := -1074

def ratio (b : Binary) : Ratio := Ratio.scale { num := b.significand, den := 1 } 2 b.exponent

/-- The nearest number of 53 significant bits. -/
def nearest (r : Ratio) : Binary :=
  let size : Int := Nat.log2 r.num - Nat.log2 r.den
  let full := Nat.pow 2 Count.precision
  let least := r.scale 2 (Count.precision - size)
  let exponent := max leastExponent
    (if least.num < full * least.den then size - Count.precision else size - Count.precision + 1)
  let significand := (r.scale 2 (-exponent)).round
  if significand == full then { significand := full / 2, exponent := exponent + 1 }
  else { significand, exponent }

end Binary

namespace Decimal

def ratio (d : Decimal) : Ratio := Ratio.scale { num := d.coefficient, den := 1 } 10 d.exponent

/-- Reads a decimal as a binary number. -/
def binary (d : Decimal) : Binary := Binary.nearest d.ratio

/-- The nearest of the two multiples of `10 ^ exponent` around `b` that read back as `b`, if one
does. -/
def onGrid? (b : Binary) (exponent : Int) : Option Decimal :=
  let r := b.ratio.scale 10 (-exponent)
  let low := r.num / r.den
  let below : Decimal := { coefficient := low, exponent }
  let above : Decimal := { coefficient := low + 1, exponent }
  let first := if r.round == low then below else above
  let second := if r.round == low then above else below
  [first, second].find? fun d => d.binary == b

/-- The number of digits before the point; if there are none, the zeros after it count below zero. -/
def places (r : Ratio) : Int :=
  if r.den ≤ r.num then (Nat.toDigits 10 (r.num / r.den)).length
  else
    let zeros := (List.range 330).find? fun (k : Nat) => r.den ≤ r.num * Nat.pow 10 (k + 1)
    Int.negOfNat (zeros.getD 0)

/-- The decimal with the fewest digits that reads back as `b`. -/
def shortest (b : Binary) : Decimal :=
  let top := places b.ratio
  let found := (List.range 17).findSome? fun (k : Nat) => onGrid? b (top - 1 - k)
  found.getD { coefficient := 0, exponent := 0 }

/-- From 10^-6 on numbers are written out; smaller ones have one digit before the point and a power
of ten. -/
def render (d : Decimal) : Text :=
  let all := Nat.toDigits 10 d.coefficient
  let point : Int := all.length + d.exponent
  let digits := (Text.spanEnd (· == '0') all).1
  if digits.length ≤ point then digits ++ List.replicate (point.toNat - digits.length) '0'
  else if 0 < point then digits.take point.toNat ++ "." ++ digits.drop point.toNat
  else if -6 < point then "0." ++ List.replicate point.natAbs '0' ++ digits
  else
    let fraction := digits.drop 1
    digits.take 1 ++ (if fraction.isEmpty then [] else '.' :: fraction) ++ "e-" ++
      Nat.toDigits 10 (1 - point).toNat

end Decimal

end FixedForm
