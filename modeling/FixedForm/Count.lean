import FixedForm.Text.Basic

/-!
Counts: the integers in array sizes, subscripts and loop steps.

A count keeps 53 significant bits.  A longer integer is rounded to the nearest count, a tie to the
even one, and from 2^1024 on it is infinite.  A count is written with the fewest digits that read
back as the same count.
-/

namespace FixedForm

inductive Count where
  | finite (value : Int)
  | infinite (negative : Bool)
  /-- The result of an operation that has none, such as `∞ - ∞`. -/
  | undefined
  deriving DecidableEq, Repr

namespace Count

/-- The number of significant bits. -/
def precision : Nat := 53

/-- `n` in whole units of `2^shift`, to the nearest, a tie to the even one. -/
def roundShift (n shift : Nat) : Nat :=
  let unit := Nat.pow 2 shift
  let low := n / unit
  let rest := n % unit
  if 2 * rest > unit || (2 * rest == unit && low % 2 == 1) then low + 1 else low

/-- The nearest natural number of at most 53 significant bits. -/
def roundNat (n : Nat) : Nat :=
  let shift := (Nat.log2 n + 1) - precision
  roundShift n shift * Nat.pow 2 shift

def ofInt (n : Int) : Count :=
  let m := roundNat n.natAbs
  if Nat.pow 2 1024 ≤ m then .infinite (n < 0)
  else .finite (if n < 0 then -(m : Int) else m)

def ofDigits (digits : Text) : Count := ofInt digits.value

def isNegative : Count → Bool
  | .finite n => n < 0
  | .infinite negative => negative
  | .undefined => false

def neg : Count → Count
  | .finite n => .finite (-n)
  | .infinite negative => .infinite (!negative)
  | .undefined => .undefined

def abs (a : Count) : Count := if a.isNegative then a.neg else a

def add : Count → Count → Count
  | .finite m, .finite n => ofInt (m + n)
  | .finite _, .infinite s => .infinite s
  | .infinite s, .finite _ => .infinite s
  | .infinite r, .infinite s => if r == s then .infinite r else .undefined
  | _, _ => .undefined

def sub (a b : Count) : Count := a.add b.neg

def mul : Count → Count → Count
  | .finite m, .finite n => ofInt (m * n)
  | .undefined, _ | _, .undefined => .undefined
  | a, b =>
    if a == .finite 0 || b == .finite 0 then .undefined
    else .infinite (a.isNegative != b.isNegative)

/-- The nearest of the two multiples of `10^e` around `n` that read back as `n`, if one does. -/
def onGrid? (n e : Nat) : Option Nat :=
  let unit := Nat.pow 10 e
  let low := n / unit
  let below := low * unit
  let above := (low + 1) * unit
  let belowReads := roundNat below == n
  let aboveReads := roundNat above == n
  if belowReads && aboveReads then
    if n - below < above - n || (n - below == above - n && low % 2 == 0) then some below
    else some above
  else if belowReads then some below
  else if aboveReads then some above
  else none

/-- The number with the fewest significant digits that reads back as `n`. -/
def shortest (n : Nat) : Nat :=
  if n < Nat.pow 2 precision then n
  else
    let size := (Nat.toDigits 10 n).length
    ((List.range size).findSome? fun k => onGrid? n (size - 1 - k)).getD n

/-- Up to 21 digits are written out; longer numbers have one digit before the point and a power of
ten. -/
def renderNat (n : Nat) : Text :=
  let digits := Nat.toDigits 10 (shortest n)
  if digits.length ≤ 21 then digits
  else
    let significant := (digits.reverse.dropWhile (· == '0')).reverse
    let fraction := significant.drop 1
    significant.take 1 ++ (if fraction.isEmpty then [] else '.' :: fraction) ++ "e+" ++
      Nat.toDigits 10 (digits.length - 1)

def render : Count → Text
  | .finite n => (if n < 0 then ['-'] else []) ++ renderNat n.natAbs
  | .infinite negative => (if negative then ['-'] else []) ++ "Infinity"
  | .undefined => "NaN"

end Count

end FixedForm
