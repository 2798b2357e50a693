import FixedForm.Decimal

/-!
Numbers among the arguments of a command.  Each is taken in its shortest spelling, so that `1.0` and
`0x1` are both `1`.
-/

namespace FixedForm

/-- A number as it is written in an argument. -/
structure Numeral where
  negative : Bool
  /-- The digits, without the point. -/
  digits : Text
  exponent : Int

namespace Numeral

/-- An exponent of ten, if one comes next. -/
def exponentPart? (t : Text) : Option (Int × Text) :=
  match t with
  | 'e' :: '-' :: t => (Text.digits? t).map fun (digits, rest) => (-(digits.value : Int), rest)
  | 'e' :: '+' :: t => (Text.digits? t).map fun (digits, rest) => ((digits.value : Int), rest)
  | 'e' :: t => (Text.digits? t).map fun (digits, rest) => ((digits.value : Int), rest)
  | _ => some (0, t)

/-- Reads digits with a point somewhere, a sign before and an exponent after them. -/
def parse? (t : Text) : Option Numeral := do
  let (negative, t) := match t with
    | '-' :: t => (true, t)
    | t => (false, t)
  let whole := t.takeWhile Char.isDigit
  let (fraction, rest) := match t.dropWhile Char.isDigit with
    | '.' :: rest => (rest.takeWhile Char.isDigit, rest.dropWhile Char.isDigit)
    | rest => ([], rest)
  guard (!whole.isEmpty || !fraction.isEmpty)
  let (exponent, rest) ← exponentPart? rest
  guard rest.isEmpty
  some { negative, digits := whole ++ fraction, exponent := exponent - fraction.length }

/-- The number of a numeral without its sign.  None below 10^-400 is told from zero, and none from
10^400 on has a spelling. -/
def magnitude? (n : Numeral) : Option Binary :=
  let digits := n.digits.dropWhile (· == '0')
  let top : Int := digits.length + n.exponent
  if digits.isEmpty || top < -400 then some { significand := 0, exponent := 0 }
  else if 400 < top then none
  else some (Decimal.binary { coefficient := Text.value digits, exponent := n.exponent })

/-- The shortest spelling, if the number lies between -2^53 and 2^53. -/
def render? (n : Numeral) : Option Text := do
  let b ← n.magnitude?
  guard (b.ratio.num < Nat.pow 2 Count.precision * b.ratio.den)
  if b.significand == 0 then some "0"
  else some ((if n.negative then ['-'] else []) ++ (Decimal.shortest b).render)

/-- The spelling of a text that is a number: of a hexadecimal one in decimal, and of a decimal one with
the fewest digits.  A zero that a point does not follow starts no decimal number. -/
def spelling? (t : Text) : Option Text :=
  match t with
  | '0' :: c :: digits =>
    if c == 'x' || c == 'X' then
      if digits.isEmpty then none else (Text.hex? digits).map fun n => (Count.ofInt n).render
    else if c == '.' then (parse? t).bind render?
    else none
  | _ => (parse? t).bind render?

end Numeral

end FixedForm
