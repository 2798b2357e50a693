import FixedForm.Text.Basic

/-!
16-bit units.  A character up to U+FFFF is one unit and is held as itself.  Above that it is a pair
of halves, numbers from 0xD800 to 0xDFFF; no character has such a number, so the half `h` is held as
the character `0x100000 + h`, which no text holds in one piece.
-/

namespace FixedForm.Text

/-- The distance between a half and the character that holds it. -/
def halfShift : Nat := 0x100000

/-- The number of the unit that `c` stands for. -/
def unit (c : Char) : Nat :=
  if c.toNat < 0x10000 then c.toNat else c.toNat - halfShift

/-- The character that holds unit `n`. -/
def ofUnit (n : Nat) : Char :=
  if 0xD800 ≤ n ∧ n ≤ 0xDFFF then Char.ofNat (n + halfShift) else Char.ofNat n

/-- The units of the code point `n`. -/
def ofPoint (n : Nat) : Text :=
  if n < 0x10000 then [ofUnit n]
  else [ofUnit (0xD800 + (n - 0x10000) / 0x400), ofUnit (0xDC00 + (n - 0x10000) % 0x400)]

/-- The code points of a text; a half that stands alone is a code point of its own. -/
def points : Text → List Nat
  | [] => []
  | [c] => [unit c]
  | c :: d :: t =>
    if 0xD800 ≤ unit c ∧ unit c < 0xDC00 ∧ 0xDC00 ≤ unit d ∧ unit d < 0xE000 then
      (0x10000 + (unit c - 0xD800) * 0x400 + (unit d - 0xDC00)) :: points t
    else unit c :: points (d :: t)

def ofPoints (ps : List Nat) : Text := ps.flatMap ofPoint

def ofString (s : String) : Text := s.toList.flatMap fun c => ofPoint c.toNat

/-- A half that stands alone is written as the replacement character. -/
def toString (t : Text) : String :=
  String.ofList ((points t).map fun n => if 0xD800 ≤ n ∧ n ≤ 0xDFFF then '\ufffd' else Char.ofNat n)

/-- Order by the numbers of the units, a shorter text before its extensions. -/
def le : Text → Text → Bool
  | [], _ => true
  | _ :: _, [] => false
  | a :: s, b :: t => unit a < unit b || (unit a == unit b && le s t)

end FixedForm.Text
