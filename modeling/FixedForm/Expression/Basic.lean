import FixedForm.Text.Case

/-!
Regular expressions over 16-bit units.  Letters match in either case.
-/

namespace FixedForm

/-- A set of units, or all units outside of it. -/
structure UnitSet where
  negated : Bool := false
  /-- The first and the last unit of each stretch. -/
  ranges : List (Nat × Nat)
  deriving DecidableEq, Repr

namespace UnitSet

def digits : List (Nat × Nat) := [(0x30, 0x39)]

def words : List (Nat × Nat) := [(0x30, 0x39), (0x41, 0x5A), (0x5F, 0x5F), (0x61, 0x7A)]

def blanks : List (Nat × Nat) := [
  (0x09, 0x0D), (0x20, 0x20), (0xA0, 0xA0), (0x1680, 0x1680), (0x2000, 0x200A), (0x2028, 0x2029),
  (0x202F, 0x202F), (0x205F, 0x205F), (0x3000, 0x3000), (0xFEFF, 0xFEFF)]

def lineEnds : List (Nat × Nat) := [(0x0A, 0x0A), (0x0D, 0x0D), (0x2028, 0x2029)]

/-- The stretches from `next` on that lie between the given ones, which are in order. -/
def gaps (next : Nat) : List (Nat × Nat) → List (Nat × Nat)
  | [] => [(next, 0xFFFF)]
  | (first, last) :: rest =>
    if next < first then (next, first - 1) :: gaps (last + 1) rest else gaps (last + 1) rest

/-- A unit is in the set if one of the units with the same capital is listed. -/
def holds (s : UnitSet) (n : Nat) : Bool :=
  ((Text.caseVariants n).any (Text.inRanges s.ranges)) != s.negated

end UnitSet

inductive Expression where
  | empty
  | unit (n : Nat)
  | set (units : UnitSet)
  | textStart
  | textEnd
  /-- Between a word character and something else, or not there. -/
  | wordEdge (negated : Bool)
  | sequence (first second : Expression)
  | either (first second : Expression)
  /-- `body`, from `least` to `most` times. -/
  | times (least : Nat) (most : Option Nat) (body : Expression)
  /-- A group whose text is kept under a number. -/
  | group (number : Nat) (body : Expression)
  /-- `body` follows, and is not taken. -/
  | ahead (body : Expression)
  /-- The text of a group once more. -/
  | again (number : Nat)
  deriving DecidableEq, Repr

/-- The numbers of the groups in an expression. -/
def Expression.groups : Expression → List Nat
  | .sequence a b | .either a b => a.groups ++ b.groups
  | .times _ _ body | .ahead body => body.groups
  | .group number body => number :: body.groups
  | _ => []

end FixedForm
