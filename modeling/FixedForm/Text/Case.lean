import FixedForm.Text.CaseTable
import FixedForm.Text.Units

/-!
Letter case.  In lower case every capital goes to its partner, but `İ` becomes an `i` with a dot
above, and `Σ` has a second form at the end of a word.  The capital of a unit serves to compare units
in either case.
-/

namespace FixedForm.Text

def inRanges (ranges : List (Nat × Nat)) (n : Nat) : Bool :=
  ranges.any fun (first, last) => first ≤ n && n ≤ last

def isCased (n : Nat) : Bool := inRanges casedRanges n

def isIgnorable (n : Nat) : Bool := inRanges ignorableRanges n

namespace CaseRun

def holds (run : CaseRun) (n : Nat) : Bool :=
  run.first ≤ n && n ≤ run.last && (n - run.first) % run.step == 0

def partner? (run : CaseRun) (n : Nat) : Option Nat :=
  if run.holds n then some ((n : Int) + run.shift).toNat else none

/-- The member of a run whose partner is `m`. -/
def member? (run : CaseRun) (m : Nat) : Option Nat :=
  let n := ((m : Int) - run.shift).toNat
  if run.holds n then some n else none

end CaseRun

/-- The lower-case form of a code point, when it does not depend on its neighbours. -/
def lowerPoint (n : Nat) : List Nat :=
  if n < 0x80 then [(Char.ofNat n).toLower.toNat]
  else if n == 0x130 then [0x69, 0x307]
  else [(smallRuns.findSome? (CaseRun.partner? · n)).getD n]

/-- The nearest code point that is not passed over is a letter with case. -/
def meetsCased (ps : List Nat) : Bool :=
  ((ps.dropWhile isIgnorable).head?.map isCased).getD false

/-- `before` holds the code points already seen, nearest first. -/
def lowerPoints (before : List Nat) : List Nat → List Nat
  | [] => []
  | n :: ps =>
    let form :=
      if n == 0x3A3 then [if meetsCased before && !meetsCased ps then 0x3C2 else 0x3C3]
      else lowerPoint n
    form ++ lowerPoints (n :: before) ps

def lower (t : Text) : Text := ofPoints (lowerPoints [] (points t))

/-- The capital of a unit.  A unit whose capital is longer, or is in ASCII while the unit is not, is
its own capital. -/
def capital (n : Nat) : Nat :=
  if n < 0x80 then (Char.ofNat n).toUpper.toNat
  else (capitalRuns.findSome? (CaseRun.partner? · n)).getD n

/-- The units with the same capital as `n`. -/
def caseVariants (n : Nat) : List Nat :=
  let top := capital n
  (top :: (Char.ofNat top).toLower.toNat :: capitalRuns.filterMap (CaseRun.member? · top)).filter
    fun m => capital m == top

end FixedForm.Text
