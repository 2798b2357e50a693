import FixedForm.Expression.Basic

/-!
Search: an expression is found in a text if it matches from some place on.  A match is followed
through all its ends at once.
-/

namespace FixedForm

/-- A place in a text, and the texts of the groups that were passed. -/
structure Cursor where
  /-- The text before the place, nearest character first. -/
  before : Text
  rest : Text
  kept : List (Nat × Text) := []
  deriving DecidableEq, Repr

namespace Cursor

/-- The next unit is taken if it satisfies `p`. -/
def take (p : Nat → Bool) (c : Cursor) : List Cursor :=
  match c.rest with
  | [] => []
  | x :: rest => if p (Text.unit x) then [{ c with before := x :: c.before, rest }] else []

/-- A text is taken, with each letter in either case. -/
def takeText : Text → Cursor → List Cursor
  | [], c => [c]
  | x :: t, c => (c.take fun n => Text.capital n == Text.capital (Text.unit x)).flatMap (takeText t)

/-- A word character stands on one side only. -/
def atWordEdge (c : Cursor) : Bool := c.before.wordEnds != c.rest.wordEnds

/-- Forgets the texts of some groups. -/
def forget (numbers : List Nat) (c : Cursor) : Cursor :=
  { c with kept := c.kept.filter fun (number, _) => !numbers.contains number }

/-- Keeps the text between two places for a group. -/
def keep (number : Nat) (start stop : Cursor) : Cursor :=
  let text := start.rest.take (start.rest.length - stop.rest.length)
  { stop.forget [number] with kept := (number, text) :: (stop.forget [number]).kept }

end Cursor

namespace Expression

/-- The ends of `least` matches of a step and at most `spare` more, each of which takes something. -/
def repeatedEnds (step : Cursor → List Cursor) : (least spare : Nat) → Cursor → List Cursor
  | 0, 0, c => [c]
  | 0, spare + 1, c =>
    let further := (step c).filter fun d => d.rest.length < c.rest.length
    (c :: further.flatMap (repeatedEnds step 0 spare)).eraseDups
  | least + 1, spare, c => ((step c).flatMap (repeatedEnds step least spare)).eraseDups

/-- The places where a match that starts at a place can end.  Of more repetitions than there are
units left some take nothing, so that they need not be counted. -/
def ends : Expression → Cursor → List Cursor
  | .empty, c => [c]
  | .unit n, c => c.take fun m => Text.capital m == Text.capital n
  | .set units, c => c.take units.holds
  | .textStart, c => if c.before.isEmpty then [c] else []
  | .textEnd, c => if c.rest.isEmpty then [c] else []
  | .wordEdge negated, c => if c.atWordEdge != negated then [c] else []
  | .sequence a b, c => ((ends a c).flatMap (ends b)).eraseDups
  | .either a b, c => (ends a c ++ ends b c).eraseDups
  | .times least most body, c =>
    let left := c.rest.length
    let spare := (most.map fun most => min (most - least) left).getD left
    repeatedEnds (fun c => ends body (c.forget body.groups)) (min least (left + 1)) spare c
  | .group number body, c => (ends body c).map (c.keep number)
  | .ahead body, c => if (ends body c).isEmpty then [] else [c]
  | .again number, c => c.takeText ((List.lookup number c.kept).getD [])

/-- A match starts somewhere in `rest`, which follows `before`. -/
def foundFrom (e : Expression) (before : Text) : Text → Bool
  | [] => !(e.ends { before, rest := [] }).isEmpty
  | c :: rest => !(e.ends { before, rest := c :: rest }).isEmpty || foundFrom e (c :: before) rest

/-- A match starts somewhere in the text. -/
def found (e : Expression) (t : Text) : Bool := e.foundFrom [] t

end Expression

end FixedForm
