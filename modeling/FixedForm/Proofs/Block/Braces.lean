import FixedForm.Line.Basic
import FixedForm.Proofs.Text.Scan

/-! The braces of lines of the output, and which closes which.  `Pairs` says what a stretch of lines
does to the braces that are open before it, whatever else is open below them. -/
namespace FixedForm.Block
open Text

def opensBrace (t : Text) : Bool := t.getLast? == some '\x7b'

def closesBrace (t : Text) : Bool := t.trimStart.head? == some '\x7d'

/-- Each line that opens a brace, with the line that closes it, in the order of closing.  There is none
when a brace closes nothing or stays open.  `stack` holds the open lines, innermost first. -/
def pairUp : List Line → List Line → Option (List (Line × Line))
  | [], [] => some []
  | _ :: _, [] => none
  | stack, l :: ls =>
    if closesBrace l.text then
      match stack with
      | [] => none
      | o :: stack =>
        (pairUp (if opensBrace l.text then l :: stack else stack) ls).map ((o, l) :: ·)
    else pairUp (if opensBrace l.text then l :: stack else stack) ls

theorem pairUp_of_open {l : Line} (h : closesBrace l.text = false) (stack ls : List Line) :
    pairUp stack (l :: ls) = pairUp (if opensBrace l.text then l :: stack else stack) ls := by
  cases stack <;> simp [pairUp, h]

theorem pairUp_of_close {l : Line} (h : closesBrace l.text = true) (o : Line)
    (stack ls : List Line) :
    pairUp (o :: stack) (l :: ls) =
      (pairUp (if opensBrace l.text then l :: stack else stack) ls).map ((o, l) :: ·) := by
  simp [pairUp, h]

/-- A construct, by the identity of the line that opens it, the card of the statement whose brace closes
it, and the blanks before that brace. -/
structure Construct where
  head : Nat
  terminator : Nat
  indent : Text
  deriving DecidableEq, Repr

def Construct.ofPair (p : Line × Line) : Construct where
  head := p.1.id
  terminator := p.2.origin
  indent := p.2.text.takeWhile isBlank

/-- The lines `out` find the braces of `before` open, close them or not, leave those of `after` open,
and close `constructs`. -/
def Pairs (before : List Nat) (constructs : List Construct) (after : List Nat) (out : List Line) :
    Prop :=
  ∀ opened : List Line, opened.map (·.id) = before → ∃ pairs left,
    pairs.map Construct.ofPair = constructs ∧ left.map (·.id) = after ∧
      ∀ stack rest, pairUp (opened ++ stack) (out ++ rest) =
        (pairUp (left ++ stack) rest).map (pairs ++ ·)

namespace Pairs
variable {before mid after : List Nat} {cs cs' : List Construct} {out out' : List Line} {l : Line}

theorem nil : Pairs before [] before [] := by
  intro opened h
  exact ⟨[], opened, rfl, h, by simp⟩

theorem append (h : Pairs before cs mid out) (h' : Pairs mid cs' after out') :
    Pairs before (cs ++ cs') after (out ++ out') := by
  intro opened ho
  obtain ⟨pairs, left, rfl, hl, hp⟩ := h opened ho
  obtain ⟨pairs', left', rfl, hl', hp'⟩ := h' left hl
  refine ⟨pairs ++ pairs', left', by simp, hl', fun stack rest => ?_⟩
  rw [List.append_assoc, hp, hp', Option.map_map]
  congr 1
  funext x
  simp

/-- What is open further out stays open. -/
theorem frame (h : Pairs before cs after out) (outer : List Nat) :
    Pairs (before ++ outer) cs (after ++ outer) out := by
  intro opened ho
  obtain ⟨xs, ys, rfl, hx, hy⟩ := List.map_eq_append_iff.1 ho
  obtain ⟨pairs, left, hc, hl, hp⟩ := h xs hx
  refine ⟨pairs, left ++ ys, hc, by simp [hl, hy], fun stack rest => ?_⟩
  rw [List.append_assoc, hp, List.append_assoc]

theorem quiet (hc : closesBrace l.text = false) (ho : opensBrace l.text = false) :
    Pairs before [] before [l] := by
  intro opened h
  refine ⟨[], opened, rfl, h, fun stack rest => ?_⟩
  simp [pairUp_of_open hc, ho]

theorem opening (hc : closesBrace l.text = false) (ho : opensBrace l.text = true) :
    Pairs before [] (l.id :: before) [l] := by
  intro opened h
  refine ⟨[], l :: opened, rfl, by simp [h], fun stack rest => ?_⟩
  simp [pairUp_of_open hc, ho]

/-- A brace closes a branch, and the next one may open. -/
theorem closing {head : Nat} {opens : Bool} (hc : closesBrace l.text = true) (ho : opensBrace l.text = opens) :
    Pairs (head :: before) [⟨head, l.origin, l.text.takeWhile isBlank⟩]
      (if opens then l.id :: before else before) [l] := by
  intro opened h
  obtain ⟨o, opened, rfl, rfl, hb⟩ := List.map_eq_cons_iff.1 h
  refine ⟨[(o, l)], if opens then l :: opened else opened, rfl, ?_, fun stack rest => ?_⟩
  · cases opens <;> simp [hb]
  · cases opens <;> simp [pairUp_of_close hc, ho]

/-- Lines that leave no brace open and find none open are properly nested. -/
theorem pairUp_eq (h : Pairs [] cs [] out) :
    ∃ pairs, pairUp [] out = some pairs ∧ pairs.map Construct.ofPair = cs := by
  obtain ⟨pairs, left, hc, hl, hp⟩ := h [] rfl
  have he : left = [] := List.map_eq_nil_iff.1 hl
  refine ⟨pairs, ?_, hc⟩
  have hout := hp [] []
  rw [he] at hout
  simpa [pairUp] using hout

end Pairs

end FixedForm.Block
