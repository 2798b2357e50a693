import FixedForm.Text.Basic

/-!
Replacing every match of a rule, from left to right and without overlap.
-/

namespace FixedForm

/-- A rule sees the characters before a place, nearest first, and the text from there on.  Where it
matches it gives the new text and what follows the match. -/
abbrev Rule := (before t : Text) → Option (Text × Text)

/-- No word character stands right before. -/
def wordStarts (before : Text) : Bool := before.wordEnds

namespace Text

/-- Replaces the matches of `rule` in `t`, which stands after `before`. -/
def substituteFrom (rule : Rule) (before t : Text) : Text :=
  match t with
  | [] => []
  | c :: rest =>
    match rule before (c :: rest) with
    | none => c :: substituteFrom rule (c :: before) rest
    | some (new, left) =>
      if left.length < (c :: rest).length then
        let seen := (c :: rest).take ((c :: rest).length - left.length)
        new ++ substituteFrom rule (seen.reverse ++ before) left
      else c :: substituteFrom rule (c :: before) rest
termination_by t.length
decreasing_by
  · exact Nat.lt_succ_self _
  · assumption
  · exact Nat.lt_succ_self _

def substitute (rule : Rule) (t : Text) : Text := substituteFrom rule [] t

/-- Applies the rules one after the other. -/
def substituteAll (rules : List Rule) (t : Text) : Text :=
  rules.foldl (fun acc rule => acc.substitute rule) t

end Text

end FixedForm
