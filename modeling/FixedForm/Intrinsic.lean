import FixedForm.Text.Literal
import FixedForm.Text.Substitution

/-!
Functions of the language under their names in the output.
-/

namespace FixedForm.Intrinsic

/-- A whole word. -/
def rename (name new : Text) : Rule := fun before t => do
  guard (wordStarts before)
  let t ← Text.after? name t
  guard t.wordEnds
  some (new, t)

/-- `abs`, unless a scope is written before it. -/
def absolute : Rule := fun before t =>
  if Text.startsWith "::" before then none else rename "abs" "std::abs" before t

/-- `mod` of two words. -/
def remainder : Rule := fun before t => do
  guard (wordStarts before)
  let t ← Text.after? "mod" t
  let t ← Text.after? "(" t.trimStart
  let (a, t) ← Text.word? t.trimStart
  let t ← Text.after? "," t.trimStart
  let (b, t) ← Text.word? t.trimStart
  let t ← Text.after? ")" t.trimStart
  some ("(" ++ a ++ " % " ++ b ++ ")", t)

def rules : List Rule := [
  rename "dcmplx" "std::complex<double>", rename "dconjg" "std::conj", rename "dble" "std::real",
  rename "dimag" "std::imag", absolute, remainder]

/-- The functions of a text, outside literals, under their names in the output. -/
def replace (t : Text) : Text := t.mapCode (Text.substituteAll rules)

end FixedForm.Intrinsic
