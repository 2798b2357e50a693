import FixedForm.Text.Nesting

/-!
Named constants: `parameter (name = value, ...)`.
-/

namespace FixedForm.Constants

/-- One part of a complex constant, without the blanks around it.  A part of blanks only is its last
blank. -/
def part? (t : Text) : Option Text :=
  if t.isEmpty || t.any fun c => c == '(' || c == ')' || c == ',' then none
  else if t.allBlank then some (t.drop (t.length - 1))
  else some t.trim

/-- The parts of a complex constant `(re, im)`. -/
def complex? (t : Text) : Option (Text × Text) := do
  let inner ← t.between? '(' ')'
  let re ← part? (inner.takeWhile (· != ','))
  let im ← part? ((inner.dropWhile (· != ',')).drop 1)
  some (re, im)

/-- The value of a constant in the output. -/
def value (t : Text) : Text :=
  match complex? t with
  | some (re, im) => "std::complex<double>(" ++ re ++ ", " ++ im ++ ")"
  | none => t

/-- One `name = value`. -/
def item? (t : Text) : Option (Text × Text) :=
  match t.span (· != '=') with
  | (_, []) => none
  | (name, _ :: raw) =>
    let name := Text.trim name
    let raw := Text.trim raw
    if name.isWordText && !raw.isEmpty then some (name, value raw) else none

/-- The names and values of a list; what is no `name = value` is passed over. -/
def parse (t : Text) : List (Text × Text) := t.splitCommas.1.filterMap item?

/-- A whole statement: the blanks before it, and the list in its parentheses. -/
def statement? (t : Text) : Option (Text × Text) := do
  let rest ← Text.after? "parameter" t.trimStart
  let inner ← Text.between? '(' ')' rest.trim
  guard !(Text.hasLineEnd inner)
  some (t.takeWhile isBlank, inner)

end FixedForm.Constants
