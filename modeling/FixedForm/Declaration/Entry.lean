import FixedForm.Count
import FixedForm.Diagnostic.Issue
import FixedForm.Text.Literal

/-!
Entries of declarations: a name, the extents of an array, and the length of a text.
-/

namespace FixedForm

structure DeclaredEntry where
  name : Text
  dimensions : List Text
  /-- The length of a text as written: a number, a name in parentheses, or `(*)`. -/
  length : Option Text
  deriving DecidableEq, Repr

namespace DeclaredEntry

/-- What follows a star, unless that is nothing. -/
def length? : Text → Option Text
  | '*' :: t => Text.nonempty? t
  | _ => none

/-- Reads `name`, `name(d1,d2)`, `name*length` or `name(d1)*length`; blanks have no meaning. -/
def parse (t : Text) : Option DeclaredEntry × List Issue :=
  match Text.word? (t.filter (!isBlank ·)) with
  | none => (none, [])
  | some (name, rest) =>
    if Text.startsWith "(" rest then
      match rest.closing? with
      | none => (some { name, dimensions := [], length := none }, [.unclosedEntry name])
      | some closing =>
        let (pieces, faults) := Text.splitCommas ((rest.take closing).drop 1)
        (some { name, dimensions := pieces, length := length? (rest.drop (closing + 1)) },
          faults.map .mismatch)
    else (some { name, dimensions := [], length := length? rest }, [])

end DeclaredEntry

/-- The number of characters to reserve for a text and its terminator.  A text of no given length,
or of the length that the caller gives, reserves none. -/
def characterStorage (length : Option Text) : Option Text :=
  match length with
  | none => none
  | some t =>
    if t == "(*)".toList then none
    else
      let inner := match t.between? '(' ')' with
        | some u => if Text.hasLineEnd u then t else u
        | none => t
      if inner.isDigits then some (Count.add (.ofDigits inner) (.finite 1)).render
      else some (inner ++ "+1")

end FixedForm
