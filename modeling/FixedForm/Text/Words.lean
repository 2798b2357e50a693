import FixedForm.Text.Basic

/-!
A text as words and the marks between them.
-/

namespace FixedForm

/-- A longest stretch of word characters, or one other character. -/
inductive Piece where
  | word (letters : Text)
  | mark (c : Char)
  deriving DecidableEq, Repr

namespace Text

def pieces : Text → List Piece
  | [] => []
  | c :: t =>
    if isWord c then .word (c :: t.takeWhile isWord) :: pieces (t.dropWhile isWord)
    else .mark c :: pieces t
termination_by t => t.length
decreasing_by
  · have := length_dropWhile_le isWord t
    simp only [List.length_cons]
    omega
  · simp

def words (t : Text) : List Text :=
  t.pieces.filterMap fun
    | .word w => some w
    | .mark _ => none

/-- The pieces that follow the blanks in front. -/
def skipBlanks : List Piece → List Piece
  | .mark c :: ps => if isBlank c then skipBlanks ps else .mark c :: ps
  | ps => ps

end Text

end FixedForm
