/-!
Text and the character classes of the statement language.

A text is a list of 16-bit units, so a position in it is an index of the list.  A character above
U+FFFF takes two places; `FixedForm.Text.Units` says how its halves are held.
-/

namespace FixedForm

/-- A text, one list element per 16-bit unit. -/
abbrev Text := List Char

instance : Coe String Text := ⟨String.toList⟩

/-- Blanks: the white space of Unicode, the line ends, and the byte order mark. -/
def isBlank (c : Char) : Bool :=
  let n := c.toNat
  n == 0x20 || (0x09 ≤ n && n ≤ 0x0D) || n == 0xA0 || n == 0x1680 ||
    (0x2000 ≤ n && n ≤ 0x200A) || n == 0x2028 || n == 0x2029 || n == 0x202F || n == 0x205F ||
    n == 0x3000 || n == 0xFEFF

/-- The four line ends, which may stand inside a statement only as blanks. -/
def isLineEnd (c : Char) : Bool :=
  c == '\n' || c == '\r' || c == '\u2028' || c == '\u2029'

/-- ASCII letters, digits and the underscore. -/
def isWord (c : Char) : Bool :=
  c.isAlphanum || c == '_'

/-- A character of a number or a name, as an operand of `**` may hold it. -/
def isOperand (c : Char) : Bool :=
  isWord c || c == '.'

def isQuote (c : Char) : Bool :=
  c == '\x27' || c == '"'

namespace Text

def allBlank (t : Text) : Bool := t.all isBlank

def trimStart (t : Text) : Text := t.dropWhile isBlank

def trimEnd (t : Text) : Text := (t.reverse.dropWhile isBlank).reverse

def trim (t : Text) : Text := t.trimStart.trimEnd

/-- The longest stretch at the end of `t` that lies in `p`, after what precedes it. -/
def spanEnd (p : Char → Bool) (t : Text) : Text × Text :=
  ((t.reverse.dropWhile p).reverse, (t.reverse.takeWhile p).reverse)

def hasLineEnd (t : Text) : Bool := t.any isLineEnd

def spaces (n : Nat) : Text := List.replicate n ' '

/-- Each tab of `t` written as `n` spaces. -/
def expandTabs (n : Nat) (t : Text) : Text :=
  t.flatMap fun c => if c == '\t' then spaces n else [c]

/-- The blanks that `t` starts with, a tab counted as four columns. -/
def indent (t : Text) : Text := expandTabs 4 (t.takeWhile isBlank)

/-- The pieces between the places where `separator` stands. -/
def splitOn (separator : Char) : Text → List Text
  | [] => [[]]
  | c :: t =>
    if c == separator then [] :: splitOn separator t
    else
      match splitOn separator t with
      | [] => [[c]]
      | piece :: pieces => (c :: piece) :: pieces

def join (separator : Text) (parts : List Text) : Text := separator.intercalate parts

/-- What follows `lead` in a text that starts with it. -/
def after? : (lead t : Text) → Option Text
  | [], t => some t
  | _ :: _, [] => none
  | a :: lead, c :: t => if c == a then after? lead t else none

/-- `after?`, where the ASCII letters of the text may have either case.  `lead` is in lower case. -/
def afterFold? : (lead t : Text) → Option Text
  | [], t => some t
  | _ :: _, [] => none
  | a :: lead, c :: t => if c.toLower == a then afterFold? lead t else none

def startsWith (lead t : Text) : Bool := (after? lead t).isSome

/-- What follows at least one blank. -/
def blanks? : Text → Option Text
  | [] => none
  | c :: t => if isBlank c then some (trimStart t) else none

/-- No word character comes next. -/
def wordEnds : Text → Bool
  | [] => true
  | c :: _ => !isWord c

/-- The word that `t` starts with, and what follows it. -/
def word? (t : Text) : Option (Text × Text) :=
  match t.takeWhile isWord with
  | [] => none
  | w => some (w, t.dropWhile isWord)

/-- The digits that `t` starts with, and what follows them. -/
def digits? (t : Text) : Option (Text × Text) :=
  match t.takeWhile Char.isDigit with
  | [] => none
  | d => some (d, t.dropWhile Char.isDigit)

def isWordText (t : Text) : Bool := !t.isEmpty && t.all isWord

def isDigits (t : Text) : Bool := !t.isEmpty && t.all Char.isDigit

/-- The number that a text of digits writes. -/
def value (digits : Text) : Nat := digits.foldl (fun n c => n * 10 + (c.toNat - 48)) 0

def hexDigit? (c : Char) : Option Nat :=
  if c.isDigit then some (c.toNat - 48)
  else if 'a' ≤ c && c ≤ 'f' then some (c.toNat - 87)
  else if 'A' ≤ c && c ≤ 'F' then some (c.toNat - 55)
  else none

/-- The number that a text of hexadecimal digits writes. -/
def hex? (digits : Text) : Option Nat :=
  digits.foldlM (fun n c => (hexDigit? c).map (n * 16 + ·)) 0

/-- The text between its first and last character, when these are `opener` and `closer`. -/
def between? (opener closer : Char) : Text → Option Text
  | [] => none
  | c :: t => if c == opener && t.getLast? == some closer then some t.dropLast else none

theorem spanEnd_append (p : Char → Bool) (t : Text) : (spanEnd p t).1 ++ (spanEnd p t).2 = t := by
  rw [spanEnd, ← List.reverse_append, List.takeWhile_append_dropWhile, List.reverse_reverse]

theorem length_dropWhile_le (p : Char → Bool) (t : Text) : (t.dropWhile p).length ≤ t.length :=
  (List.dropWhile_sublist p).length_le

theorem length_trim_le (t : Text) : t.trim.length ≤ t.length := by
  have h₁ := length_dropWhile_le isBlank t
  have h₂ := length_dropWhile_le isBlank (t.dropWhile isBlank).reverse
  simp only [List.length_reverse] at h₂
  simp only [trim, trimEnd, trimStart, List.length_reverse]
  omega

end Text

end FixedForm
