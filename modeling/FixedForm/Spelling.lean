import FixedForm.Diagnostic.Issue
import FixedForm.Power
import FixedForm.Text.Case
import FixedForm.Text.Literal
import FixedForm.Text.Substitution

/-!
Spelling of a statement: lower case, one-word type names, symbolic operators, exponents of numbers
and powers.
-/

namespace FixedForm.Spelling

def foldCase (t : Text) : Text := t.mapCode Text.lower

/-- Two words with blanks between them. -/
def twoWords (first second new : Text) : Rule := fun before t => do
  guard (wordStarts before)
  let t ← Text.afterFold? first t
  let t ← t.blanks?
  let t ← Text.afterFold? second t
  guard t.wordEnds
  some (new, t)

/-- A type word, a star and a size. -/
def starred (type size new : Text) : Rule := fun before t => do
  guard (wordStarts before)
  let t ← Text.afterFold? type t
  let t ← Text.after? "*" t.trimStart
  let t ← Text.after? size t.trimStart
  guard t.wordEnds
  some (new, t)

def typeNames : List Rule := [
  twoWords "double" "precision" "doubleprecision",
  twoWords "double" "complex" "doublecomplex",
  starred "complex" "16" "doublecomplex",
  starred "real" "8" "doubleprecision",
  starred "integer" "4" "integer",
  starred "logical" "4" "logical"]

/-- Type names of two words or with a size become one word. -/
def collapseTypes (t : Text) : Text := t.substituteAll typeNames

def dotted (name new : Text) : Rule := fun _ t =>
  (Text.afterFold? ("." ++ name ++ ".") t).map fun rest => (new, rest)

def dottedWords : List Rule := [
  dotted "gt" " > ", dotted "ge" " >= ", dotted "lt" " < ", dotted "le" " <= ", dotted "eq" " == ",
  dotted "ne" " != ", dotted "not" " !", dotted "and" " && ", dotted "or" " || ",
  dotted "true" "true", dotted "false" "false"]

/-- Operators and constants between points get their symbols. -/
def operators (t : Text) : Text := t.mapCode (Text.substituteAll dottedWords)

/-- Digits with a point somewhere, and what follows them. -/
def mantissa? (t : Text) : Option (Text × Text) :=
  match t.digits? with
  | some (whole, '.' :: rest) =>
    some (whole ++ '.' :: rest.takeWhile Char.isDigit, rest.dropWhile Char.isDigit)
  | some (whole, rest) => some (whole, rest)
  | none =>
    match t with
    | '.' :: rest => (Text.digits? rest).map fun (digits, rest) => ('.' :: digits, rest)
    | _ => none

/-- A number whose exponent is marked with `d`. -/
def doubleExponent : Rule := fun before t => do
  guard ((before.head?.map fun c => !isOperand c).getD true)
  let (mantissa, t) ← mantissa? t
  let t ← Text.afterFold? "d" t
  let (sign, t) := Power.sign t
  let (exponent, t) ← t.digits?
  guard t.wordEnds
  some (mantissa ++ "e" ++ sign ++ exponent, t)

/-- The exponent of a number is marked with `e`. -/
def numbers (t : Text) : Text := t.mapCode (Text.substitute doubleExponent)

/-- Every change of spelling but the last, that of powers. -/
def beforePowers (t : Text) : Text := numbers (operators (collapseTypes (foldCase t)))

/-- A statement in the spelling that the later stages read.  If the powers cannot be replaced they
stay. -/
def normalize (t : Text) : Text × List Issue :=
  let t := beforePowers t
  match Power.replace? t with
  | some powered => (powered, [])
  | none => (t, [.powerOperand])

end FixedForm.Spelling
