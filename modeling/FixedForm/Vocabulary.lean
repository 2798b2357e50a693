import FixedForm.Text.Basic

/-!
Words with a fixed meaning.
-/

namespace FixedForm

/-- Words of statements, and words that the output brings in. -/
def keywords : List String := [
  "access", "assign", "backspace", "blank", "block", "call", "close", "common", "continue", "data",
  "dimension", "direct", "do", "else", "elseif", "endif", "enddo", "end", "entry", "eof",
  "equivalence", "err", "exist", "external", "file", "fmt", "form", "format", "formatted",
  "function", "go", "goto", "to", "if", "implicit", "include", "inquire", "intrinsic", "iostat",
  "logical", "named", "namelist", "nextrec", "number", "open", "opened", "parameter", "pause",
  "print", "program", "read", "rec", "recl", "return", "rewind", "sequential", "status", "stop",
  "subroutine", "then", "type", "unformatted", "unit", "write", "save", "while", "for", "true",
  "false", "pow", "std", "integer", "character", "ftnlen", "doubleprecision", "doublecomplex"]

/-- Functions that the language supplies. -/
def intrinsics : List String := [
  "abs", "acos", "aimag", "aint", "alog", "alog10", "amax0", "amax1", "amin0", "amin1", "amod",
  "anint", "asin", "atan", "atan2", "cabs", "ccos", "cexp", "char", "clog", "cmplx", "conjg", "cos",
  "cosh", "csin", "csqrt", "dabs", "dacos", "dasin", "datan", "datan2", "dble", "dcmplx", "dconjg",
  "dcos", "dcosh", "ddim", "dexp", "dim", "dimag", "dint", "dlog", "dlog10", "dmax1", "dmin1",
  "dmod", "dnint", "dprod", "dsign", "dsin", "dsinh", "dsqrt", "dtan", "dtanh", "exp", "float",
  "iabs", "ichar", "idim", "idint", "idnint", "ifix", "index", "int", "isign", "len", "lge", "lgt",
  "lle", "llt", "log", "log10", "max", "max0", "max1", "min", "min0", "min1", "mod", "nint", "real",
  "sign", "sin", "sinh", "sngl", "sqrt", "tan", "tanh", "conj", "imag", "complex"]

/-- A word that is never reported as undeclared. -/
def isReserved (word : Text) : Bool :=
  keywords.any (·.toList == word) || intrinsics.any (·.toList == word)

end FixedForm
