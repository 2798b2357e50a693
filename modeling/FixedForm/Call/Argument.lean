import FixedForm.Symbol.Table
import FixedForm.Text.Nesting
import FixedForm.Text.Words

/-!
Actual arguments, and the types of parameters that they suggest.
-/

namespace FixedForm.Argument

/-- The arguments in a list; a blank list has none. -/
def split (t : Text) : List Text := if t.allBlank then [] else Text.listItems t

/-- The first word that names a symbol with a type, and whether a bracket follows it. -/
def typedWord? (symbols : SymbolTable) : List Piece → Option (Symbol × BaseType × Bool)
  | [] => none
  | .mark _ :: ps => typedWord? symbols ps
  | .word w :: ps =>
    let typed : Option (Symbol × BaseType × Bool) := do
      guard !((w.head?.map Char.isDigit).getD false)
      let s ← symbols.lookup? w
      let base ← s.baseType
      some (s, base, (Text.skipBlanks ps).head? == some (.mark '['))
    typed <|> typedWord? symbols ps

def isString (t : Text) : Bool := ((t.between? '"' '"').map fun u => !Text.hasLineEnd u).getD false

/-- The type of a parameter that takes the argument.  A literal decides by itself; otherwise the
first symbol with a type does. -/
def type (symbols : SymbolTable) (arg : Text) : Text :=
  let t := arg.trim
  let addressed := Text.startsWith "&" t
  if isString t then "const char *"
  else if t.isDigits then "size_t"
  else if t == "true".toList || t == "false".toList then "bool"
  else
    match typedWord? symbols t.pieces with
    | none => if addressed then unknownType ++ " *" else unknownType
    | some (_, .character, _) => "const char *"
    | some (s, base, subscripted) =>
      if addressed || (s.kind.isArray && !subscripted) then base.target ++ " *" else base.target

/-- A parameter with its type. -/
def named (type name : Text) : Text :=
  if type.getLast? == some '*' then type ++ name else type ++ " " ++ name

end FixedForm.Argument
