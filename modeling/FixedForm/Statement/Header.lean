import FixedForm.Symbol.Basic

/-!
Headers of units: `subroutine name(arguments)` or `type function name(arguments)`.
-/

namespace FixedForm

inductive UnitKind where
  | subroutine | function
  deriving DecidableEq, Repr

namespace UnitKind

def name : UnitKind → Text
  | .subroutine => "subroutine"
  | .function => "function"

def ofName? (name : Text) : Option UnitKind :=
  [UnitKind.subroutine, .function].find? fun k => k.name == name

def lead? (t : Text) : Option (UnitKind × Text) :=
  ((Text.after? "subroutine" t).map fun rest => (.subroutine, rest)) <|>
  ((Text.after? "function" t).map fun rest => (.function, rest))

end UnitKind

structure Header where
  baseType : Option BaseType
  kind : UnitKind
  name : Text
  /-- The text between the parentheses, if there are any. -/
  arguments : Option Text
  deriving DecidableEq, Repr

namespace Header

/-- What follows the blanks after a type word, which may first give a length behind a star. -/
def afterType? (t : Text) : Option Text :=
  match t.trimStart with
  | '*' :: u =>
    let (length, rest) := (Text.trimStart u).span (!isBlank ·)
    if length.isEmpty then none else Text.blanks? rest
  | _ => t.blanks?

/-- The type in front of a header, and what follows it. -/
def type? (t : Text) : Option (Option BaseType × Text) :=
  match BaseType.lead? t with
  | none => some (none, t)
  | some (base, rest) => (afterType? rest).map fun rest => (some base, rest)

/-- The arguments after the opening parenthesis.  The closing one may be missing. -/
def argumentText? (t : Text) : Option Text :=
  let t := t.trimEnd
  let inner := if t.getLast? == some ')' then t.dropLast else t
  if Text.hasLineEnd inner then none else some inner

def parse? (t : Text) : Option Header := do
  let (baseType, t) ← type? t
  let (kind, t) ← UnitKind.lead? t
  let t ← t.blanks?
  let (name, t) ← t.word?
  match t.trimStart with
  | [] => some { baseType, kind, name, arguments := none }
  | '(' :: inner => (argumentText? inner).map fun a => { baseType, kind, name, arguments := some a }
  | _ => none

end Header

end FixedForm
