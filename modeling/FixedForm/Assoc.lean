import FixedForm.Text.Basic

/-!
Names with values, in the order in which the names first came.
-/

namespace FixedForm

abbrev Assoc (α : Type) := List (Text × α)

namespace Assoc

variable {α : Type}

def get? (m : Assoc α) (name : Text) : Option α := List.lookup name m

def has (m : Assoc α) (name : Text) : Bool := (m.get? name).isSome

/-- Gives `name` a value.  A name that is there keeps its place. -/
def put : Assoc α → Text → α → Assoc α
  | [], name, value => [(name, value)]
  | (n, v) :: m, name, value =>
    if n == name then (n, value) :: m else (n, v) :: put m name value

def putAll (m : Assoc α) (entries : List (Text × α)) : Assoc α :=
  entries.foldl (fun m (name, value) => m.put name value) m

def erase (m : Assoc α) (name : Text) : Assoc α := m.filter fun (n, _) => n != name

def names (m : Assoc α) : List Text := m.map Prod.fst

end Assoc

/-- Adds `name` at the end of a list that does not hold it. -/
def addOnce (names : List Text) (name : Text) : List Text :=
  if names.contains name then names else names ++ [name]

end FixedForm
