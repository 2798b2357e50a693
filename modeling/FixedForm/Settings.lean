import FixedForm.Json
import FixedForm.Options

/-!
Options from a settings document.  What is wrong in it is reported and passed over.
-/

namespace FixedForm

namespace Settings

inductive Problem where
  | notObject
  | notBoolean (key : Text)
  | notPlacement
  | notIncludes
  | unknownOption (key : Text)
  deriving DecidableEq, Repr

def Problem.message : Problem → Text
  | .notObject => "configuration must be a JSON object"
  | .notBoolean key => "\"" ++ key ++ "\" must be a boolean"
  | .notPlacement => "\"declarationPlacement\" must be \"trailing\" or \"leading\""
  | .notIncludes => "\"includes\" must be an array of header names"
  | .unknownOption key => "unknown option \"" ++ key ++ "\""

/-- The number that a key writes in its one canonical form, below 2^32 - 1. -/
def index? (key : Text) : Option Nat :=
  if key.isDigits && Nat.toDigits 10 key.value == key && key.value < 0xFFFFFFFF then some key.value
  else none

/-- The members in reading order: keys that are numbers first, by value, then the others as
written. -/
def inOrder (members : Assoc Json) : Assoc Json :=
  let numbered := members.filterMap fun (k, v) => (index? k).map fun n => (n, k, v)
  (numbered.mergeSort fun a b => a.1 ≤ b.1).map Prod.snd ++
    members.filter fun (k, _) => (index? k).isNone

def bool? : Json → Option Bool
  | .bool b => some b
  | _ => none

def string? : Json → Option Text
  | .string t => some t
  | _ => none

def strings? : Json → Option (List Text)
  | .array items => items.mapM string?
  | _ => none

abbrev Reading := GivenOptions × List Problem

/-- Takes a value of the right type, or notes a problem. -/
def take {α : Type} (r : Reading) (value : Option α) (set : GivenOptions → α → GivenOptions)
    (problem : Problem) : Reading :=
  match value with
  | some v => (set r.1 v, r.2)
  | none => (r.1, r.2 ++ [problem])

def member (r : Reading) (key : Text) (value : Json) : Reading :=
  if key == "simplifySubscripts".toList then
    take r (bool? value) (fun o b => { o with simplifySubscripts := some b }) (.notBoolean key)
  else if key == "emitPreamble".toList then
    take r (bool? value) (fun o b => { o with emitPreamble := some b }) (.notBoolean key)
  else if key == "emitIndexReport".toList then
    take r (bool? value) (fun o b => { o with emitIndexReport := some b }) (.notBoolean key)
  else if key == "declarationPlacement".toList then
    take r ((string? value).bind Placement.ofName?)
      (fun o p => { o with declarationPlacement := some p }) .notPlacement
  else if key == "includes".toList then
    take r (strings? value) (fun o ts => { o with includes := some ts }) .notIncludes
  else (r.1, r.2 ++ [.unknownOption key])

/-- The options of a document, and its problems in order. -/
def ofJson : Json → Reading
  | .object members => (inOrder members).foldl (fun r (key, value) => member r key value) ({}, [])
  | _ => ({}, [.notObject])

end Settings

end FixedForm
