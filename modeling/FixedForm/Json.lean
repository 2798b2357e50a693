import FixedForm.Assoc
import FixedForm.Text.Units

/-!
JSON documents.  The members of an object keep the order in which their keys first came; a key that
comes again replaces the value in its place.  Reading is strict: nothing but the grammar of the
format, and nothing after the value.
-/

namespace FixedForm

inductive Json where
  | null
  | bool (value : Bool)
  /-- A number, as it is written. -/
  | number (digits : Text)
  | string (text : Text)
  | array (items : List Json)
  | object (members : List (Text × Json))
  deriving Inhabited

namespace Json

inductive Token where
  | openBrace | closeBrace | openBracket | closeBracket | colon | comma
  | scalar (value : Json)

def escaped? : Char → Option Char
  | '"' => some '"'
  | '\\' => some '\\'
  | '/' => some '/'
  | 'b' => some '\x08'
  | 'f' => some '\x0c'
  | 'n' => some '\n'
  | 'r' => some '\r'
  | 't' => some '\t'
  | _ => none

/-- The characters of a string after its opening quote, and what follows its closing quote. -/
def stringBody? : Text → Option (Text × Text)
  | [] => none
  | '"' :: t => some ([], t)
  | '\\' :: 'u' :: a :: b :: c :: d :: t => do
    let n ← Text.hex? [a, b, c, d]
    let (body, rest) ← stringBody? t
    some (Text.ofUnit n :: body, rest)
  | '\\' :: e :: t => do
    let c ← escaped? e
    let (body, rest) ← stringBody? t
    some (c :: body, rest)
  | c :: t =>
    if c.toNat < 0x20 || c == '\\' then none
    else (stringBody? t).map fun (body, rest) => (c :: body, rest)

/-- A whole part without superfluous zeros. -/
def whole? : Text → Option (Text × Text)
  | '0' :: t => some (['0'], t)
  | t => t.digits?

/-- A point and at least one digit, or nothing. -/
def fraction? : Text → Option (Text × Text)
  | '.' :: t => (Text.digits? t).map fun (d, rest) => ('.' :: d, rest)
  | t => some ([], t)

/-- An exponent, or nothing. -/
def exponent? : Text → Option (Text × Text)
  | [] => some ([], [])
  | e :: t =>
    if e == 'e' || e == 'E' then
      match t with
      | '+' :: u => (Text.digits? u).map fun (d, rest) => (e :: '+' :: d, rest)
      | '-' :: u => (Text.digits? u).map fun (d, rest) => (e :: '-' :: d, rest)
      | u => (Text.digits? u).map fun (d, rest) => (e :: d, rest)
    else some ([], e :: t)

def number? (t : Text) : Option (Text × Text) := do
  let (sign, t) := match t with
    | '-' :: t => (['-'], t)
    | t => ([], t)
  let (whole, t) ← whole? t
  let (fraction, t) ← fraction? t
  let (exponent, t) ← exponent? t
  some (sign ++ whole ++ fraction ++ exponent, t)

/-- The first token of a text that starts with no blank, and what follows it. -/
def token? : Text → Option (Token × Text)
  | [] => none
  | '\x7b' :: t => some (.openBrace, t)
  | '\x7d' :: t => some (.closeBrace, t)
  | '[' :: t => some (.openBracket, t)
  | ']' :: t => some (.closeBracket, t)
  | ':' :: t => some (.colon, t)
  | ',' :: t => some (.comma, t)
  | '"' :: t => (stringBody? t).map fun (body, rest) => (.scalar (.string body), rest)
  | t =>
    ((Text.after? "null" t).map fun rest => (.scalar .null, rest)) <|>
    ((Text.after? "true" t).map fun rest => (.scalar (.bool true), rest)) <|>
    ((Text.after? "false" t).map fun rest => (.scalar (.bool false), rest)) <|>
    ((number? t).map fun (digits, rest) => (.scalar (.number digits), rest))

def isSpace (c : Char) : Bool := c == ' ' || c == '\t' || c == '\n' || c == '\r'

set_option linter.unusedVariables false in
def tokens? (t : Text) : Option (List Token) :=
  match h : t.dropWhile isSpace with
  | [] => some []
  | c :: u =>
    match token? (c :: u) with
    | none => none
    | some (token, rest) =>
      if hr : rest.length < (c :: u).length then (tokens? rest).map (token :: ·) else none
termination_by t.length
decreasing_by
  have := Text.length_dropWhile_le isSpace t
  rw [h] at this
  omega

/-- A container that is still open: the items so far, last first, or the members so far and the key
whose value is being read. -/
inductive Frame where
  | array (items : List Json)
  | object (members : Assoc Json) (key : Text)

/-- What may come next. -/
inductive Expect where
  | value
  | valueOrClose
  | key
  | keyOrClose
  | colon
  /-- A whole value was read. -/
  | done (value : Json)

/-- Reads tokens with the open containers, innermost first. -/
def read : List Frame → Expect → List Token → Option Json
  | [], .done v, [] => some v
  | .array items :: outer, .done v, .comma :: ts =>
    read (.array (v :: items) :: outer) .value ts
  | .array items :: outer, .done v, .closeBracket :: ts =>
    read outer (.done (.array (v :: items).reverse)) ts
  | .object members key :: outer, .done v, .comma :: ts =>
    read (.object (members.put key v) key :: outer) .key ts
  | .object members key :: outer, .done v, .closeBrace :: ts =>
    read outer (.done (.object (members.put key v))) ts
  | frames, .value, .scalar v :: ts => read frames (.done v) ts
  | frames, .valueOrClose, .scalar v :: ts => read frames (.done v) ts
  | frames, .value, .openBracket :: ts => read (.array [] :: frames) .valueOrClose ts
  | frames, .valueOrClose, .openBracket :: ts => read (.array [] :: frames) .valueOrClose ts
  | frames, .value, .openBrace :: ts => read (.object [] [] :: frames) .keyOrClose ts
  | frames, .valueOrClose, .openBrace :: ts => read (.object [] [] :: frames) .keyOrClose ts
  | .array _ :: outer, .valueOrClose, .closeBracket :: ts => read outer (.done (.array [])) ts
  | .object _ _ :: outer, .keyOrClose, .closeBrace :: ts => read outer (.done (.object [])) ts
  | .object members _ :: outer, .key, .scalar (.string k) :: ts =>
    read (.object members k :: outer) .colon ts
  | .object members _ :: outer, .keyOrClose, .scalar (.string k) :: ts =>
    read (.object members k :: outer) .colon ts
  | frames, .colon, .colon :: ts => read frames .value ts
  | _, _, _ => none

/-- The document that a text writes. -/
def parse? (t : Text) : Option Json := (tokens? t).bind (read [] .value)

def get? : Json → Text → Option Json
  | .object members, key => Assoc.get? members key
  | _, _ => none

end Json

end FixedForm
