import FixedForm.Line.Buffer
import FixedForm.Text.Literal

/-!
Cards: the physical lines of a fixed-form source.  A deck of cards becomes a buffer of statements.
Comment and blank cards are lines of their own, and a continuation card is joined to the last
statement before it.
-/

namespace FixedForm

namespace Card

/-- A comment has `c`, `*` or `!` in its first column. -/
def isComment : Text → Bool
  | [] => false
  | c :: _ => c == 'c' || c == 'C' || c == '*' || c == '!'

/-- A text within one line. -/
def oneLine? (t : Text) : Option Text := if t.hasLineEnd then none else some t

/-- What follows a `$` that is the first character but for blanks. -/
def dollarBody? (t : Text) : Option Text :=
  match t.trimStart with
  | '$' :: body => oneLine? (Text.trimStart body)
  | _ => none

/-- What follows a mark in column 6, which is neither a blank nor a zero. -/
def columnBody? (t : Text) : Option Text :=
  match Text.after? "     " t with
  | some (mark :: body) =>
    if mark == ' ' || mark == '0' then none else (oneLine? body).map Text.trimStart
  | _ => none

/-- What a continuation card adds to its statement. -/
def continuation? (t : Text) : Option Text := dollarBody? t <|> columnBody? t

/-- The cards of a source; each ends with a line feed, before which a carriage return is dropped. -/
def split : Text → List Text
  | [] => [[]]
  | '\r' :: '\n' :: t => [] :: split t
  | '\n' :: t => [] :: split t
  | c :: t =>
    match split t with
    | [] => [[c]]
    | card :: cards => (c :: card) :: cards

/-- The cards of a source, with tabs as eight spaces and without an empty last one. -/
def deck (source : Text) : List Text :=
  let cards := split source
  (if cards.getLast? == some [] then cards.dropLast else cards).map (Text.expandTabs 8)

/-- A remark after another one. -/
def joinRemark (first second : Option Text) : Option Text :=
  match first, second with
  | none, r => r
  | r, none => r
  | some a, some b => some (a ++ " " ++ b)

/-- Joins the body of a continuation card to a statement. -/
def extend (statement : Draft) (body : Text) : Draft :=
  let (code, remark) := body.splitRemark
  { statement with
    text := statement.text ++ " " ++ code
    remark := joinRemark statement.remark remark }

/-- The lines read so far, and the place of the last statement among them. -/
structure Reading where
  lines : List Line := []
  last : Option Nat := none

namespace Reading

def push (r : Reading) (number : Nat) (d : Draft) : Reading :=
  { r with lines := r.lines ++ [{ d with id := r.lines.length, origin := number }] }

/-- Reads the card with the given number. -/
def card (r : Reading) (number : Nat) (text : Text) : Reading :=
  if isComment text then r.push number { text, shape := .comment }
  else if text.allBlank then r.push number { text := [], shape := .blank }
  else
    match r.last, (if r.last.isSome then continuation? text else none) with
    | some last, some body =>
      { r with
        lines := r.lines.map fun l =>
          if l.id == last then { extend l.toDraft body with id := l.id, origin := l.origin } else l }
    | _, _ =>
      let (code, remark) := text.splitRemark
      { r.push number { text := code, shape := .other, remark } with last := some r.lines.length }

def cards (r : Reading) (number : Nat) : List Text → Reading
  | [] => r
  | text :: rest => (r.card number text).cards (number + 1) rest

end Reading

/-- The statements of a source, not yet classified. -/
def read (source : Text) : Buffer :=
  let lines := (({} : Reading).cards 1 (deck source)).lines
  { lines, nextId := lines.length }

end Card

end FixedForm
