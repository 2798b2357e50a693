import FixedForm.Expression.Parse
import FixedForm.Expression.Search
import FixedForm.Text.Substitution

/-!
Patterns for paths that are left out.  `*` and `?` stay within a name, `**` as a whole name stands for
any folders, and a slash before the end ties a pattern to the top folder.  A pattern is spelled out as
a regular expression, which is searched for in the path from the top folder; the path of a folder ends
with a slash.
-/

namespace FixedForm

namespace Ignore

/-- Characters that mean something in a regular expression. -/
def isSpecial (c : Char) : Bool :=
  ['\\', '$', '.', '|', '*', '+', '(', ')', '\x7b', '^'].contains c

def dropByteOrderMark : Text → Text
  | '\ufeff' :: t => t
  | t => t

/-- The even part of a run of backslashes. -/
def pairs (slashes : Text) : Text := slashes.take (slashes.length - slashes.length % 2)

/-- Drops the blanks at the end; a backslash keeps one. -/
def dropBlanksAtEnd (t : Text) : Text :=
  let (body, blanks) := t.spanEnd isBlank
  let (_, slashes) := body.spanEnd (· == '\\')
  if blanks.isEmpty || slashes.length % 2 == 0 then body else body.dropLast ++ " "

/-- A blank after backslashes. -/
def escapedBlank : Rule := fun _ t =>
  let slashes := t.takeWhile (· == '\\')
  match slashes, t.drop slashes.length with
  | _ :: _, c :: rest => if isBlank c then some (pairs slashes ++ " ", rest) else none
  | _, _ => none

/-- Each special character after a backslash, and `?` as any one character of a name. -/
def escapeSpecial (t : Text) : Text :=
  t.flatMap fun c => if isSpecial c then ['\\', c] else if c == '?' then "[^/]" else [c]

/-- A slash at the start is the top folder; every other one is put after a backslash. -/
def escapeSlashes (t : Text) : Text :=
  (match t with
    | '/' :: rest => '^' :: rest
    | _ => t).flatMap fun c => if c == '/' then "\\/" else [c]

/-- Any folders at the start of a pattern. -/
def leadingFolders (t : Text) : Text :=
  match Text.after? "\\*\\*\\/" (t.dropWhile (· == '^')) with
  | some rest => "^(?:.*\\/)?" ++ rest
  | none => t

/-- Ties the expression to the top folder if the pattern has a slash before its end, and else to the
start of a name. -/
def anchor (pattern t : Text) : Text :=
  match t with
  | [] | '^' :: _ => t
  | _ => (if pattern.dropLast.contains '/' then "^" else "(?:^|\\/)" : Text) ++ t

/-- Any folders inside of a pattern, and anything below a folder at its end. -/
def innerFolders : Rule := fun _ t => do
  let rest ← Text.after? "\\/\\*\\*" t
  if rest.isEmpty then some ("\\/.+", [])
  else
    guard (Text.startsWith "\\/" rest)
    some ("(?:\\/[^\\/]+)*", rest)

/-- The number of stars that a text starts with, and what follows them. -/
def stars : Text → Nat × Text
  | '\\' :: '*' :: t =>
    let (n, rest) := stars t
    (n + 1, rest)
  | t => (0, t)

/-- Stars that something follows are any characters of a name. -/
def innerStars : Rule := fun _ t =>
  let run := t.takeWhile (· != '\\')
  let (n, rest) := stars (t.drop run.length)
  let followed := (rest.head?.map fun c => !isLineEnd c).getD false
  if run.isEmpty then none
  else if followed && 1 ≤ n then some (run ++ "[^\\/]*", rest)
  else if 2 ≤ n then some (run ++ "[^\\/]*", "\\*" ++ rest)
  else none

/-- A special character that the pattern itself puts after a backslash. -/
def givenEscape : Rule := fun _ t => do
  let rest ← Text.after? "\\\\\\" t
  guard ((rest.head?.map fun c => c != '\\' && isSpecial c).getD false)
  some ("\\", rest)

def backslashPair : Rule := fun _ t => (Text.after? "\\\\" t).map fun rest => ("\\", rest)

/-- A range of ASCII letters and digits that runs backwards is left out of its set. -/
def backwardRange : Rule := fun _ t =>
  let inside := fun (c : Char) => '0' ≤ c && c ≤ 'z'
  match t with
  | a :: '-' :: b :: rest =>
    if inside a && inside b then some (if a ≤ b then [a, '-', b] else [], rest) else none
  | _ => none

/-- A set up to its closing bracket.  A set that is not closed holds nothing. -/
def set (body slashes close : Text) : Text :=
  if close.isEmpty || slashes.length % 2 == 1 then "[]"
  else "[" ++ body.substitute backwardRange ++ slashes ++ "]"

/-- A set within a name, or an opening bracket after a backslash. -/
def sets : Rule := fun _ t => do
  let (escaped, inner) ← match t with
    | '\\' :: '[' :: inner => some (true, inner)
    | '[' :: inner => some (false, inner)
    | _ => none
  let content : Text := inner.takeWhile fun c => c != ']' && c != '/'
  let rest : Text := inner.drop content.length
  guard (rest.head? != some '/')
  let (body, slashes) := content.spanEnd (· == '\\')
  let close := rest.take 1
  some (if escaped then "\\[" ++ body ++ pairs slashes ++ close else set body slashes close,
    rest.drop 1)

/-- The path ends here, or one slash follows. -/
def pathEnd : Text := "(?=$|\\/$)"

/-- Ends the expression.  Stars at the end of a name are any characters of it, and stars that are a
whole name at least one. -/
def finish (t : Text) : Text :=
  match t.reverse with
  | [] => []
  | '*' :: '\\' :: u =>
    let whole := Text.startsWith "^" u || Text.startsWith "/\\" u
    u.reverse ++ (if whole then "[^/]+" else "[^/]*" : Text) ++ pathEnd
  | '*' :: _ => t
  | '/' :: _ => t ++ "$"
  | _ => t ++ pathEnd

/-- The regular expression for a pattern. -/
def expression (pattern : Text) : Text :=
  let t := dropBlanksAtEnd (dropByteOrderMark pattern)
  let t := escapeSlashes (escapeSpecial (t.substitute escapedBlank))
  let t := anchor pattern (leadingFolders t)
  finish (t.substituteAll [innerFolders, innerStars, givenEscape, backslashPair, sets])

/-- A line that is no pattern: blank, a comment, or ending with a lone backslash. -/
def isVoid (t : Text) : Bool :=
  t.allBlank || Text.startsWith "#" t || (t.spanEnd (· == '\\')).2.length == 1

/-- A backslash before a first `!` or `#` is dropped. -/
def literalStart : Text → Text
  | '\\' :: '!' :: t => '!' :: t
  | '\\' :: '#' :: t => '#' :: t
  | t => t

end Ignore

/-- A pattern whose regular expression cannot be read. -/
structure IgnoreFault where
  expression : Text
  fault : Expression.Fault
  deriving DecidableEq, Repr

def IgnoreFault.message (f : IgnoreFault) : Text :=
  "Invalid regular expression: /" ++ f.expression ++ "/i: " ++ f.fault.message

structure IgnoreRule where
  /-- The rule takes paths back in. -/
  negated : Bool
  expression : Expression
  deriving DecidableEq, Repr

namespace IgnoreRule

/-- The rule that a line gives, if it gives one.  A pattern with nothing in it is found everywhere, so
that a lone `!` takes all paths back in. -/
def parse (line : Text) : Except IgnoreFault (Option IgnoreRule) :=
  let (negated, pattern) := match line with
    | '!' :: t => (true, t)
    | t => (false, t)
  let expression := Ignore.expression (Ignore.literalStart pattern)
  if Ignore.isVoid line then .ok none
  else
    match Expression.parse expression with
    | .error fault => .error { expression, fault }
    | .ok e => .ok (some { negated, expression := e })

/-- The rules that lines give, or the first fault. -/
def parseAll (lines : List Text) : Except IgnoreFault (List IgnoreRule) :=
  (lines.mapM parse).map fun rules => rules.filterMap id

/-- The last rule that is found in a path decides. -/
def ignored (rules : List IgnoreRule) (p : Text) : Bool :=
  ((rules.reverse.find? fun rule => rule.expression.found p).map fun rule => !rule.negated).getD false

/-- The paths that the rules in the lines leave out. -/
def reader (lines : List Text) : Except Text (Text → Bool) :=
  ((parseAll lines).mapError IgnoreFault.message).map ignored

end IgnoreRule

end FixedForm
