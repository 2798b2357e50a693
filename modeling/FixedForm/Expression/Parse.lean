import FixedForm.Expression.Basic

/-!
Reading of regular expressions.  A backslash before a character without a meaning of its own stands
for that character, a number after it is the text of a group or else the number of a unit, and a brace
that starts no count stands for itself.  The first fault from the left is reported.
-/

namespace FixedForm.Expression

inductive Fault where
  | bareBackslash | openSet | reversedRange | reversedCounts | nothingToRepeat | openGroup | strayParen
  deriving DecidableEq, Repr

def Fault.message : Fault → Text
  | .bareBackslash => "\\ at end of pattern"
  | .openSet => "Unterminated character class"
  | .reversedRange => "Range out of order in character class"
  | .reversedCounts => "numbers out of order in \x7b\x7d quantifier"
  | .nothingToRepeat => "Nothing to repeat"
  | .openGroup => "Unterminated group"
  | .strayParen => "Unmatched ')'"

/-- The units that a letter after a backslash stands for. -/
def classRanges? : Char → Option (List (Nat × Nat))
  | 'd' => some UnitSet.digits
  | 'D' => some (UnitSet.gaps 0 UnitSet.digits)
  | 'w' => some UnitSet.words
  | 'W' => some (UnitSet.gaps 0 UnitSet.words)
  | 's' => some UnitSet.blanks
  | 'S' => some (UnitSet.gaps 0 UnitSet.blanks)
  | _ => none

def isOctal (c : Char) : Bool := '0' ≤ c && c ≤ '7'

def octalValue (digits : Text) : Nat := digits.foldl (fun n c => n * 8 + (c.toNat - 48)) 0

/-- Up to three octal digits with a value below 256, and what follows them. -/
def octal (t : Text) : Nat × Text :=
  let digits := t.takeWhile isOctal
  let kept := digits.take (if octalValue (digits.take 2) < 32 then 3 else 2)
  (octalValue kept, t.drop kept.length)

/-- The unit that a text after a backslash starts with, and what follows it. -/
def escapedUnit : Char → Text → Nat × Text
  | 'f', t => (0x0C, t)
  | 'n', t => (0x0A, t)
  | 'r', t => (0x0D, t)
  | 't', t => (0x09, t)
  | 'v', t => (0x0B, t)
  | 'c', t =>
    match t with
    | letter :: rest =>
      if letter.isAlpha then (letter.toNat % 32, rest) else (0x5C, 'c' :: t)
    | [] => (0x5C, ['c'])
  | 'x', t =>
    match Text.hex? (t.take 2) with
    | some n => if t.length < 2 then (0x78, t) else (n, t.drop 2)
    | none => (0x78, t)
  | 'u', t =>
    match Text.hex? (t.take 4) with
    | some n => if t.length < 4 then (0x75, t) else (n, t.drop 4)
    | none => (0x75, t)
  | c, t => if isOctal c then octal (c :: t) else (Text.unit c, t)

/-- One member of a set: a unit, or the units of a class. -/
inductive SetMember where
  | unit (n : Nat)
  | several (ranges : List (Nat × Nat))

def SetMember.ranges : SetMember → List (Nat × Nat)
  | .unit n => [(n, n)]
  | .several ranges => ranges

/-- The member that a text inside of brackets starts with, and what follows it. -/
def setMember : Char → Text → Except Fault (SetMember × Text)
  | '\\', [] => .error .bareBackslash
  | '\\', 'b' :: t => .ok (.unit 0x08, t)
  | '\\', 'c' :: c :: t =>
    if isWord c then .ok (.unit (c.toNat % 32), t) else .ok (.unit 0x5C, 'c' :: c :: t)
  | '\\', c :: t =>
    match classRanges? c with
    | some ranges => .ok (.several ranges, t)
    | none =>
      let (n, rest) := escapedUnit c t
      .ok (.unit n, rest)
  | c, t => .ok (.unit (Text.unit c), t)

/-- What two members with a hyphen between them stand for.  Next to a class the hyphen stands for
itself. -/
def setRange : SetMember → SetMember → Except Fault (List (Nat × Nat))
  | .unit first, .unit last => if last < first then .error .reversedRange else .ok [(first, last)]
  | a, b => .ok (a.ranges ++ [(0x2D, 0x2D)] ++ b.ranges)

/-- The members of a set up to its closing bracket, and what follows that. -/
def setMembers (ranges : List (Nat × Nat)) (t : Text) : Except Fault (List (Nat × Nat) × Text) :=
  match t with
  | [] => .error .openSet
  | ']' :: rest => .ok (ranges, rest)
  | c :: u =>
    match setMember c u with
    | .error fault => .error fault
    | .ok (first, '-' :: d :: v) =>
      if d == ']' then .ok (ranges ++ first.ranges ++ [(0x2D, 0x2D)], v)
      else
        match setMember d v with
        | .error fault => .error fault
        | .ok (second, rest) =>
          match setRange first second with
          | .error fault => .error fault
          | .ok more =>
            if rest.length < (c :: u).length then setMembers (ranges ++ more) rest
            else .error .openSet
    | .ok (first, rest) =>
      if rest.length < (c :: u).length then setMembers (ranges ++ first.ranges) rest
      else .error .openSet
termination_by t.length
decreasing_by
  · assumption
  · assumption

/-- A set after its opening bracket, and what follows its closing one. -/
def bracketed (t : Text) : Except Fault (Expression × Text) :=
  let (negated, t) := match t with
    | '^' :: t => (true, t)
    | t => (false, t)
  (setMembers [] t).map fun (ranges, rest) => (.set { negated, ranges }, rest)

/-- The greatest count; a larger one stands for it. -/
def greatestCount : Nat := Nat.pow 2 31 - 1

def countValue (digits : Text) : Nat := min digits.value greatestCount

/-- A count after its opening brace: the least and the most, and what follows the closing brace. -/
def count? (t : Text) : Option (Nat × Option Nat × Text) := do
  let (least, t) ← t.digits?
  match t with
  | '\x7d' :: t => some (countValue least, some (countValue least), t)
  | ',' :: '\x7d' :: t => some (countValue least, none, t)
  | ',' :: t =>
    let (most, t) ← Text.digits? t
    match t with
    | '\x7d' :: t => some (countValue least, some (countValue most), t)
    | _ => none
  | _ => none

inductive Token where
  /-- What may be repeated. -/
  | atom (e : Expression)
  | place (e : Expression)
  | times (least : Nat) (most : Option Nat)
  | bar
  | openPlain
  | openAhead
  | openGroup
  | close
  | fault (fault : Fault)

/-- What a text after a backslash starts with, in an expression with so many groups. -/
def escape (groups : Nat) (c : Char) (t : Text) : Token × Text :=
  let number := (c :: t).takeWhile Char.isDigit
  if c == 'b' then (.place (.wordEdge false), t)
  else if c == 'B' then (.place (.wordEdge true), t)
  else if c != '0' && c.isDigit && Text.value number ≤ groups then
    (.atom (.again (Text.value number)), t.drop (number.length - 1))
  else
    match classRanges? c with
    | some ranges => (.atom (.set { ranges }), t)
    | none =>
      let (n, rest) := escapedUnit c t
      (.atom (.unit n), rest)

def token (groups : Nat) : Char → Text → Token × Text
  | '|', t => (.bar, t)
  | '(', '?' :: ':' :: t => (.openPlain, t)
  | '(', '?' :: '=' :: t => (.openAhead, t)
  | '(', t => (.openGroup, t)
  | ')', t => (.close, t)
  | '^', t => (.place .textStart, t)
  | '$', t => (.place .textEnd, t)
  | '*', t => (.times 0 none, t)
  | '+', t => (.times 1 none, t)
  | '?', t => (.times 0 (some 1), t)
  | '.', t => (.atom (.set { negated := true, ranges := UnitSet.lineEnds }), t)
  | '\x7b', t =>
    match count? t with
    | some (least, most, rest) => (.times least most, rest)
    | none => (.atom (.unit 0x7B), t)
  | '[', t =>
    match bracketed t with
    | .ok (e, rest) => (.atom e, rest)
    | .error fault => (.fault fault, [])
  | '\\', [] => (.fault .bareBackslash, [])
  | '\\', c :: t => escape groups c t
  | c, t => (.atom (.unit (Text.unit c)), t)

def tokens (groups : Nat) (t : Text) : List Token :=
  match t with
  | [] => []
  | c :: u =>
    let (token, rest) := token groups c u
    if rest.length < (c :: u).length then token :: tokens groups rest else [token]
termination_by t.length
decreasing_by assumption

/-- The number of groups that keep their text.  `inSet` says that a bracket is open. -/
def groupCount (inSet : Bool) : Text → Nat
  | [] => 0
  | '\\' :: _ :: t => groupCount inSet t
  | '[' :: t => groupCount true t
  | ']' :: t => groupCount false t
  | '(' :: '?' :: t => groupCount inSet t
  | '(' :: t => (if inSet then 0 else 1) + groupCount inSet t
  | _ :: t => groupCount inSet t

/-- What a parenthesis opens. -/
inductive Opening where
  | plain
  | ahead
  | group (number : Nat)

def Opening.close (e : Expression) : Opening → Expression
  | .plain => e
  | .ahead => .ahead e
  | .group number => .group number e

/-- A part between parentheses that is being read. -/
structure Level where
  opening : Opening
  /-- The alternatives before the last bar. -/
  earlier : Option Expression := none
  /-- The terms after it. -/
  terms : Expression := .empty
  /-- The last term, if it may be repeated. -/
  last : Option Expression := none

namespace Level

def settled (l : Level) : Expression :=
  match l.last with
  | some e => .sequence l.terms e
  | none => l.terms

def atom (e : Expression) (l : Level) : Level := { l with terms := l.settled, last := some e }

def place (e : Expression) (l : Level) : Level :=
  { l with terms := .sequence l.settled e, last := none }

def whole (l : Level) : Expression :=
  match l.earlier with
  | some e => .either e l.settled
  | none => l.settled

def bar (l : Level) : Level := { opening := l.opening, earlier := some l.whole }

end Level

/-- Reads tokens with the open levels, innermost first; `next` is the number of the next group. -/
def build (level : Level) (outer : List Level) (next : Nat) : List Token → Except Fault Expression
  | [] => if outer.isEmpty then .ok level.whole else .error .openGroup
  | .atom e :: ts => build (level.atom e) outer next ts
  | .place e :: ts => build (level.place e) outer next ts
  | .bar :: ts => build level.bar outer next ts
  | .openPlain :: ts => build { opening := .plain } (level :: outer) next ts
  | .openAhead :: ts => build { opening := .ahead } (level :: outer) next ts
  | .openGroup :: ts => build { opening := .group next } (level :: outer) (next + 1) ts
  | .close :: ts =>
    match outer with
    | [] => .error .strayParen
    | parent :: outer => build (parent.atom (level.opening.close level.whole)) outer next ts
  | .times least most :: ts =>
    match level.last with
    | none => .error .nothingToRepeat
    | some body =>
      if (most.map fun most => decide (most < least)).getD false then .error .reversedCounts
      else
        build { level with terms := .sequence level.terms (.times least most body), last := none }
          outer next ts
  | .fault fault :: _ => .error fault

def parse (t : Text) : Except Fault Expression :=
  build { opening := .plain } [] 1 (tokens (groupCount false t) t)

end FixedForm.Expression
