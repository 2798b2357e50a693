import FixedForm.Command.Numeral
import FixedForm.Text.Case

/-!
The arguments of the command line.  An option is read wherever it stands, and what is neither an
option nor the value of one is a file.
-/

namespace FixedForm

/-- The options of the command. -/
inductive Setting where
  | out | root | outDir | extensions | config | simplify | leadingDeclarations | quiet
  deriving DecidableEq, Repr

/-- An option that is on or off. -/
def Setting.isSwitch : Setting → Bool
  | .simplify | .leadingDeclarations | .quiet => true
  | _ => false

/-- What is given for an option. -/
inductive Given where
  | text (t : Text)
  | switch (on : Bool)
  /-- The option is given more than once. -/
  | several
  /-- Parts of the option are given, as in `--out.part=x`. -/
  | parts
  deriving DecidableEq, Repr

namespace Given

/-- An empty text is as good as none, and so is a switch that is off. -/
def counts : Given → Bool
  | .text t => !t.isEmpty
  | .switch on => on
  | .several | .parts => true

/-- The text to be used as a path. -/
def path : Given → Except Text Text
  | .text t => .ok t
  | .switch on =>
    .error ("The \"paths[0]\" argument must be of type string. Received type boolean (" ++
      (if on then "true" else "false" : Text) ++ ")")
  | .several =>
    .error "The \"paths[0]\" argument must be of type string. Received an instance of Array"
  | .parts =>
    .error "The \"paths[0]\" argument must be of type string. Received an instance of Object"

/-- The text to be used as a list with commas. -/
def list : Given → Except Text Text
  | .text t => .ok t
  | _ => .error "argv.ext.split is not a function"

/-- What an option has after one more value.  A switch keeps the last one. -/
def join (isSwitch : Bool) : Option Given → Given → Given
  | none, new => new
  | some .several, _ => .several
  | some .parts, .parts => .parts
  | some _, new => if isSwitch && new != .parts then new else .several

end Given

structure Arguments where
  files : List Text := []
  /-- The options that are given. -/
  given : List (Setting × Given) := []
  /-- The names with hyphens that were met. -/
  met : List Text := []
  deriving DecidableEq, Repr

namespace Arguments

/-- The names of the options. -/
def names : List (Text × Setting) := [
  ("out", .out), ("o", .out), ("root", .root), ("r", .root), ("out-dir", .outDir),
  ("outDir", .outDir), ("ext", .extensions), ("config", .config), ("c", .config),
  ("simplify", .simplify), ("leading-decls", .leadingDeclarations),
  ("leadingDecls", .leadingDeclarations), ("quiet", .quiet), ("q", .quiet)]

/-- Names that are also found when an option has hyphens around its name. -/
def plainNames : List (Text × Setting) := [
  ("out", .out), ("root", .root), ("ext", .extensions), ("config", .config), ("simplify", .simplify),
  ("quiet", .quiet)]

/-- Switches that ask for a text about the command. -/
def aboutNames : List Text := ["help", "h", "version"]

/-- `key` without hyphens and underscores; the letter after each, but for those at the start, is a
capital. -/
def joinWords (capital : Bool) : Text → Text
  | [] => []
  | c :: t =>
    if c == '-' || c == '_' then joinWords true t
    else (if capital then c.toUpper else c) :: joinWords false t

/-- The name that a name with hyphens stands for.  Only a name in both cases keeps its capitals. -/
def plainName (name : Text) : Text :=
  let mixed := name.any Char.isUpper && name.any Char.isLower
  match if mixed then name else name.lower with
  | '_' :: t => joinWords false t
  | t => joinWords false (t.dropWhile (· == '-'))

/-- The option whose kind a name has.  A name with hyphens is known from its second time on. -/
def known? (a : Arguments) (name : Text) : Option Setting :=
  List.lookup name names <|>
    if a.met.contains name then List.lookup (plainName name) plainNames else none

def isSwitch (a : Arguments) (name : Text) : Bool :=
  aboutNames.contains name || ((a.known? name).map Setting.isSwitch).getD false

/-- What an option has that comes without a value. -/
def bare (a : Arguments) (name : Text) : Given :=
  match a.known? name with
  | some s => if s.isSwitch then .switch true else .text []
  | none => .switch true

/-- The options that a key is for.  Of a key with points only the name before the first one counts. -/
def settings (key : Text) : List Setting :=
  let name := key.takeWhile (· != '.')
  let plain := if key.contains '-' then List.lookup (plainName name) plainNames else none
  ((List.lookup name names).toList ++ plain.toList).eraseDups

def value? (a : Arguments) (s : Setting) : Option Given := List.lookup s a.given

/-- What is given for an option, if it counts. -/
def counting? (a : Arguments) (s : Setting) : Option Given := (a.value? s).filter Given.counts

/-- Gives one more value for an option.  A text turns a switch on only if it is `true`. -/
def putOne (a : Arguments) (value : Given) (s : Setting) : Arguments :=
  let value := match value with
    | .text t => if s.isSwitch then .switch (t == "true".toList) else .text t
    | v => v
  let value := Given.join s.isSwitch (a.value? s) value
  { a with given := (s, value) :: a.given.filter fun (other, _) => other != s }

def put (a : Arguments) (key : Text) (value : Given) : Arguments :=
  let a := if key.contains '-' then { a with met := key :: a.met } else a
  (settings key).foldl (fun a s => a.putOne (if key.contains '.' then .parts else value) s) a

/-- A file.  A number among the files is taken in its shortest spelling. -/
def file (a : Arguments) (arg : Text) : Arguments :=
  { a with files := a.files ++ [(Numeral.spelling? arg).getD arg] }

/-- A number below zero is no option. -/
def isNegative : Text → Bool
  | '-' :: t =>
    match t.span Char.isDigit with
    | (whole, []) => !whole.isEmpty
    | (_, '.' :: digits) => Text.isDigits digits
    | _ => false
  | _ => false

/-- Digits, with or without a fraction and an exponent. -/
def isNumber (t : Text) : Bool :=
  let unsigned := fun (t : Text) => match t with
    | '-' :: t => t
    | t => t
  match Text.digits? (unsigned t) with
  | none => false
  | some (_, rest) =>
    let rest := match rest with
      | '.' :: u => ((Text.digits? u).map Prod.snd).getD rest
      | _ => rest
    match rest with
    | [] => true
    | 'e' :: exponent => Text.isDigits (unsigned exponent)
    | _ => false

/-- One or two hyphens and something else. -/
def isOption : Text → Bool
  | '-' :: '-' :: c :: _ => c != '-'
  | '-' :: c :: _ => c != '-'
  | _ => false

def isTruth (t : Text) : Bool := t == "true".toList || t == "false".toList

/-- Gives an option the next argument, if that `fits` and the option is no switch, or is `true` or
`false`.  Says whether the next argument was used. -/
def putNext (a : Arguments) (key : Text) (next : Option Text) (fits : Text → Bool) :
    Arguments × Bool :=
  match next.filter fun n => isTruth n || (!a.isSwitch key && fits n) with
  | some n => (a.put key (.text n), true)
  | none => (a.put key (a.bare key), false)

/-- A value between quotes of one kind. -/
def unquote (t : Text) : Text :=
  match t with
  | c :: _ :: _ => if isQuote c then (Text.between? c c t).getD t else t
  | _ => t

/-- What stands before the first line end. -/
def firstLine (t : Text) : Text := t.takeWhile fun c => !isLineEnd c

/-- An argument with two hyphens, after these.  A name without a value ends with its line. -/
def long (a : Arguments) (body : Text) (next : Option Text) : Arguments × Bool :=
  let line := firstLine body
  match body.span (· != '='), (line.drop 1).contains '=', Text.after? "no-" line with
  | (key, _ :: value), true, _ => (a.put key (.text (unquote value)), false)
  | _, _, some (c :: key) => (a.put (c :: key) (.switch false), false)
  | _, _, _ => a.putNext line next fun n => !Text.startsWith "-" n || isNegative n

/-- Options of one letter each, and the last letter if it has no value yet. -/
def letters (a : Arguments) : Text → Arguments × Option Char
  | [] => (a, none)
  | [c] => (a, if c == '-' then none else some c)
  | c :: d :: rest =>
    if d == '=' && !rest.isEmpty then (a.put [c] (.text rest), none)
    else if d == '-' && rest.isEmpty then letters (a.put [c] (.text "-")) (d :: rest)
    else if (c.isAlpha && isNumber (d :: rest)) || (!isWord d && !rest.isEmpty) then
      (a.put [c] (.text (d :: rest)), none)
    else letters (a.put [c] (a.bare [c])) (d :: rest)

/-- An argument with one hyphen, after that. -/
def short (a : Arguments) (body : Text) (next : Option Text) : Arguments × Bool :=
  match firstLine body with
  | c :: '.' :: d :: part =>
    match body.span (· != '='), part.contains '=' with
    | (key, _ :: value), true => (a.put key (.text value), false)
    | _, _ => a.putNext (c :: '.' :: d :: part) next fun n => !Text.startsWith "-" n
  | _ =>
    match a.letters body with
    | (a, none) => (a, false)
    | (a, some c) => a.putNext [c] next fun n => !isOption n || isNegative n

/-- Three hyphens or more, and nothing or an equals sign. -/
def isRule (arg : Text) : Bool :=
  let rest := arg.dropWhile (· == '-')
  rest.length + 3 ≤ arg.length && (rest.isEmpty || Text.startsWith "=" rest)

/-- Reads one argument, given the next, and says whether the next was used. -/
def readOne (a : Arguments) (arg : Text) (next : Option Text) : Arguments × Bool :=
  if isRule arg || isNegative arg then (a.file arg, false)
  else
    match arg with
    | '-' :: '-' :: body =>
      if (firstLine body).isEmpty then (a.file arg, false) else a.long body next
    | '-' :: c :: body => a.short (c :: body) next
    | _ => (a.file arg, false)

/-- Reads the arguments from left to right.  After two hyphens all are files. -/
def parseFrom (a : Arguments) : List Text → Arguments
  | [] => a
  | arg :: rest =>
    if arg == "--".toList then rest.foldl file a
    else
      let (a, used) := a.readOne arg rest.head?
      parseFrom a (rest.drop (if used then 1 else 0))
termination_by args => args.length
decreasing_by
  simp only [List.length_cons, List.length_drop]
  omega

def parse (args : List Text) : Arguments := parseFrom {} args

end Arguments

end FixedForm
