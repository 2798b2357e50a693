import FixedForm.Analysis
import FixedForm.Reference.Bracket
import FixedForm.Vocabulary

/-!
References to arrays.  Every `name(indices)` whose name is a vector or a matrix becomes `name[index]`.
An element that is a whole argument of a call is passed by its address.
-/

namespace FixedForm

/-- What the references of a text are read against. -/
structure ReferenceScope where
  symbols : SymbolTable
  simplify : Bool

namespace Reference

/-- The leading dimension of a matrix.  A matrix without extents has none. -/
def leadingDimension (s : Symbol) : Text := s.dimensions.head?.getD "undefined"

/-- The index of a reference with the given index terms, before and after their own references were
settled.  A wrong number of terms gives no index. -/
def bracket? (s : Symbol) (reference : Text) (terms settled : List Text) :
    Option Text × List Issue :=
  match s.kind, settled with
  | .vector, [index] => (some (vectorSubscript index), [])
  | .matrix, [row, column] =>
    (some (matrixSubscript row column (leadingDimension s)),
      if terms.any (·.contains ',') then [.ambiguous reference .nestedList] else [])
  | kind, _ => (none, [.ambiguous reference (.indexCount kind s.name terms.length)])

/-- How an element is passed to the procedure whose argument list it stands in. -/
def passing (s : Symbol) (reference : Text) (callee : Option Text) (whole : Bool) :
    Text × List Issue :=
  match callee with
  | none => ([], [])
  | some callee =>
    if whole then
      ("&", if s.kind == .matrix then [.foreignDimension reference callee] else [])
    else ([], [.computedArgument reference callee])

/-- The last character that is no blank. -/
def lastMark (t : Text) : Option Char := t.trimEnd.getLast?

/-- The first character that is no blank. -/
def firstMark (t : Text) : Option Char := t.trimStart.head?

/-- Between `before` and `after` stands a whole argument. -/
def isWhole (before after : Text) : Bool :=
  (lastMark before == some '(' || lastMark before == some ',') &&
    (firstMark after == some ',' || firstMark after == some ')')

/-- A reference in the output, between `before` and `after` and in the argument list of `callee`. -/
def render (scope : ReferenceScope) (s : Symbol) (inner : Text) (terms settled : List Text)
    (callee : Option Text) (before after : Text) : Text × List Issue :=
  let reference := s.name ++ "(" ++ inner ++ ")"
  match bracket? s reference terms settled with
  | (none, issues) => (s.name ++ "(" ++ Text.join "," settled ++ ")", issues)
  | (some bracket, issues) =>
    let bracket := if scope.simplify then simplifySubscript bracket else bracket
    let (mark, more) := passing s reference callee (isWhole before after)
    (mark ++ s.name ++ bracket, issues ++ more)

/-- A name before a parenthesis that is neither an array nor callable. -/
def unresolved (top : Bool) (symbol : Option Symbol) (name before : Text) : List Issue :=
  match symbol with
  | some s => if s.kind == .unknown then [.unknownReference name] else []
  | none =>
    if top && !isReserved name && !Text.startsWith "::" before.trimEnd.reverse then
      [.undeclaredReference name]
    else []

set_option linter.unusedVariables false in
/-- Settles the references in `rest`, which starts at place `i` of its text and follows `out`.
`stack` holds the open parentheses, innermost first, with the procedure whose argument list each
opens.  `call` is the place of the parenthesis after the name in a CALL, with that name. -/
def scan (scope : ReferenceScope) (top : Bool) (call : Option (Nat × Text)) (i : Nat)
    (stack : List (Option Text)) (out rest : Text) : Text × List Issue :=
  match rest with
  | [] => (out, if top && !stack.isEmpty then [.mismatch (.unclosed '(')] else [])
  | c :: t =>
    if isQuote c then
      match h : t.dropWhile (· != c) with
      | [] => scan scope top call (i + 1 + t.length) stack (out ++ c :: t) []
      | _ :: after =>
        let literal := c :: t.takeWhile (· != c) ++ [c]
        scan scope top call (i + literal.length) stack (out ++ literal) after
    else if c.isDigit || c == '.' then
      let number := c :: t.takeWhile isOperand
      scan scope top call (i + number.length) stack (out ++ number) (t.dropWhile isOperand)
    else if c.isAlpha || c == '_' then
      let name := c :: t.takeWhile isWord
      let afterName := t.dropWhile isWord
      let gap := afterName.takeWhile isBlank
      let group := afterName.dropWhile isBlank
      let opening := i + name.length + gap.length
      if group.head? != some '(' then
        scan scope top call (i + name.length) stack (out ++ name) afterName
      else match scope.symbols.array? name with
      | some s =>
        match Text.closing? group with
        | none =>
          let (out, later) := scan scope top call i stack (out ++ c :: t) []
          (out, .unclosedReference s.name :: later)
        | some closing =>
          let inner := (group.take closing).drop 1
          let after := group.drop (closing + 1)
          let terms := Text.listItems inner
          let settled := terms.attach.map fun ⟨term, _⟩ => scan scope false none 0 [] [] term
          let (text, issues) :=
            render scope s inner terms (settled.map Prod.fst) stack.head?.join out after
          let (out, later) := scan scope top call (opening + closing + 1) stack (out ++ text) after
          (out, (Text.splitCommas inner).2.map (Issue.mismatchInSubscript · s.name) ++
            settled.flatMap Prod.snd ++ issues ++ later)
      | none =>
        if scope.symbols.isCallable name then
          scan scope top call (opening + 1) (some name :: stack) (out ++ name ++ gap ++ "(")
            (group.drop 1)
        else
          let issues :=
            if (call.map Prod.fst) == some opening then []
            else unresolved top (scope.symbols.lookup? name) name out
          let (out, later) := scan scope top call (i + name.length) stack (out ++ name) afterName
          (out, issues ++ later)
    else if c == '(' then
      let callee := call.bind fun (place, name) => if place == i then some name else none
      scan scope top call (i + 1) (callee :: stack) (out ++ [c]) t
    else if c == ')' && stack.isEmpty then
      let (out, later) := scan scope top call (i + 1) [] (out ++ [c]) t
      (out, .mismatch (.stray ')') :: later)
    else
      scan scope top call (i + 1) (if c == ')' then stack.drop 1 else stack) (out ++ [c]) t
termination_by rest.length
decreasing_by
  all_goals
    have hWord := Text.length_dropWhile_le isWord t
    have hBlank := Text.length_dropWhile_le isBlank (t.dropWhile isWord)
    have hOperand := Text.length_dropWhile_le isOperand t
    have hQuote := Text.length_dropWhile_le (· != c) t
    simp only [List.length_cons, List.length_nil, List.length_drop]
    try omega
  · rw [h, List.length_cons] at hQuote
    omega
  · have hTerm : term.length ≤ inner.length := Text.length_le_of_mem_listItems ‹_›
    simp only [inner, group, afterName, List.length_drop, List.length_take] at hTerm
    omega

/-- The first `call name(` in a text that starts at place `i` and follows `before`: the place of
the parenthesis, and the name. -/
def callTarget? (before : Text) (i : Nat) : Text → Option (Nat × Text)
  | [] => none
  | c :: t =>
    let here : Option (Nat × Text) := do
      guard before.wordEnds
      let rest ← Text.after? "call" (c :: t)
      let rest ← rest.blanks?
      let (name, rest) ← Text.word? rest
      guard (Text.startsWith "(" rest.trimStart)
      some (i + ((c :: t).length - rest.trimStart.length), name)
    here <|> callTarget? (c :: before) (i + 1) t

/-- A text with its references settled. -/
def linearize (scope : ReferenceScope) (t : Text) : Text × List Issue :=
  scan scope true (callTarget? [] 0 t) 0 [] [] t

/-- Lines that hold references. -/
def holdsReferences : Shape → Bool
  | .loop | .loopEnd | .conditional | .goto | .call | .returns | .assignment | .other => true
  | _ => false

end Reference

namespace Analysis

def referenceScope (a : Analysis) : ReferenceScope :=
  { symbols := a.symbols, simplify := a.options.simplifySubscripts }

/-- Settles the references of a text and notes the issues at a line. -/
def linearize (a : Analysis) (line : Option Nat) (t : Text) : Analysis × Text :=
  let (text, issues) := Reference.linearize a.referenceScope t
  (a.reportAll line issues, text)

/-- Settles the references of a line. -/
def linearizeLine (a : Analysis) (line : Line) : Analysis × List Entry :=
  if Reference.holdsReferences line.shape then
    let (a, text) := a.linearize line.id line.text
    (a, [.kept { line.toDraft with text }])
  else (a, [.kept line.toDraft])

end Analysis

end FixedForm
