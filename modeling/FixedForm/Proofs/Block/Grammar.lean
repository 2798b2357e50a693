import FixedForm.Block.Structure
import FixedForm.Proofs.Text.Classes
import FixedForm.Proofs.Text.Nesting

/-! Structured code: leaf statements, block IF chains, loops that end with their own statement, and
groups of loops that end at one label.  The lines carry the proof of what they say, so that a value of
`Code` is a well-formed piece of a unit. -/
namespace FixedForm.Block
open Text

/-- A classified line, taken apart into its label and its statement. -/
structure Says (l : Line) (label : Option Text) (statement : Text) : Prop where
  classified : Statement.classify l.text = (l.shape, l.label)
  label_eq : (Labelled.split l.text).label = label
  statement_eq : (Labelled.split l.text).statement = statement

inductive IfThen : Text → Prop where
  | intro {g₁ cond g₂ : Text} (h₁ : g₁.allBlank = true) (hc : Nested cond)
      (h₂ : g₂.allBlank = true) : IfThen ("if" ++ g₁ ++ "(" ++ cond ++ ")" ++ g₂ ++ "then")

inductive ElseIf : Text → Prop where
  | intro {g statement : Text} (h : g.allBlank = true) (hs : IfThen statement) :
      ElseIf ("else" ++ g ++ statement)

inductive EndOf (word : Text) : Text → Prop where
  | intro {g : Text} (h : g.allBlank = true) : EndOf word ("end" ++ g ++ word)

/-- The label between `do` and the counter, with or without a comma behind it. -/
inductive Target : Option Text → Text → Prop where
  | none : Target none []
  | plain {k g : Text} (hk : k.isDigits = true) (h : g.allBlank = true) : Target (some k) (k ++ g)
  | comma {k g g' : Text} (hk : k.isDigits = true) (h : g.allBlank = true)
      (h' : g'.allBlank = true) : Target (some k) (k ++ g ++ "," ++ g')

/-- Two or three bounds within one line, none with a comma outside its delimiters. -/
inductive Bounds : Text → Prop where
  | two {first last : Text} (h₁ : NestedItem first) (h₂ : NestedItem last)
      (hline : (first ++ "," ++ last).hasLineEnd = false) : Bounds (first ++ "," ++ last)
  | three {first last step : Text} (h₁ : NestedItem first) (h₂ : NestedItem last)
      (h₃ : NestedItem step) (hline : (first ++ "," ++ last ++ "," ++ step).hasLineEnd = false) :
      Bounds (first ++ "," ++ last ++ "," ++ step)

/-- The statement that opens a loop, with the label that ends it. -/
inductive DoHead (label : Option Text) : Text → Prop where
  | counted {g target counter g' bounds : Text} (hg : g.allBlank = true) (hne : g ≠ [])
      (ht : Target label target) (hc : IsName counter) (hg' : g'.allBlank = true)
      (hb : Bounds bounds) : DoHead label ("do" ++ g ++ target ++ counter ++ g' ++ "=" ++ bounds)
  | whileTrue {g target g' cond : Text} (hg : g.allBlank = true) (hne : g ≠ [])
      (ht : Target label target) (hg' : g'.allBlank = true) (hc : Nested cond) :
      DoHead label ("do" ++ g ++ target ++ "while" ++ g' ++ "(" ++ cond ++ ")")

/-- An IF with one statement. -/
inductive LogicalIf : Text → Prop where
  | intro {g cond statement : Text} (h : g.allBlank = true) (hc : Nested cond)
      (hs : statement.trim ≠ "then".toList) :
      LogicalIf ("if" ++ g ++ "(" ++ cond ++ ")" ++ statement)

def isBrace (c : Char) : Bool := c == '\x7b' || c == '\x7d'

def braceFree (t : Text) : Bool := t.all fun c => !isBrace c

/-- Lines that the stage passes on as they are. -/
def isMarker : Shape → Bool
  | .comment | .blank | .label => true
  | _ => false

theorem isMarker_shape (s : Text) : isMarker (Statement.shape s) = false := by
  have hforms : ∀ f ∈ Statement.forms, isMarker f.1 = false := by decide
  rw [Statement.shape]
  cases h : Statement.forms.find? fun f => f.2 s with
  | none => rfl
  | some f => exact hforms f (List.mem_of_find?_eq_some h)

/-- Statements that neither open nor close anything: assignments, calls, jumps and the like. -/
def isSimple : Shape → Bool
  | .loop | .loopEnd | .conditional => false
  | shape => !isMarker shape

/-- A simple statement, or the IF with one statement, without braces. -/
structure IsLeaf (l : Line) (label : Option Text) : Prop where
  reads : ∃ statement, Says l label statement ∧ (isSimple l.shape = true ∨ LogicalIf statement)
  free : braceFree l.text = true

/-- A line that ends the loops with label `k`: a labelled `continue` or a labelled leaf. -/
def EndsLoops (k : Text) (l : Line) : Prop := Says l (some k) "continue" ∨ IsLeaf l (some k)

/-- An unlabelled line of the given form. -/
def Unlabelled (form : Text → Prop) (l : Line) : Prop := ∃ s, Says l none s ∧ form s

/-- The pieces of structured code. -/
inductive Form where
  | body
  /-- What follows the first branch of an IF. -/
  | chain
  /-- What follows the first head of the loops that end at a label. -/
  | tail (label : Text)

inductive Code : Form → Type where
  | done : Code .body
  | leaf (line : Line) (label : Option Text) (h : IsLeaf line label) (rest : Code .body) :
      Code .body
  | block (head : Line) (h : Unlabelled IfThen head) (body : Code .body) (chain : Code .chain)
      (rest : Code .body) : Code .body
  | endIf (last : Line) (h : Unlabelled (EndOf "if") last) : Code .chain
  | elseIf (head : Line) (h : Unlabelled ElseIf head) (body : Code .body) (chain : Code .chain) :
      Code .chain
  | otherwise (head : Line) (h : Unlabelled (· = "else".toList) head) (body : Code .body)
      (last : Line) (h' : Unlabelled (EndOf "if") last) : Code .chain
  | loop (head : Line) (h : Unlabelled (DoHead none) head) (body : Code .body) (last : Line)
      (h' : Unlabelled (EndOf "do") last) (rest : Code .body) : Code .body
  | group (label : Text) (head : Line) (h : Unlabelled (DoHead (some label)) head)
      (tail : Code (.tail label)) (rest : Code .body) : Code .body
  /-- A further loop ends at the same label. -/
  | again (label : Text) (body : Code .body) (head : Line)
      (h : Unlabelled (DoHead (some label)) head) (tail : Code (.tail label)) : Code (.tail label)
  | ends (label : Text) (body : Code .body) (last : Line) (h : EndsLoops label last) :
      Code (.tail label)

namespace Code

def lines : {f : Form} → Code f → List Line
  | _, .done => []
  | _, .leaf line _ _ rest => line :: rest.lines
  | _, .block head _ body chain rest => head :: body.lines ++ chain.lines ++ rest.lines
  | _, .endIf last _ => [last]
  | _, .elseIf head _ body chain => head :: body.lines ++ chain.lines
  | _, .otherwise head _ body last _ => head :: body.lines ++ [last]
  | _, .loop head _ body last _ rest => head :: body.lines ++ last :: rest.lines
  | _, .group _ head _ tail rest => head :: tail.lines ++ rest.lines
  | _, .again _ body head _ tail => body.lines ++ head :: tail.lines
  | _, .ends _ body last _ => body.lines ++ [last]

/-- The labels of a piece of code: one for each labelled leaf and one for each group of loops. -/
def labels : {f : Form} → Code f → List Text
  | _, .done => []
  | _, .leaf _ label _ rest => label.toList ++ rest.labels
  | _, .block _ _ body chain rest => body.labels ++ chain.labels ++ rest.labels
  | _, .endIf _ _ => []
  | _, .elseIf _ _ body chain => body.labels ++ chain.labels
  | _, .otherwise _ _ body _ _ => body.labels
  | _, .loop _ _ body _ _ rest => body.labels ++ rest.labels
  | _, .group label _ _ tail rest => label :: tail.labels ++ rest.labels
  | _, .again _ body _ _ tail => body.labels ++ tail.labels
  | _, .ends _ body _ _ => body.labels

end Code

end FixedForm.Block
