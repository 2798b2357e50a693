import FixedForm.Line.Basic

/-!
The sequence of lines that every stage reads and changes.  A change replaces each line by any number
of entries: the line itself with new contents, or fresh lines of the same origin.
-/

namespace FixedForm

structure Buffer where
  lines : List Line
  /-- No line that ever was in the buffer has this number or a greater one. -/
  nextId : Nat
  deriving DecidableEq, Repr

/-- What takes the place of a line. -/
inductive Entry where
  /-- The line itself, with these contents. -/
  | kept (contents : Draft)
  | fresh (contents : Draft)
  deriving DecidableEq, Repr

namespace Buffer

/-- Numbers the drafts with their places, and their origins from one. -/
def ofDrafts (drafts : List Draft) : Buffer where
  lines := drafts.mapIdx fun i d => { d with id := i, origin := i + 1 }
  nextId := drafts.length

def ofTexts (texts : List Text) (shape : Shape) : Buffer :=
  ofDrafts (texts.map fun t => { text := t, shape })

def texts (b : Buffer) : List Text := b.lines.map (·.text)

/-- The lines that `entries` put in the place of `line`, and the next free number. -/
def place (line : Line) (next : Nat) : List Entry → List Line × Nat
  | [] => ([], next)
  | .kept d :: es =>
    let (rest, next) := place line next es
    ({ d with id := line.id, origin := line.origin } :: rest, next)
  | .fresh d :: es =>
    let (rest, last) := place line (next + 1) es
    ({ d with id := next, origin := line.origin } :: rest, last)

def editFrom {σ : Type} (step : σ → Line → σ × List Entry) :
    σ → Nat → List Line → σ × List Line × Nat
  | s, next, [] => (s, [], next)
  | s, next, line :: lines =>
    let (s, entries) := step s line
    let (placed, next) := place line next entries
    let (s, rest, next) := editFrom step s next lines
    (s, placed ++ rest, next)

/-- Replaces every line in order.  `step` carries a state from line to line. -/
def edit {σ : Type} (step : σ → Line → σ × List Entry) (s : σ) (b : Buffer) : σ × Buffer :=
  let (s, lines, nextId) := editFrom step s b.nextId b.lines
  (s, { lines, nextId })

/-- Changes the contents of every line. -/
def map (f : Line → Draft) (b : Buffer) : Buffer :=
  { b with lines := b.lines.map fun l => { f l with id := l.id, origin := l.origin } }

/-- Changes the contents of the line with identity `id`. -/
def modify (id : Nat) (f : Draft → Draft) (b : Buffer) : Buffer :=
  b.map fun l => if l.id == id then f l.toDraft else l.toDraft

def insertAt (id : Nat) (added : List Line) : List Line → List Line
  | [] => added
  | l :: ls => if l.id == id then l :: (added ++ ls) else l :: insertAt id added ls

/-- Puts fresh lines of the anchor's origin behind the anchor, or at the end if it is not here. -/
def insertAfter (anchor : Line) (drafts : List Draft) (b : Buffer) : Buffer :=
  let added := drafts.mapIdx fun i d => { d with id := b.nextId + i, origin := anchor.origin : Line }
  { lines := insertAt anchor.id added b.lines, nextId := b.nextId + drafts.length }

def remove (p : Line → Bool) (b : Buffer) : Buffer :=
  { b with lines := b.lines.filter fun l => !p l }

def find? (p : Line → Bool) (b : Buffer) : Option Line := b.lines.find? p

def get? (id : Nat) (b : Buffer) : Option Line := b.find? fun l => l.id == id

def holds (id : Nat) (b : Buffer) : Bool := b.lines.any fun l => l.id == id

end Buffer

end FixedForm
