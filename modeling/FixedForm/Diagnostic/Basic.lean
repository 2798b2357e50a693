import FixedForm.Diagnostic.Issue

/-!
Diagnostics: issues with the line they belong to, in the order in which they were found, each once.
-/

namespace FixedForm

structure Diagnostic where
  severity : Severity
  code : Code
  message : Text
  /-- The identity of the line, or none for the whole unit. -/
  line : Option Nat
  deriving DecidableEq, Repr

namespace Diagnostic

/-- The same finding at the same place, whatever the severity. -/
def same (d e : Diagnostic) : Bool := d.code == e.code && d.message == e.message && d.line == e.line

/-- Adds a diagnostic unless the same finding is there. -/
def add (ds : List Diagnostic) (d : Diagnostic) : List Diagnostic :=
  if ds.any (same d) then ds else ds ++ [d]

def ofIssue (line : Option Nat) (issue : Issue) : Diagnostic :=
  { severity := issue.severity, code := issue.code, message := issue.message, line }

def forLine (ds : List Diagnostic) (line : Option Nat) : List Diagnostic :=
  ds.filter fun d => d.line == line

def byCode (ds : List Diagnostic) (code : Code) : List Diagnostic :=
  ds.filter fun d => d.code == code

/-- The diagnostics that belong to none of the lines `present`. -/
def detached (ds : List Diagnostic) (present : List Nat) : List Diagnostic :=
  ds.filter fun d => (d.line.map fun id => !present.contains id).getD true

/-- A diagnostic as a comment of the output. -/
def render (d : Diagnostic) : Text := "// f77cpp: " ++ d.message

end Diagnostic

end FixedForm
