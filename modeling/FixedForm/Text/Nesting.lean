import FixedForm.Text.Basic

/-!
Nesting of parentheses, brackets and braces: the partner of a parenthesis, and lists whose commas
count only outside every pair of delimiters.
-/

namespace FixedForm

/-- The closing delimiter of an opening one. -/
def closer? : Char → Option Char
  | '(' => some ')'
  | '[' => some ']'
  | '\x7b' => some '\x7d'
  | _ => none

/-- The opening delimiter of a closing one. -/
def opener? : Char → Option Char
  | ')' => some '('
  | ']' => some '['
  | '\x7d' => some '\x7b'
  | _ => none

/-- A fault in the nesting of delimiters. -/
inductive Mismatch where
  /-- A closing delimiter where nothing is open. -/
  | stray (closer : Char)
  /-- A closing delimiter that is not the partner of the innermost open one. -/
  | crossed (opener closer : Char)
  /-- The innermost delimiter still open at the end. -/
  | unclosed (opener : Char)
  deriving DecidableEq, Repr

def Mismatch.message : Mismatch → Text
  | .stray c => "unmatched '" ++ [c] ++ "'"
  | .crossed o c => "unmatched '" ++ [o] ++ "'; got '" ++ [c] ++ "'"
  | .unclosed o => "unclosed '" ++ [o] ++ "'"

namespace Text

/-- Where the first `up` of a text is balanced by a `down`, counting places from `i` and starting
with `depth` of them open. -/
def balance (up down : Char) : (depth i : Nat) → Text → Option Nat
  | _, _, [] => none
  | depth, i, c :: t =>
    if c == up then balance up down (depth + 1) (i + 1) t
    else if c == down then
      match depth with
      | 0 => balance up down 0 (i + 1) t
      | 1 => some i
      | d + 2 => balance up down (d + 1) (i + 1) t
    else balance up down depth (i + 1) t

/-- The place of the `)` that balances the first `(`. -/
def closing? (t : Text) : Option Nat := balance '(' ')' 0 0 t

/-- The place of the `(` that opens the last `)`. -/
def opening? (t : Text) : Option Nat :=
  (balance ')' '(' 0 0 t.reverse).map fun p => t.length - 1 - p

/-- The open delimiters after `c`, innermost first, and the fault that `c` shows. -/
def nest (stack : List Char) (c : Char) : List Char × List Mismatch :=
  if (closer? c).isSome then (c :: stack, [])
  else
    match opener? c, stack with
    | none, _ => (stack, [])
    | some _, [] => ([], [.stray c])
    | some o, top :: outer => if top == o then (outer, []) else (outer, [.crossed top c])

/-- Puts a character in front of the first piece of a list. -/
def pushFirst (c : Char) : List Text → List Text
  | [] => [[c]]
  | p :: ps => (c :: p) :: ps

/-- The pieces between the commas that stand outside every delimiter, given the open ones. -/
def splitCommasFrom (stack : List Char) : Text → List Text × List Mismatch
  | [] => ([[]], (stack.head?.map Mismatch.unclosed).toList)
  | c :: t =>
    if c == ',' && stack.isEmpty then
      let (pieces, faults) := splitCommasFrom [] t
      ([] :: pieces, faults)
    else
      let (inner, seen) := nest stack c
      let (pieces, faults) := splitCommasFrom inner t
      (pushFirst c pieces, seen ++ faults)

/-- The pieces of a comma-separated list, not trimmed, and the faults in its nesting in the order
in which they show. -/
def splitCommas (t : Text) : List Text × List Mismatch := splitCommasFrom [] t

/-- The pieces of `splitCommas` without the blanks around them. -/
def listItems (t : Text) : List Text := (splitCommas t).1.map trim

/-- The pieces of a list are no longer than the list. -/
theorem length_le_of_mem_splitCommasFrom (t : Text) (stack : List Char) :
    ∀ p ∈ (splitCommasFrom stack t).1, p.length ≤ t.length := by
  induction t generalizing stack with
  | nil => simp [splitCommasFrom]
  | cons c t ih =>
    intro p hp
    rw [splitCommasFrom] at hp
    split at hp
    · rcases List.mem_cons.1 hp with rfl | hp
      · simp
      · exact Nat.le_succ_of_le (ih [] p hp)
    · have h := ih (nest stack c).1
      simp only at hp
      generalize (splitCommasFrom (nest stack c).1 t).1 = ps at h hp
      cases ps with
      | nil => simp [pushFirst] at hp; simp [hp]
      | cons q qs =>
        rcases List.mem_cons.1 hp with rfl | hp
        · simpa using h q (List.mem_cons_self ..)
        · exact Nat.le_succ_of_le (h p (List.mem_cons_of_mem _ hp))

theorem length_le_of_mem_listItems {t p : Text} (h : p ∈ listItems t) : p.length ≤ t.length := by
  obtain ⟨q, hq, rfl⟩ := List.mem_map.1 h
  exact Nat.le_trans (length_trim_le q) (length_le_of_mem_splitCommasFrom t [] q hq)

end Text

end FixedForm
