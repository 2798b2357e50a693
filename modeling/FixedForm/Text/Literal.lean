import FixedForm.Text.Basic

/-!
Quoted literals.  A quote opens a literal that runs to the next quote of its kind, or to the end of
the text; what lies outside literals is code.
-/

namespace FixedForm

/-- A stretch of a text.  A literal holds its quotes; the last one may lack the closing quote. -/
inductive Stretch where
  | code (text : Text)
  | literal (text : Text)
  deriving DecidableEq, Repr

def Stretch.text : Stretch → Text
  | .code t | .literal t => t

/-- Applies `f` to code only. -/
def Stretch.mapCode (f : Text → Text) : Stretch → Stretch
  | .code t => .code (f t)
  | .literal t => .literal t

namespace Text

set_option linter.unusedVariables false in
/-- A text as code and literals in turn.  Code stands before, between and after the literals, also
where it is empty, except after a literal that does not end. -/
def stretches (t : Text) : List Stretch :=
  match h : t.dropWhile (!isQuote ·) with
  | [] => [.code t]
  | q :: body =>
    .code (t.takeWhile (!isQuote ·)) ::
      match hb : body.dropWhile (· != q) with
      | [] => [.literal (q :: body)]
      | _ :: rest => .literal (q :: body.takeWhile (· != q) ++ [q]) :: stretches rest
termination_by t.length
decreasing_by
  have h₁ := length_dropWhile_le (!isQuote ·) t
  have h₂ := length_dropWhile_le (· != q) body
  simp only [h, hb, List.length_cons] at h₁ h₂
  omega

/-- Applies `f` to every stretch of code and leaves the literals alone. -/
def mapCode (f : Text → Text) (t : Text) : Text :=
  (t.stretches.map (Stretch.mapCode f)).flatMap Stretch.text

/-- The text before the first `!` outside literals, and the text after it.  `quote` is the quote of
the literal that the text starts inside of. -/
def cutRemark : (quote : Option Char) → Text → Text × Option Text
  | _, [] => ([], none)
  | some q, c :: t =>
    let (code, remark) := cutRemark (if c == q then none else some q) t
    (c :: code, remark)
  | none, c :: t =>
    if c == '!' then ([], some t)
    else
      let (code, remark) := cutRemark (if isQuote c then some c else none) t
      (c :: code, remark)

/-- A text that counts only when it is not empty. -/
def nonempty? (t : Text) : Option Text := if t.isEmpty then none else some t

/-- The code of a card and the remark after its `!`, each without the blanks around it. -/
def splitRemark (t : Text) : Text × Option Text :=
  let (code, remark) := cutRemark none t
  (code.trimEnd, remark.bind fun r => r.trim.nonempty?)

/-- The rest of a single-quoted literal after its opening quote, where a quote inside is written
twice: what it holds, still doubled, and what follows it.  Without a closing quote, the literal ends
at the first quote of its last pair, if it has one. -/
def quotedBody? : Text → Option (Text × Text)
  | [] => none
  | '\x27' :: '\x27' :: t =>
    match quotedBody? t with
    | some (body, rest) => some ('\x27' :: '\x27' :: body, rest)
    | none => some ([], '\x27' :: t)
  | '\x27' :: t => some ([], t)
  | c :: t => (quotedBody? t).map fun (body, rest) => (c :: body, rest)

end Text

end FixedForm
