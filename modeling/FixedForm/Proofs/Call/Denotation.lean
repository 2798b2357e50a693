import FixedForm.Proofs.Call.Requote

/-! What a string literal of the output denotes.  A literal of the source comes out as a literal that
denotes the same text exactly when the text holds no backslash: a double quote inside is escaped, but a
backslash is not. -/
namespace FixedForm.Quote
open Text

/-! ### Literals of the source -/

/-- Each single quote written twice. -/
def double (s : Text) : Text := s.flatMap fun c => if c == '\x27' then ['\x27', '\x27'] else [c]

/-- The literal of the source for a text. -/
def single (s : Text) : Text := '\x27' :: (double s ++ ['\x27'])

section Source
variable {c : Char} (s : Text)

theorem double_quote : double ('\x27' :: s) = '\x27' :: '\x27' :: double s := rfl

theorem double_cons (hc : c ≠ '\x27') : double (c :: s) = c :: double s := by
  have hne : (c == '\x27') = false := beq_eq_false_iff_ne.2 hc
  rw [double, List.flatMap_cons, hne, ← double]
  rfl

theorem undouble_double : undouble (double s) = s := by
  induction s with
  | nil => rfl
  | cons c s ih =>
    by_cases hc : c = '\x27'
    · rw [hc, double_quote, undouble, ih]
    · rw [double_cons s hc, undouble, ih]
      exact fun _ he => absurd he hc

/-- A doubled quote does not end the literal. -/
theorem quotedBody?_double : quotedBody? (double s ++ ['\x27']) = some (double s, []) := by
  induction s with
  | nil => rfl
  | cons c s ih =>
    by_cases hc : c = '\x27'
    · rw [hc, double_quote, List.cons_append, List.cons_append, quotedBody?, ih]
    · rw [double_cons s hc, List.cons_append, quotedBody?, ih, Option.map_some]
      · exact fun _ he _ => hc he
      · exact hc

/-- The literal of the source, double-quoted. -/
theorem toDouble_single : toDouble (single s) = '"' :: (escape s ++ ['"']) := by
  rw [single, toDouble_quoted (quotedBody?_double s), undouble_double]
  simp [toDouble, substitute, substituteFrom]

end Source

/-! ### Literals of the output -/

/-- The character that one character behind a backslash stands for. -/
def simple? : Char → Option Char
  | '\x27' => some '\x27'
  | '"' => some '"'
  | '?' => some '?'
  | '\\' => some '\\'
  | 'a' => some '\x07'
  | 'b' => some '\x08'
  | 'f' => some '\x0c'
  | 'n' => some '\n'
  | 'r' => some '\r'
  | 't' => some '\t'
  | 'v' => some '\x0b'
  | _ => none

def isOctal (c : Char) : Bool := '0' ≤ c && c ≤ '7'

/-- The number that a text of octal digits writes. -/
def octal (digits : Text) : Nat := digits.foldl (fun n c => n * 8 + (c.toNat - 48)) 0

/-- The text of one unit, unless the number is too large. -/
def unit? (n : Nat) : Option Text := if n < 0x10000 then some [ofUnit n] else none

/-- The character of a number in `count` hexadecimal digits, and what follows them. -/
def point? (count : Nat) (t : Text) : Option (Text × Text) := do
  guard (count ≤ t.length)
  let n ← hex? (t.take count)
  guard (n < 0x110000 ∧ ¬ (0xD800 ≤ n ∧ n ≤ 0xDFFF))
  some (ofPoint n, t.drop count)

/-- What a backslash before `t` denotes with the characters that belong to it, and what follows them: one
special character, up to three octal digits, `x` and hexadecimal digits, or `u` or `U` and the number of a
character. -/
def sequence? : Text → Option (Text × Text)
  | [] => none
  | c :: t =>
    match simple? c with
    | some d => some ([d], t)
    | none =>
      if isOctal c then
        let digits := c :: (t.take 2).takeWhile isOctal
        (unit? (octal digits)).map (·, t.drop (digits.length - 1))
      else if c == 'x' then
        let digits := t.takeWhile fun d => (hexDigit? d).isSome
        if digits.isEmpty then none
        else ((hex? digits).bind unit?).map (·, t.drop digits.length)
      else if c == 'u' then point? 4 t
      else if c == 'U' then point? 8 t
      else none

/-- A character that denotes itself. -/
def isPlainChar (c : Char) : Bool := c != '"' && c != '\\' && c != '\n' && c != '\r'

/-- A number in digits leaves fewer characters than there were with its digits. -/
theorem length_point? {count : Nat} {t d rest : Text} (h : point? count t = some (d, rest)) :
    d.length ≤ 2 ∧ rest.length + count = t.length := by
  simp only [point?, Option.bind_eq_bind, Option.bind_eq_some_iff, Option.guard_eq_some'] at h
  obtain ⟨-, hlen, n, -, -, -, he⟩ := h
  cases he
  refine ⟨?_, by rw [List.length_drop]; omega⟩
  rw [ofPoint]
  split <;> simp

theorem length_unit? {n : Nat} {d : Text} (h : unit? n = some d) : d.length = 1 := by
  rw [unit?] at h
  split at h
  · cases h
    rfl
  · cases h

/-- A sequence denotes fewer characters than it has, and at most half as many. -/
theorem length_sequence? {t d rest : Text} (h : sequence? t = some (d, rest)) :
    2 * d.length + rest.length ≤ t.length + 1 ∧ rest.length < t.length := by
  cases t with
  | nil => cases h
  | cons c t =>
    rw [sequence?] at h
    rw [List.length_cons]
    split at h
    · cases h
      simp
      omega
    split at h
    · obtain ⟨e, hd, he⟩ := Option.map_eq_some_iff.1 h
      cases he
      rw [length_unit? hd, List.length_drop]
      omega
    split at h
    · dsimp only at h
      split at h
      · cases h
      · obtain ⟨e, hd, he⟩ := Option.map_eq_some_iff.1 h
        cases he
        obtain ⟨n, -, hd⟩ := Option.bind_eq_some_iff.1 hd
        rw [length_unit? hd, List.length_drop]
        omega
    split at h
    · obtain ⟨hd, hr⟩ := length_point? h
      omega
    split at h
    · obtain ⟨hd, hr⟩ := length_point? h
      omega
    · cases h

set_option linter.unusedVariables false in
/-- The text that a literal denotes after its opening quote.  Nothing may follow the closing quote. -/
def contents? (t : Text) : Option Text :=
  match t with
  | [] => none
  | c :: t =>
    if c == '"' then if t.isEmpty then some [] else none
    else if c == '\\' then
      match h : sequence? t with
      | none => none
      | some (d, rest) => (contents? rest).map (d ++ ·)
    else if isPlainChar c then (contents? t).map (c :: ·)
    else none
termination_by t.length
decreasing_by
  · exact Nat.lt_succ_of_lt (length_sequence? h).2
  · exact Nat.lt_succ_self _

/-- The text that a string literal denotes; none for a text that is not one literal. -/
def denoted? : Text → Option Text
  | '"' :: t => contents? t
  | _ => none

/-! ### What is denoted -/

/-- The least number of characters that a literal needs for a text. -/
def cost (s : Text) : Nat := s.length + s.count '"' + s.count '\\'

theorem cost_append (s t : Text) : cost (s ++ t) = cost s + cost t := by
  simp only [cost, List.length_append, List.count_append]
  omega

theorem cost_le (s : Text) : cost s ≤ 2 * s.length := by
  induction s with
  | nil => exact Nat.le_refl 0
  | cons c s ih =>
    simp only [cost, List.length_cons, List.count_cons] at ih ⊢
    -- no character is both
    by_cases hq : c = '"'
    · subst hq
      simp
      omega
    · by_cases hb : c = '\\' <;> simp [hq, hb] <;> omega

theorem cost_le_of_contents? {t s : Text} (h : contents? t = some s) : cost s + 1 ≤ t.length := by
  fun_induction contents? t generalizing s with
  | case1 => cases h
  | case2 c t hc ht =>
    cases h
    simp [cost]
  | case3 => cases h
  | case4 => cases h
  | case5 c t hc hb d rest hseq ih =>
    obtain ⟨u, hu, rfl⟩ := Option.map_eq_some_iff.1 h
    have hrest := ih hu
    have hlen := (length_sequence? hseq).1
    have hcost := cost_le d
    rw [cost_append, List.length_cons]
    omega
  | case6 c t hc hb hp ih =>
    obtain ⟨u, hu, rfl⟩ := Option.map_eq_some_iff.1 h
    have hrest := ih hu
    have hone : cost [c] = 1 := by
      simp only [isPlainChar, Bool.and_eq_true, bne_iff_ne] at hp
      simp [cost, hp.1.1.1, hp.1.1.2]
    rw [← List.singleton_append, cost_append, List.length_cons]
    omega
  | case7 => cases h

theorem length_escape (s : Text) : (escape s).length = s.length + s.count '"' := by
  induction s with
  | nil => rfl
  | cons c s ih =>
    rw [escape, List.flatMap_cons, ← escape, List.length_append, ih, List.count_cons, List.length_cons]
    split <;> simp <;> omega

theorem contents?_sequence {t d rest : Text} (h : sequence? t = some (d, rest)) :
    contents? ('\\' :: t) = (contents? rest).map (d ++ ·) := by
  rw [contents?, if_neg (by decide), if_pos (by decide)]
  split
  · next he =>
    rw [h] at he
    cases he
  · next he =>
    obtain ⟨rfl, rfl⟩ := Prod.mk.inj (Option.some.inj (h.symm.trans he))
    rfl

theorem contents?_escape {s : Text} (hline : s.hasLineEnd = false) (h : '\\' ∉ s) :
    contents? (escape s ++ ['"']) = some s := by
  induction s with
  | nil => simp [escape, contents?]
  | cons c s ih =>
    obtain ⟨hb, hs⟩ := not_or.1 (mt List.mem_cons.2 h)
    obtain ⟨hc, hline⟩ := Bool.or_eq_false_iff.1 hline
    have hrest := ih hline hs
    rw [escape, List.flatMap_cons, ← escape]
    by_cases hq : c = '"'
    · -- the escaped quote
      subst hq
      have hseq : sequence? ('"' :: (escape s ++ ['"'])) = some (['"'], escape s ++ ['"']) := rfl
      exact (contents?_sequence hseq).trans (by rw [hrest]; rfl)
    · have hplain : isPlainChar c = true := by
        simp only [isLineEnd, Bool.or_eq_false_iff, beq_eq_false_iff_ne] at hc
        simp [isPlainChar, hq, Ne.symm hb, hc.1.1.1, hc.1.1.2]
      simp [contents?.eq_def (c :: _), hq, Ne.symm hb, hplain, hrest]

/-- A literal of the source comes out as one literal that denotes its text exactly when the text holds no
backslash. -/
theorem denoted?_toDouble_iff (s : Text) (h : s.hasLineEnd = false) :
    denoted? (toDouble (single s)) = some s ↔ '\\' ∉ s := by
  rw [toDouble_single]
  refine ⟨fun hd hb => ?_, contents?_escape h⟩
  -- every quote and every backslash of what is denoted needs two characters
  have hcost := cost_le_of_contents? hd
  have hpos := List.count_pos_iff.2 hb
  rw [List.length_append, length_escape, List.length_singleton, cost] at hcost
  omega

/-- Quotes of both kinds come through; the backslash of `C:\temp` makes a tab. -/
theorem denoted?_toDouble_sample :
    (denoted? (toDouble (single "say \"it's\"")) = some "say \"it's\"".toList ∧
      toDouble (single "say \"it's\"") = "\"say \\\"it's\\\"\"".toList) ∧
    denoted? (toDouble (single "C:\\temp")) ≠ some "C:\\temp".toList :=
  ⟨⟨(denoted?_toDouble_iff _ (by decide)).2 (by decide), by rw [toDouble_single]; decide⟩,
    mt (denoted?_toDouble_iff _ (by decide)).1 (by decide)⟩

end FixedForm.Quote
