import FixedForm.Proofs.Card.Account

/-! The mark that starts a remark.  A statement may run over several cards, and a literal may be open where
a card ends.  The reader starts each card outside of literals, so the `!` that it finds stands outside of the
literals of the statement exactly when no literal is open before the card. -/
namespace FixedForm
namespace Text

/-- The quote of the open literal after one more character. -/
def quoteStep : Option Char → Char → Option Char
  | none, c => if isQuote c then some c else none
  | some q, c => if c == q then none else some q

/-- The quote of the literal that is open behind a text, which starts inside the literal of `q` if there is one. -/
def openQuote (q : Option Char) (t : Text) : Option Char := t.foldl quoteStep q

/-- No literal is open, or one that a quote opened. -/
def IsQuoteState (q : Option Char) : Prop := ∀ c, q = some c → isQuote c = true

namespace IsQuoteState
variable {q q' : Option Char}

theorem step (h : IsQuoteState q) (c : Char) : IsQuoteState (quoteStep q c) := by
  intro d hd
  cases q with
  | none =>
    obtain ⟨hc, he⟩ := Option.ite_none_right_eq_some.1 hd
    rwa [← Option.some.inj he]
  | some a =>
    obtain ⟨-, he⟩ := Option.ite_none_left_eq_some.1 hd
    exact h d he

theorem openQuote (h : IsQuoteState q) (t : Text) : IsQuoteState (openQuote q t) := by
  induction t generalizing q with
  | nil => exact h
  | cons c t ih => exact ih (h.step c)

/-- A character takes different states to different states: a quote opens or closes its own literals only. -/
theorem eq_of_step (h : IsQuoteState q) (h' : IsQuoteState q') {c : Char}
    (he : quoteStep q c = quoteStep q' c) : q = q' := by
  have hopen {a : Char} (ha : isQuote a = true) : quoteStep none c ≠ quoteStep (some a) c := by
    by_cases hc : c = a
    · simp [quoteStep, hc, ha]
    · cases hq : isQuote c <;> simp [quoteStep, hc, hq]
  cases q with
  | none =>
    cases q' with
    | none => rfl
    | some b => exact absurd he (hopen (h' b rfl))
  | some a =>
    cases q' with
    | none => exact absurd he.symm (hopen (h a rfl))
    | some b =>
      by_cases ha : c = a <;> by_cases hb : c = b <;> simp_all [quoteStep]

theorem eq_of_openQuote (h : IsQuoteState q) (h' : IsQuoteState q') {t : Text}
    (he : Text.openQuote q t = Text.openQuote q' t) : q = q' := by
  induction t generalizing q q' with
  | nil => exact he
  | cons c t ih => exact h.eq_of_step h' (ih (h.step c) (h'.step c) he)

end IsQuoteState

theorem cutRemark_cons (q : Option Char) (c : Char) (t : Text) :
    cutRemark q (c :: t) =
      if q = none ∧ c = '!' then ([], some t)
      else (c :: (cutRemark (quoteStep q c) t).1, (cutRemark (quoteStep q c) t).2) := by
  cases q with
  | none => by_cases hc : c = '!' <;> simp [cutRemark, quoteStep, hc]
  | some q => simp [cutRemark, quoteStep]

/-- A remark stands behind a `!`, and no literal is open before it. -/
theorem eq_of_cutRemark {q : Option Char} {t code remark : Text} (h : cutRemark q t = (code, some remark)) :
    t = code ++ '!' :: remark ∧ openQuote q code = none := by
  induction t generalizing q code with
  | nil => cases q <;> simp [cutRemark] at h
  | cons c t ih =>
    rw [cutRemark_cons] at h
    split at h
    · next hmark =>
      obtain ⟨rfl, hr⟩ := Prod.mk.inj h
      rw [hmark.1, hmark.2, Option.some.inj hr]
      exact ⟨rfl, rfl⟩
    · obtain ⟨rfl, hr⟩ := Prod.mk.inj h
      obtain ⟨ht, hopen⟩ := ih (Prod.ext rfl hr)
      exact ⟨congrArg (c :: ·) ht, hopen⟩

end Text

namespace Card
open Text

/-- The quote of the literal that is open where a card ends, if it starts inside the literal of `q`.  A remark is
no part of it. -/
def carry (q : Option Char) (piece : Text) : Option Char := openQuote q (cutRemark q piece).1

/-- The quote of the literal that is open behind the pieces of a statement, carried from each to the next. -/
def carried (pieces : List Text) : Option Char := pieces.foldl carry none

theorem isQuoteState_carried (pieces : List Text) : IsQuoteState (carried pieces) := by
  have hrun (q : Option Char) (hq : IsQuoteState q) : IsQuoteState (pieces.foldl carry q) := by
    induction pieces generalizing q with
    | nil => exact hq
    | cons p ps ih => exact ih _ (hq.openQuote _)
  exact hrun none nofun

/-- What is moved from a card stands behind a `!` outside of the card's own literals. -/
theorem eq_of_splitRemark {piece r : Text} (h : piece.splitRemark.2 = some r) :
    ∃ code remark : Text, piece = code ++ '!' :: remark ∧ piece.splitRemark.1 = code.trimEnd ∧
      r = remark.trim ∧ openQuote none code = none := by
  rw [splitRemark] at h
  obtain ⟨remark, hcut, hr⟩ := Option.bind_eq_some_iff.1 h
  obtain ⟨hpiece, hopen⟩ := eq_of_cutRemark (Prod.ext rfl hcut)
  obtain ⟨-, hr⟩ := Option.ite_none_left_eq_some.1 hr
  exact ⟨_, remark, hpiece, rfl, (Option.some.inj hr).symm, hopen⟩

/-- The place behind `code`, on the card behind `pieces`, lies outside of every literal of the statement. -/
def Outside (pieces : List Text) (code : Text) : Prop := openQuote (carried pieces) code = none

instance (pieces : List Text) (code : Text) : Decidable (Outside pieces code) := inferInstanceAs (Decidable (_ = _))

/-- Where a card's own literals are closed, those of the statement are closed only if none was open before it. -/
theorem outside_iff {pieces : List Text} {code : Text} (h : openQuote none code = none) :
    Outside pieces code ↔ carried pieces = none := by
  refine ⟨fun hout => ?_, fun hnone => ?_⟩
  · exact (isQuoteState_carried pieces).eq_of_openQuote nofun (hout.trans h.symm)
  · rw [Outside, hnone, h]

/-- The remark of a statement is made of what stands behind a `!` on its cards.  Each of these marks stands
outside of every literal of the whole statement if and only if no literal is open before its card. -/
theorem remark_outside_iff {source : Text} {before : List Text} {t : Text} {rest : List Text}
    (hdeck : deck source = before ++ t :: rest) (hcode : isCode t = true) (hfirst : continues before t = false) :
    ∃ l ∈ (read source).lines, l.origin = before.length + 1 ∧
      l.remark = joinRemarks ((t :: bodies rest).filterMap fun p => p.splitRemark.2) ∧
      ∀ (ps : List Text) (p : Text) (qs : List Text) (r : Text), t :: bodies rest = ps ++ p :: qs →
        p.splitRemark.2 = some r → ∃ code remark : Text, p = code ++ '!' :: remark ∧
          p.splitRemark.1 = code.trimEnd ∧ r = remark.trim ∧ (Outside ps code ↔ carried ps = none) := by
  obtain ⟨l, hl, horigin, hdraft⟩ := exists_line hdeck hfirst
  rw [contents_code hcode] at hdraft
  refine ⟨l, hl, horigin, congrArg Draft.remark hdraft, fun ps p qs r _ hr => ?_⟩
  obtain ⟨code, remark, hp, htext, hremark, hopen⟩ := eq_of_splitRemark hr
  exact ⟨code, remark, hp, htext, hremark, outside_iff hopen⟩

/-- The first card has a remark; the literal that the second one opens is closed on the third. -/
def sampleLiteral : List Text := ["      x = '!' // ! one", "     $ 'abc", "     $ d!e'"]

theorem remark_outside_sample : ∃ l ∈ (read (join "\n" sampleLiteral)).lines, l.origin = 1 ∧
    l.remark = some "one e'".toList ∧
    (∃ code remark : Text, "      x = '!' // ! one".toList = code ++ '!' :: remark ∧ Outside [] code) ∧
    ∃ code remark : Text, "d!e'".toList = code ++ '!' :: remark ∧
      ¬ Outside ["      x = '!' // ! one", "'abc"] code := by
  have hdeck : deck (join "\n" sampleLiteral) = [] ++ "      x = '!' // ! one".toList :: sampleLiteral.drop 1 := by
    decide
  have hpieces : bodies (sampleLiteral.drop 1) = ["'abc".toList, "d!e'".toList] := by decide
  obtain ⟨l, hl, horigin, hremark, hmarks⟩ := remark_outside_iff hdeck (by decide) (by decide)
  refine ⟨l, hl, horigin, hremark.trans (by decide), ?_, ?_⟩
  · obtain ⟨code, remark, hp, -, -, hout⟩ := hmarks [] _ _ "one" rfl (by decide)
    exact ⟨code, remark, hp, hout.2 rfl⟩
  · obtain ⟨code, remark, hp, -, -, hout⟩ := hmarks ["      x = '!' // ! one", "'abc"] "d!e'" [] "e'"
      (congrArg (_ :: ·) hpieces) (by decide)
    exact ⟨code, remark, hp, fun h => absurd (hout.1 h) (by decide)⟩

end Card

end FixedForm
