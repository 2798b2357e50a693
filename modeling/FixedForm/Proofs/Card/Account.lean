import FixedForm.Proofs.Card

/-! Every card of a deck is accounted for.  A card is the origin of one line, or it continues a statement, and
a statement holds its own card and all cards that continue it, whatever stands between them. -/
namespace FixedForm.Card
open Text (join)

/-- A card of code: neither a comment nor blank. -/
def isCode (t : Text) : Bool := !isComment t && !t.allBlank

/-- The card `t` continues a statement when it stands behind the cards `before`. -/
def continues (before : List Text) (t : Text) : Bool :=
  isCode t && before.any isCode && (continuation? t).isSome

/-- A card of code that is no continuation, whatever stands before it. -/
def isInitial (t : Text) : Bool := isCode t && (continuation? t).isNone

/-- What a card adds to the statement before it. -/
def body? (t : Text) : Option Text := if isCode t then continuation? t else none

/-- What the cards `rest` add to the statement before them, up to the next statement. -/
def bodies (rest : List Text) : List Text := (rest.takeWhile (!isInitial ·)).filterMap body?

/-- The card with the number `n` continues a statement. -/
def continuesAt (cards : List Text) (n : Nat) : Bool :=
  cards[n - 1]?.any (continues (cards.take (n - 1)))

/-- The numbers of the cards that continue a statement. -/
def continuations (cards : List Text) : List Nat :=
  (List.range' 1 cards.length).filter (continuesAt cards)

/-- Remarks with a space between them. -/
def joinRemarks (remarks : List Text) : Option Text :=
  if remarks.isEmpty then none else some (join " " remarks)

/-- The statement of a card and of what continues it: the codes of all pieces, and their remarks. -/
def ofPieces (pieces : List Text) : Draft where
  text := join " " (pieces.map fun p => p.splitRemark.1)
  shape := .other
  remark := joinRemarks (pieces.filterMap fun p => p.splitRemark.2)

/-- The line of the card `t` with the cards `rest` behind it. -/
def contents (t : Text) (rest : List Text) : Draft :=
  if isComment t then { text := t, shape := .comment }
  else if t.allBlank then { text := [], shape := .blank }
  else ofPieces (t :: bodies rest)

section Bodies
variable {t body : Text} (rest : List Text)

theorem bodies_silent (h : isCode t = false) : bodies (t :: rest) = bodies rest := by
  simp [bodies, isInitial, body?, h]

theorem bodies_continued (h : isCode t = true) (hb : continuation? t = some body) :
    bodies (t :: rest) = body :: bodies rest := by
  simp [bodies, isInitial, body?, h, hb]

theorem bodies_initial (h : isCode t = true) (hb : continuation? t = none) : bodies (t :: rest) = [] := by
  simp [bodies, isInitial, h, hb]

end Bodies

/-! ### Pieces of a statement -/

theorem joinRemark_none (r : Option Text) : joinRemark r none = r := by cases r <;> rfl

theorem joinRemark_assoc (a b c : Option Text) :
    joinRemark (joinRemark a b) c = joinRemark a (joinRemark b c) := by
  cases a <;> cases b <;> cases c <;> simp [joinRemark]

/-- The remark of the first piece stands before those of the others. -/
theorem joinRemarks_filterMap (f : Text → Option Text) (p : Text) (ps : List Text) :
    joinRemarks ((p :: ps).filterMap f) = joinRemark (f p) (joinRemarks (ps.filterMap f)) := by
  cases hp : f p with
  | none => rw [List.filterMap_cons_none hp, joinRemark]
  | some r =>
    rw [List.filterMap_cons_some hp]
    cases ps.filterMap f with
    | nil => simp [joinRemarks, joinRemark, join]
    | cons s rs => simp [joinRemarks, joinRemark, join]

theorem join_append (s a b : Text) (ts : List Text) : join s ((a ++ s ++ b) :: ts) = join s (a :: b :: ts) := by
  cases ts with
  | nil => simp [join]
  | cons t ts => simp [join, List.intercalate_cons_cons]

/-- A statement that is extended piece by piece holds the codes and the remarks of the pieces in turn. -/
theorem foldl_extend (d : Draft) (ps : List Text) :
    ps.foldl extend d = { d with
      text := join " " (d.text :: ps.map fun p => p.splitRemark.1)
      remark := joinRemark d.remark (joinRemarks (ps.filterMap fun p => p.splitRemark.2)) } := by
  induction ps generalizing d with
  | nil => simp [join, joinRemarks, joinRemark_none]
  | cons p ps ih =>
    rw [List.foldl_cons, ih, joinRemarks_filterMap, ← joinRemark_assoc, List.map_cons, ← join_append]
    rfl

theorem foldl_extend_card (t : Text) (ps : List Text) :
    ps.foldl extend { text := t.splitRemark.1, shape := .other, remark := t.splitRemark.2 } =
      ofPieces (t :: ps) := by
  rw [foldl_extend, ofPieces, joinRemarks_filterMap]
  rfl

theorem contents_code {t : Text} (h : isCode t = true) (rest : List Text) :
    contents t rest = ofPieces (t :: bodies rest) := by
  simp only [isCode, Bool.and_eq_true, Bool.not_eq_true'] at h
  simp [contents, h.1, h.2]

/-- The line that begins with the card `t` between `before` and `rest`, with its origin. -/
def lineAt (before : List Text) (t : Text) (rest : List Text) : List (Nat × Draft) :=
  if continues before t then [] else [(before.length + 1, contents t rest)]

/-- The lines that begin with the cards `rest` behind the cards `before`. -/
def linesFrom (before : List Text) : List Text → List (Nat × Draft)
  | [] => []
  | t :: rest => lineAt before t rest ++ linesFrom (before ++ [t]) rest

namespace Reading

/-- A line as it is at the end, when `bs` is still to be added to the statement with identity `last`. -/
def settled (last : Option Nat) (bs : List Text) (l : Line) : Nat × Draft :=
  (l.origin, if last = some l.id then bs.foldl extend l.toDraft else l.toDraft)

theorem settled_nil (last : Option Nat) (l : Line) : settled last [] l = (l.origin, l.toDraft) := by
  simp [settled]

theorem settled_other {last : Option Nat} {l : Line} (h : last ≠ some l.id) (bs : List Text) :
    settled last bs l = (l.origin, l.toDraft) := by
  rw [settled, if_neg h]

theorem settled_joined (last : Nat) (body : Text) (bs : List Text) (l : Line) :
    settled (some last) bs (joined last body l) = settled (some last) (body :: bs) l := by
  by_cases hl : l.id = last
  · simp [settled, joined, hl]
  · simp [settled, joined, hl, Ne.symm hl]

/-- A comment or a blank card is a line of its own and leaves the statement before it open. -/
theorem map_settled_push {r : Reading} (hr : r.Ordered) (number : Nat) (d : Draft) (bs : List Text) :
    (r.push number d).lines.map (settled r.last bs) = r.lines.map (settled r.last bs) ++ [(number, d)] := by
  have hnew : r.last ≠ some r.lines.length := fun h => Nat.lt_irrefl _ (hr.last _ h).1
  rw [push, List.map_append, List.map_singleton, settled_other hnew]

/-- A new statement closes the one before it. -/
theorem map_settled_statement {r : Reading} (hr : r.Ordered) (number : Nat) (d : Draft) (bs : List Text) :
    (r.push number d).lines.map (settled (some r.lines.length) bs) =
      r.lines.map (settled r.last []) ++ [(number, bs.foldl extend d)] := by
  rw [push, List.map_append, List.map_singleton]
  congr 1
  · refine List.map_congr_left fun l hl => ?_
    have hne : some r.lines.length ≠ some l.id := fun h => Nat.ne_of_gt (hr.id_lt hl) (Option.some.inj h)
    rw [settled_other hne, settled_nil]
  · rw [settled, if_pos rfl]

section Step
variable {r : Reading} {number : Nat} {t : Text}

/-- A comment or a blank card gives its line, whatever follows it. -/
theorem card_silent (h : isCode t = false) (rest : List Text) :
    r.card number t = r.push number (contents t rest) := by
  rw [card, contents]
  split
  · rfl
  · next hc =>
    have hb : t.allBlank = true := by simpa [isCode, hc] using h
    rw [if_pos hb, if_pos hb]

theorem card_continued (h : isCode t = true) {last : Nat} (hlast : r.last = some last) {body : Text}
    (hb : continuation? t = some body) :
    r.card number t = { r with lines := r.lines.map (joined last body) } := by
  simp only [isCode, Bool.and_eq_true, Bool.not_eq_true'] at h
  simp only [card, h.1, h.2, hlast, hb, Option.isSome_some, if_true, Bool.false_eq_true, if_false]
  rfl

theorem card_initial (h : isCode t = true) (hb : r.last = none ∨ continuation? t = none) :
    r.card number t = { r.push number { text := t.splitRemark.1, shape := .other, remark := t.splitRemark.2 } with
      last := some r.lines.length } := by
  simp only [isCode, Bool.and_eq_true, Bool.not_eq_true'] at h
  simp only [card, h.1, h.2, Bool.false_eq_true, if_false]
  rcases hb with hb | hb
  · rw [hb]
  · cases hlast : r.last <;> simp [hb]

end Step

/-- One card: the last statement gets what the card adds to it, or a line begins with the card. -/
theorem settled_card {r : Reading} (hr : r.Ordered) {before : List Text}
    (hlast : r.last.isSome = before.any isCode) (t : Text) (rest : List Text) :
    let next := r.card (before.length + 1) t
    next.last.isSome = (before ++ [t]).any isCode ∧
      next.lines.map (settled next.last (bodies rest)) =
        r.lines.map (settled r.last (bodies (t :: rest))) ++ lineAt before t rest := by
  cases hcode : isCode t with
  | false =>
    have hc : ¬ continues before t = true := by simp [continues, hcode]
    rw [card_silent hcode rest, bodies_silent rest hcode, lineAt, if_neg hc]
    exact ⟨by simpa [push, hcode] using hlast, map_settled_push hr _ _ _⟩
  | true =>
    by_cases hc : continues before t = true
    · have hparts : before.any isCode = true ∧ (continuation? t).isSome = true := by
        simpa [continues, hcode] using hc
      obtain ⟨last, hl⟩ := Option.isSome_iff_exists.1 (hlast.trans hparts.1)
      obtain ⟨body, hb⟩ := Option.isSome_iff_exists.1 hparts.2
      rw [card_continued hcode hl hb, bodies_continued rest hcode hb, lineAt, if_pos hc, List.append_nil]
      refine ⟨by simp [hl, hcode], ?_⟩
      simp only [hl, List.map_map]
      exact List.map_congr_left fun l _ => settled_joined last body _ l
    · have hinitial : r.last = none ∨ continuation? t = none := by
        simpa [continues, hcode, ← hlast, Decidable.imp_iff_not_or] using hc
      have hclosed : r.lines.map (settled r.last (bodies (t :: rest))) = r.lines.map (settled r.last []) := by
        rcases hinitial with hn | hn
        · rw [hn]
          exact List.map_congr_left fun l _ => rfl
        · rw [bodies_initial rest hcode hn]
      rw [card_initial hcode hinitial, hclosed, lineAt, if_neg hc, contents_code hcode, ← foldl_extend_card]
      exact ⟨by simp [hcode], map_settled_statement hr _ _ _⟩

/-- All cards: behind the lines of the cards `before`, of which the last statement may grow, come those that begin
with the cards `rest`. -/
theorem cards_lines {r : Reading} (hr : r.Ordered) {before : List Text}
    (hlast : r.last.isSome = before.any isCode) (rest : List Text) :
    (r.cards (before.length + 1) rest).lines.map (fun l => (l.origin, l.toDraft)) =
      r.lines.map (settled r.last (bodies rest)) ++ linesFrom before rest := by
  induction rest generalizing r before with
  | nil => simp [cards, linesFrom, bodies, settled_nil]
  | cons t rest ih =>
    obtain ⟨hnext, hlines⟩ := settled_card hr hlast t rest
    have hcards := ih (hr.card (before.length + 1) t) hnext
    rw [hlines, List.append_assoc, List.length_append, List.length_singleton] at hcards
    exact hcards

end Reading

/-! ### Lines and cards -/

theorem read_lines (source : Text) :
    (read source).lines.map (fun l => (l.origin, l.toDraft)) = linesFrom [] (deck source) := by
  have hempty : ({} : Reading).Ordered := ⟨rfl, by simp, by simp⟩
  have hnone : ({} : Reading).last.isSome = ([] : List Text).any isCode := rfl
  exact Reading.cards_lines hempty hnone (deck source)

theorem continuesAt_append (before : List Text) (t : Text) (rest : List Text) :
    continuesAt (before ++ t :: rest) (before.length + 1) = continues before t := by
  simp [continuesAt]

/-- The origins of the lines are the cards that continue nothing. -/
theorem origins_linesFrom (before rest : List Text) :
    (linesFrom before rest).map Prod.fst =
      (List.range' (before.length + 1) rest.length).filter (!continuesAt (before ++ rest) ·) := by
  induction rest generalizing before with
  | nil => rfl
  | cons t rest ih =>
    have hrest := ih (before ++ [t])
    rw [List.append_assoc, List.singleton_append, List.length_append, List.length_singleton] at hrest
    rw [linesFrom, List.map_append, hrest, lineAt, List.length_cons, List.range'_succ, List.filter_cons,
      continuesAt_append]
    cases continues before t <;> rfl

theorem lineAt_sublist (before first : List Text) (t : Text) (rest : List Text) :
    (lineAt (first ++ before) t rest).Sublist (linesFrom first (before ++ t :: rest)) := by
  induction before generalizing first with
  | nil =>
    rw [List.append_nil, List.nil_append, linesFrom]
    exact List.sublist_append_left _ _
  | cons u before ih =>
    have hrest := ih (first ++ [u])
    rw [List.append_assoc, List.singleton_append] at hrest
    exact hrest.trans (List.sublist_append_right _ _)

theorem mem_continuations {cards before : List Text} {t : Text} {rest : List Text}
    (h : cards = before ++ t :: rest) :
    before.length + 1 ∈ continuations cards ↔ continues before t = true := by
  rw [h, continuations, List.mem_filter, continuesAt_append]
  refine and_iff_right (List.mem_range'_1.2 ?_)
  simp only [List.length_append, List.length_cons]
  omega

/-- A card that continues nothing gives its line. -/
theorem exists_line {source : Text} {before : List Text} {t : Text} {rest : List Text}
    (hdeck : deck source = before ++ t :: rest) (hc : continues before t = false) :
    ∃ l ∈ (read source).lines, l.origin = before.length + 1 ∧ l.toDraft = contents t rest := by
  have hline : lineAt before t rest = [(before.length + 1, contents t rest)] := if_neg (by simp [hc])
  have hsub := lineAt_sublist before [] t rest
  rw [List.nil_append, hline, ← hdeck, ← read_lines] at hsub
  obtain ⟨l, hl, heq⟩ := List.mem_map.1 (List.singleton_sublist.1 hsub)
  obtain ⟨horigin, hdraft⟩ := Prod.mk.inj heq
  exact ⟨l, hl, horigin, hdraft⟩

/-- Each number of a card is the origin of one line or the number of a continuation, and not both.  A card is a
continuation exactly when it is code, code stands before it, and it has the form of one.  Every other card
gives its line: a comment, a blank line, or a statement with all that continues it. -/
theorem read_accounts (source : Text) :
    ((read source).lines.map (·.origin) ++ continuations (deck source)).Perm
        (List.range' 1 (deck source).length) ∧
      ∀ before t rest, deck source = before ++ t :: rest →
        (before.length + 1 ∈ continuations (deck source) ↔
          (isComment t = false ∧ t.allBlank = false) ∧ (∃ u ∈ before, isCode u = true) ∧
            ∃ body, continuation? t = some body) ∧
        (before.length + 1 ∉ continuations (deck source) →
          ∃ l ∈ (read source).lines, l.origin = before.length + 1 ∧ l.toDraft = contents t rest) := by
  refine ⟨?_, fun before t rest hdeck => ⟨?_, fun hnot => ?_⟩⟩
  · have horigins := congrArg (List.map Prod.fst) (read_lines source)
    rw [List.map_map, origins_linesFrom] at horigins
    refine (List.Perm.append_right _ (.of_eq horigins)).trans ?_
    exact List.perm_append_comm.trans (List.filter_append_perm _ _)
  · rw [mem_continuations hdeck]
    simp [continues, isCode, Option.isSome_iff_exists, and_assoc]
  · rw [mem_continuations hdeck, Bool.not_eq_true] at hnot
    exact exists_line hdeck hnot

/-- A statement with tabs, a comment and a blank card between its parts, and both ends of lines. -/
def sampleSource : Text := "\tx = a + ! one\r\nc note\n     &  b\r\n\n     $\t+ c !two\n      end\r\n"

theorem read_accounts_sample :
    deck sampleSource = ["        x = a + ! one".toList, "c note".toList, "     &  b".toList, [],
        "     $        + c !two".toList, "      end".toList] ∧
      continuations (deck sampleSource) = [3, 5] ∧
      ∃ l ∈ (read sampleSource).lines, l.origin = 1 ∧
        l.toDraft = { text := "        x = a + b + c", shape := .other, remark := some "one two".toList } := by
  have hdeck : deck sampleSource = ["        x = a + ! one".toList, "c note".toList, "     &  b".toList, [],
      "     $        + c !two".toList, "      end".toList] := by decide
  have hnumbers : continuations (deck sampleSource) = [3, 5] := by decide
  have hfirst := ((read_accounts sampleSource).2 [] _ _ hdeck).2
  rw [hnumbers] at hfirst
  exact ⟨hdeck, hnumbers, hfirst (by decide)⟩

end FixedForm.Card
