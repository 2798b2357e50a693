import FixedForm.Conversion
import FixedForm.Proofs.Stage.Label
import FixedForm.Proofs.Text.Fold

/-! The case of a source.  Cards that differ in the case of their code are read as lines that differ in the
case of their statements, and spelling takes these to the same lines. -/
namespace FixedForm
open Text

namespace Card

/-- A card without the case of its code. -/
def folded (card : Text) : Text := if isComment card then card else card.foldCode

theorem isComment_toLower (c : Char) (t u : Text) : isComment (c.toLower :: t) = isComment (c :: u) := by
  have hascii : ∀ n < 0x80, isComment [(Char.ofNat n).toLower] = isComment [Char.ofNat n] := by decide
  by_cases hc : c.toNat < 0x80
  · have h := hascii c.toNat hc
    rw [Char.ofNat_toNat] at h
    exact h
  · rw [toLower_of_not_ascii hc]
    rfl

theorem isComment_foldCode (t : Text) : isComment t.foldCode = isComment t := by
  cases t with
  | nil => rfl
  | cons c t =>
    by_cases hc : c = '!'
    · rw [hc]
      rfl
    · rw [foldCode_cons hc, isComment_toLower c _ t]

theorem isComment_folded (card : Text) : isComment (folded card) = isComment card := by
  rw [folded]
  split
  · rfl
  · exact isComment_foldCode card

theorem isEmpty_folded (card : Text) : List.isEmpty (folded card) = List.isEmpty card := by
  cases card with
  | nil => rfl
  | cons c t =>
    rw [folded, foldCode]
    split
    · rfl
    · split <;> rfl

theorem isComment_expandTabs (card : Text) : isComment (card.expandTabs 8) = isComment card := by
  cases card with
  | nil => rfl
  | cons c t =>
    by_cases hc : c = '\t'
    · rw [hc]
      rfl
    · rw [expandTabs, List.flatMap_cons, if_neg (by simpa using hc)]
      rfl

theorem folded_expandTabs (card : Text) : folded (card.expandTabs 8) = (folded card).expandTabs 8 := by
  rw [folded, folded, isComment_expandTabs]
  split
  · rfl
  · exact expandTabs_foldCode 8 card

/-- The deck without case depends on the cards without case. -/
theorem deck_folded {source other : Text} (h : (split source).map folded = (split other).map folded) :
    (deck source).map folded = (deck other).map folded := by
  have hdeck (source : Text) : (deck source).map folded =
      (if ((split source).map folded).getLast? == some [] then ((split source).map folded).dropLast
        else (split source).map folded).map (expandTabs 8) := by
    have hlast : (((split source).map folded).getLast? == some []) = ((split source).getLast? == some []) := by
      rw [List.getLast?_map]
      cases (split source).getLast? with
      | none => rfl
      | some card => simpa using isEmpty_folded card
    rw [hlast, deck, List.map_map]
    split <;> simp [Function.comp_def, folded_expandTabs]
  rw [hdeck, hdeck, h]

/-- A character of code that is in no character string. -/
def IsCode (c : Char) : Prop := c.toNat < 0x80 ∧ isQuote c = false

/-- A card whose code has no character strings. -/
def IsPlain (card : Text) : Prop := isComment card = false → ∀ c ∈ card, IsCode c

instance : DecidablePred IsCode := fun c => inferInstanceAs (Decidable (c.toNat < 0x80 ∧ isQuote c = false))

instance : DecidablePred IsPlain := fun card =>
  -- not by running through all characters, the other instance for the inner statement
  have : Decidable (∀ c ∈ card, IsCode c) := List.decidableBAll IsCode card
  inferInstanceAs (Decidable (isComment card = false → ∀ c ∈ card, IsCode c))

theorem isCode_toLower (c : Char) : IsCode c.toLower ↔ IsCode c := by
  have hlow : c.toLower.toNat < 0x80 ↔ c.toNat < 0x80 := by
    by_cases hc : c.toNat < 0x80
    · exact iff_of_true (by simpa using ascii_toLower c.toNat hc) hc
    · rw [toLower_of_not_ascii hc]
  rw [IsCode, IsCode, hlow, isQuote_toLower]

theorem isPlain_folded {card : Text} : IsPlain (folded card) ↔ IsPlain card := by
  rw [IsPlain, IsPlain, isComment_folded]
  refine forall_congr' fun hc => ?_
  rw [folded, if_neg (by simp [hc])]
  exact forall_mem_foldCode isCode_toLower card

theorem IsPlain.expandTabs {card : Text} (h : IsPlain card) : IsPlain (card.expandTabs 8) := by
  intro hc c hm
  obtain ⟨d, hd, hm⟩ := List.mem_flatMap.1 hm
  split at hm
  · rw [List.eq_of_mem_replicate hm]
    exact ⟨by decide, rfl⟩
  · rw [List.mem_singleton.1 hm]
    exact h (isComment_expandTabs card ▸ hc) d hd

theorem isPlain_deck {source card : Text} (h : ∀ card ∈ split source, IsPlain card) (hc : card ∈ deck source) :
    IsPlain card := by
  obtain ⟨t, ht, rfl⟩ := List.mem_map.1 hc
  refine (h t ?_).expandTabs
  split at ht
  · exact List.dropLast_subset _ ht
  · exact ht

theorem oneLine?_foldCode (t : Text) : oneLine? t.foldCode = (oneLine? t).map foldCode := by
  rw [oneLine?, oneLine?, hasLineEnd_foldCode]
  split <;> rfl

theorem dollarBody?_foldCode (t : Text) : dollarBody? t.foldCode = (dollarBody? t).map foldCode := by
  rw [dollarBody?, dollarBody?, trimStart_foldCode]
  cases t.trimStart with
  | nil => rfl
  | cons c u =>
    by_cases hc : c = '!'
    · rw [hc]
      rfl
    · rw [foldCode_cons hc]
      by_cases hd : c = '$'
      · subst hd
        exact (congrArg oneLine? (trimStart_foldCode u)).trans (oneLine?_foldCode _)
      · have hl : c.toLower ≠ '$' := by
          simpa [hd] using beq_toLower (d := '$') (by decide) c
        simp [hd, hl]

/-- The mark in column 6 may be a `!`, behind which case counts. -/
theorem columnBody?_foldCode (t : Text) :
    (columnBody? t.foldCode).map foldCode = (columnBody? t).map foldCode := by
  have hblanks : ∀ c ∈ "     ".toList, c = ' ' := by simp
  have hlead := after?_foldCode hblanks t
  rw [columnBody?, columnBody?, hlead]
  cases after? "     " t with
  | none => rfl
  | some rest =>
    cases rest with
    | nil => rfl
    | cons mark body =>
      by_cases hm : mark = '!'
      · rw [hm]
        rfl
      · simp only [Option.map_some, foldCode_cons hm, beq_toLower (d := ' ') (by decide),
          beq_toLower (d := '0') (by decide), oneLine?_foldCode]
        split
        · rfl
        · cases oneLine? body with
          | none => rfl
          | some u => simp [trimStart_foldCode, foldCode_foldCode]

theorem continuation?_foldCode (t : Text) :
    (continuation? t.foldCode).map foldCode = (continuation? t).map foldCode := by
  rw [continuation?, continuation?, dollarBody?_foldCode]
  cases dollarBody? t with
  | none => exact columnBody?_foldCode t
  | some body => exact congrArg some (foldCode_foldCode body)

/-- A continuation is the end of its card. -/
theorem continuation?_suffix {t body : Text} (h : continuation? t = some body) : body <:+ t := by
  have hone {u v : Text} (h : oneLine? u = some v) : v = u := by
    rw [oneLine?] at h
    split at h
    · cases h
    · exact (Option.some.inj h).symm
  have hor : (dollarBody? t).or (columnBody? t) = some body := by
    rw [← h, continuation?]
    cases dollarBody? t <;> rfl
  rcases Option.or_eq_some_iff.1 hor with h | ⟨-, h⟩
  · rw [dollarBody?] at h
    split at h
    · next u hu =>
      rw [hone h]
      exact (trimStart_suffix u).trans ((List.suffix_cons _ u).trans (hu ▸ trimStart_suffix t))
    · cases h
  · rw [columnBody?] at h
    split at h
    · next mark u hu =>
      split at h
      · cases h
      · obtain ⟨v, hv, rfl⟩ := Option.map_eq_some_iff.1 h
        rw [hone hv]
        exact (trimStart_suffix u).trans ((List.suffix_cons mark u).trans (after?_suffix hu))
    · cases h

end Card

/-- A line without the case of its statement. -/
def Line.folded (l : Line) : Line :=
  if l.shape == .other then { l with text := l.text.map Char.toLower } else l

theorem Line.folded_other {l : Line} (h : l.shape = .other) :
    l.folded = { l with text := l.text.map Char.toLower } := by
  rw [folded, if_pos (by simpa using h)]

namespace Card.Reading

theorem folded_joined {last : Nat} {l : Line} (hl : l.id = last → l.shape = .other) {body : Text}
    (hfree : ∀ c ∈ body, isQuote c = false) :
    (joined last body l).folded = joined last body.foldCode l.folded := by
  by_cases hi : l.id = last
  · rw [Line.folded_other (hl hi), joined, joined, if_pos (by simpa using hi), if_pos (by simpa using hi)]
    refine (Line.folded_other (l := { extend l.toDraft body with id := l.id, origin := l.origin })
      (hl hi)).trans ?_
    simp only [extend, splitRemark_foldCode hfree, List.map_append]
    rfl
  · have hid : l.folded.id = l.id := by
      rw [Line.folded]
      split <;> rfl
    rw [joined, joined, if_neg (by simpa using hi), if_neg (by simpa [hid] using hi)]

/-- Two decks read so far that differ in the case of statements. -/
structure Alike (r r' : Reading) : Prop where
  last : r.last = r'.last
  lines : r.lines.map Line.folded = r'.lines.map Line.folded

namespace Alike
variable {r r' : Reading}

theorem length_eq (h : Alike r r') : r.lines.length = r'.lines.length := by
  simpa using congrArg List.length h.lines

theorem push (h : Alike r r') (number : Nat) {d e : Draft}
    (hd : Line.folded { d with id := r.lines.length, origin := number } =
      Line.folded { e with id := r.lines.length, origin := number }) :
    Alike (r.push number d) (r'.push number e) := by
  refine ⟨h.last, ?_⟩
  rw [Reading.push, Reading.push, List.map_append, List.map_append, h.lines, ← h.length_eq,
    List.map_singleton, List.map_singleton, hd]

theorem statement (h : Alike r r') (number : Nat) {t u : Text} (htu : t.foldCode = u.foldCode)
    (ht : ∀ c ∈ t, isQuote c = false) (hu : ∀ c ∈ u, isQuote c = false) :
    Alike
      { r.push number { text := t.splitRemark.1, shape := .other, remark := t.splitRemark.2 } with
        last := some r.lines.length }
      { r'.push number { text := u.splitRemark.1, shape := .other, remark := u.splitRemark.2 } with
        last := some r'.lines.length } := by
  have hsplit : (t.splitRemark.1.map Char.toLower, t.splitRemark.2) =
      (u.splitRemark.1.map Char.toLower, u.splitRemark.2) := by
    rw [← splitRemark_foldCode ht, ← splitRemark_foldCode hu, htu]
  have hpush := h.push number
    (d := { text := t.splitRemark.1, shape := .other, remark := t.splitRemark.2 })
    (e := { text := u.splitRemark.1, shape := .other, remark := u.splitRemark.2 }) (by
      rw [Line.folded_other rfl, Line.folded_other rfl]
      simp only [Prod.mk.inj hsplit])
  exact ⟨congrArg some h.length_eq, hpush.lines⟩

theorem continued (h : Alike r r') (hr : r.Ordered) (hr' : r'.Ordered) {last : Nat}
    (hlast : r.last = some last) {body body' : Text} (hbody : body.foldCode = body'.foldCode)
    (hfree : ∀ c ∈ body, isQuote c = false) (hfree' : ∀ c ∈ body', isQuote c = false) :
    Alike { lines := r.lines.map (joined last body), last := some last }
      { lines := r'.lines.map (joined last body'), last := some last } := by
  have hjoin {r : Reading} (hr : r.Ordered) (hlast : r.last = some last) {body : Text}
      (hfree : ∀ c ∈ body, isQuote c = false) : (r.lines.map (joined last body)).map Line.folded =
        (r.lines.map Line.folded).map (joined last body.foldCode) := by
    rw [List.map_map, List.map_map]
    exact List.map_congr_left fun l hl => folded_joined ((hr.last last hlast).2 l hl) hfree
  refine ⟨rfl, ?_⟩
  rw [hjoin hr hlast hfree, hjoin hr' (h.last ▸ hlast) hfree', h.lines, hbody]

/-- One card of each deck. -/
theorem card (h : Alike r r') (hr : r.Ordered) (hr' : r'.Ordered) (number : Nat) {t u : Text}
    (htu : folded t = folded u) (ht : IsPlain t) (hu : IsPlain u) :
    Alike (r.card number t) (r'.card number u) := by
  have hkind : isComment t = isComment u := by
    rw [← isComment_folded t, htu, isComment_folded]
  simp only [Reading.card, ← hkind]
  split
  · next hc =>
    rw [folded, folded, if_pos hc, if_pos (hkind ▸ hc)] at htu
    exact h.push number (by rw [htu])
  · next hc =>
    have hc : isComment t = false := by simpa using hc
    rw [folded, folded, if_neg (by simp [hc]), if_neg (by simp [← hkind, hc])] at htu
    have hfree (c : Char) (hm : c ∈ t) : isQuote c = false := (ht hc c hm).2
    have hfree' (c : Char) (hm : c ∈ u) : isQuote c = false := (hu (hkind ▸ hc) c hm).2
    have hblank : t.allBlank = u.allBlank := by
      rw [← allBlank_foldCode t, htu, allBlank_foldCode]
    rw [← hblank]
    split
    · exact h.push number rfl
    · rw [← h.last]
      have hbody : (continuation? t).map foldCode = (continuation? u).map foldCode := by
        rw [← continuation?_foldCode t, htu, continuation?_foldCode]
      cases hlast : r.last with
      | none => exact h.statement number htu hfree hfree'
      | some last =>
        simp only [Option.isSome_some, if_true]
        cases hb : continuation? t with
        | none =>
          have hb' : continuation? u = none := by simpa [hb] using hbody
          rw [hb']
          exact h.statement number htu hfree hfree'
        | some body =>
          rw [hb] at hbody
          obtain ⟨body', hb', hfold⟩ := Option.map_eq_some_iff.1 hbody.symm
          rw [hb']
          exact h.continued hr hr' hlast hfold.symm
            (fun c hm => hfree c ((continuation?_suffix hb).subset hm))
            (fun c hm => hfree' c ((continuation?_suffix hb').subset hm))

theorem cards (h : Alike r r') (hr : r.Ordered) (hr' : r'.Ordered) (number : Nat) {deck deck' : List Text}
    (hdeck : deck.map folded = deck'.map folded) (hplain : ∀ t ∈ deck, IsPlain t)
    (hplain' : ∀ t ∈ deck', IsPlain t) : Alike (r.cards number deck) (r'.cards number deck') := by
  induction deck generalizing r r' number deck' with
  | nil =>
    obtain rfl := List.map_eq_nil_iff.1 hdeck.symm
    exact h
  | cons t deck ih =>
    obtain ⟨u, deck', rfl, htu, hrest⟩ := List.map_eq_cons_iff.1 hdeck.symm
    rw [List.forall_mem_cons] at hplain hplain'
    have hcard := h.card hr hr' number htu.symm hplain.1 hplain'.1
    exact ih hcard (hr.card number t) (hr'.card number u) (number + 1) hrest.symm hplain.2 hplain'.2

end Alike

end Card.Reading

/-- The statements of a deck hold the characters of its cards, and blanks. -/
theorem Card.forall_mem_read {P : Char → Prop} (hblank : P ' ') {source : Text}
    (h : ∀ t ∈ deck source, isComment t = false → ∀ c ∈ t, P c) {l : Line} (hl : l ∈ (read source).lines)
    (hs : l.shape = .other) : ∀ c ∈ l.text, P c := by
  have hcode {t : Text} (ht : ∀ c ∈ t, P c) : ∀ c ∈ t.splitRemark.1, P c :=
    fun c hc => ht c ((splitRemark_lead t).mem hc)
  refine forall_read (P := fun d => d.shape = .other → ∀ c ∈ d.text, P c)
    ⟨fun _ _ _ hs => (nomatch hs), fun hs => (nomatch hs),
      fun t ht hc _ => hcode (h t ht hc), fun t ht hc body hb d hd hold _ => ?_⟩ hl hs
  have hbody (c : Char) (hm : c ∈ body) : P c := h t ht hc c ((continuation?_suffix hb).subset hm)
  intro c hm
  rcases List.mem_append.1 hm with hm | hm
  · rcases List.mem_append.1 hm with hm | hm
    · exact hold hd c hm
    · rwa [List.mem_singleton.1 hm]
  · exact hcode hbody c hm

/-- The statements of a deck without character strings. -/
theorem Card.isCode_read {source : Text} (h : ∀ card ∈ split source, IsPlain card) {l : Line}
    (hl : l ∈ (read source).lines) (hs : l.shape = .other) : ∀ c ∈ l.text, IsCode c :=
  forall_mem_read ⟨by decide, rfl⟩ (fun _ ht hc => isPlain_deck h ht hc) hl hs

namespace Stage

/-- Spelling does not see the case of a statement. -/
theorem normalize_map_toLower {t : Text} (h : ∀ c ∈ t, Card.IsCode c) :
    Spelling.normalize (t.map Char.toLower) = Spelling.normalize t := by
  have hlower : ∀ c ∈ t.map Char.toLower, Card.IsCode c := by
    intro c hc
    obtain ⟨d, hd, rfl⟩ := List.mem_map.1 hc
    exact (Card.isCode_toLower d).2 (h d hd)
  have hfold : Spelling.foldCase (t.map Char.toLower) = Spelling.foldCase t := by
    rw [Spelling.foldCase, Spelling.foldCase, mapCode_of_free fun c hc => (hlower c hc).2,
      mapCode_of_free fun c hc => (h c hc).2, lower_ascii fun c hc => (hlower c hc).1,
      lower_ascii fun c hc => (h c hc).1, List.map_map]
    exact List.map_congr_left fun c _ => toLower_toLower c
  rw [Spelling.normalize, Spelling.normalize, Spelling.beforePowers, Spelling.beforePowers, hfold]

theorem spell_folded (a : Analysis) {l : Line} (h : l.shape = .other → ∀ c ∈ l.text, Card.IsCode c) :
    spell a l.folded = spell a l := by
  by_cases hs : l.shape = .other
  · have hsilent : Shape.other.isSilent = false := rfl
    rw [Line.folded_other hs]
    simp only [spell, hs, hsilent, Bool.false_eq_true, if_false, normalize_map_toLower (h hs)]
  · rw [Line.folded, if_neg (by simpa using hs)]

/-- No line leaves the unit when it is spelled. -/
theorem apply_spelling (options : Options) (b : Buffer) :
    Stage.spelling.apply (.start options b) =
      { analysis := (b.edit spell { options }).1, buffer := (b.edit spell { options }).2 } := by
  have hheld : (b.lines.filter fun l => !(b.edit spell { options }).2.holds l.id) = [] := by
    refine List.filter_eq_nil_iff.2 fun l hl => ?_
    rw [edit_spell, Buffer.holds, Buffer.map, List.any_map, Bool.not_eq_true, Bool.not_eq_false']
    exact List.any_eq_true.2 ⟨l, hl, beq_self_eq_true l.id⟩
  rw [Stage.apply]
  simp only [Stage.run, Progress.start, hheld, List.append_nil]

end Stage

namespace Card

/-- Statements without character strings are spelled as if they were written in lower case. -/
theorem edit_spell_read (options : Options) {source : Text} (h : ∀ card ∈ split source, IsPlain card) :
    (read source).edit Stage.spell { options } =
      Buffer.edit Stage.spell { options }
        { lines := (read source).lines.map Line.folded, nextId := (read source).nextId } := by
  have hid (l : Line) : l.folded.id = l.id ∧ l.folded.origin = l.origin := by
    rw [Line.folded]
    split <;> exact ⟨rfl, rfl⟩
  rw [Buffer.edit, Buffer.edit, Buffer.editFrom_map (fun l => (hid l).1) (fun l => (hid l).2)
    fun a l hl => Stage.spell_folded a (isCode_read h hl)]

/-- Two sources that differ in the case of their code are spelled alike. -/
theorem edit_spell_congr (options : Options) {source other : Text} (h : ∀ card ∈ split source, IsPlain card)
    (hcase : (split source).map folded = (split other).map folded) :
    (read other).edit Stage.spell { options } = (read source).edit Stage.spell { options } := by
  have hother : ∀ card ∈ split other, IsPlain card := by
    intro card hcard
    have hfolded : folded card ∈ (split source).map folded := hcase ▸ List.mem_map_of_mem hcard
    obtain ⟨t, ht, he⟩ := List.mem_map.1 hfolded
    exact isPlain_folded.1 (he ▸ isPlain_folded.2 (h t ht))
  have halike : Reading.Alike (({} : Reading).cards 1 (deck source)) (({} : Reading).cards 1 (deck other)) :=
    Reading.Alike.cards ⟨rfl, rfl⟩ ⟨rfl, by simp, by simp⟩ ⟨rfl, by simp, by simp⟩ 1 (deck_folded hcase)
      (fun _ ht => isPlain_deck h ht) (fun _ ht => isPlain_deck hother ht)
  have hlines : (read source).lines.map Line.folded = (read other).lines.map Line.folded := halike.lines
  have hnext : (read source).nextId = (read other).nextId := halike.length_eq
  rw [edit_spell_read options h, edit_spell_read options hother, hlines, hnext]

end Card

namespace Conversion

/-- The case of letters in code changes nothing of a conversion. -/
theorem ofSource_eq_of_folded (options : Options) {source other : Text}
    (hplain : ∀ card ∈ Card.split source, Card.IsPlain card)
    (hcase : (Card.split source).map Card.folded = (Card.split other).map Card.folded) :
    ofSource options other = ofSource options source := by
  have hspelling : Stage.spelling.apply (.start options (Card.read other)) =
      Stage.spelling.apply (.start options (Card.read source)) := by
    rw [Stage.apply_spelling, Stage.apply_spelling, Card.edit_spell_congr options hplain hcase]
  simp only [ofSource, Progress.runAll, Stage.all, List.foldl_cons, hspelling]

/-- A comment, a continuation marked with a letter, and a remark. -/
def sampleUpper : Text :=
  "C ONE\n      SUBROUTINE S(X)\n      X = 1 ! ONE\n     A+ X\n      END\n"

def sampleLower : Text :=
  "C ONE\n      subroutine s(X)\n      x = 1 ! ONE\n     a+ x\n      End\n"

theorem ofSource_sampleLower : (∀ card ∈ Card.split sampleUpper, Card.IsPlain card) ∧
    (Card.split sampleUpper).map Card.folded = (Card.split sampleLower).map Card.folded ∧
    sampleLower ≠ sampleUpper ∧ ofSource {} sampleLower = ofSource {} sampleUpper := by
  have hupper : sampleUpper = _ := String.toList_ofList
  have hlower : sampleLower = _ := String.toList_ofList
  have hplain : ∀ card ∈ Card.split sampleUpper, Card.IsPlain card := by
    rw [hupper]
    decide +kernel
  have hcase : (Card.split sampleUpper).map Card.folded = (Card.split sampleLower).map Card.folded := by
    rw [hupper, hlower]
    decide +kernel
  refine ⟨hplain, hcase, ?_, ofSource_eq_of_folded {} hplain hcase⟩
  rw [hupper, hlower]
  decide +kernel

end Conversion

end FixedForm
