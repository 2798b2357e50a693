import FixedForm.Card
import FixedForm.Proofs.Line.Buffer

/-! What is read from a deck: lines numbered by their places, each a comment, a blank line or a
statement that is not classified yet, and each from a later card than the line before it. -/
namespace FixedForm.Card

/-- Comments, blank lines without a text, and statements. -/
def IsRead (l : Line) : Prop :=
  l.shape = .comment ∨ (l.shape = .blank ∧ l.text = []) ∨ l.shape = .other

namespace Reading

/-- What the continuation of the statement with identity `last` makes of a line. -/
def joined (last : Nat) (body : Text) (l : Line) : Line :=
  if l.id == last then { extend l.toDraft body with id := l.id, origin := l.origin } else l

theorem id_joined (last : Nat) (body : Text) (l : Line) : (joined last body l).id = l.id := by
  rw [Reading.joined]
  split <;> rfl

/-- The lines are numbered by their places, and only a statement can be continued. -/
structure Ordered (r : Reading) : Prop where
  ids : r.lines.map (·.id) = List.range r.lines.length
  read : ∀ l ∈ r.lines, IsRead l
  last : ∀ n, r.last = some n → n < r.lines.length ∧ ∀ l ∈ r.lines, l.id = n → l.shape = .other

namespace Ordered
variable {r : Reading}

theorem id_lt (h : r.Ordered) {l : Line} (hl : l ∈ r.lines) : l.id < r.lines.length := by
  have hi : l.id ∈ r.lines.map (·.id) := List.mem_map_of_mem hl
  rw [h.ids] at hi
  exact List.mem_range.1 hi

theorem push (h : r.Ordered) (number : Nat) {d : Draft}
    (hd : IsRead { d with id := r.lines.length, origin := number }) : (r.push number d).Ordered := by
  refine ⟨by simp [Reading.push, h.ids, List.range_succ], fun l hl => ?_, fun n hn => ?_⟩
  · rcases List.mem_append.1 hl with hl | hl
    · exact h.read l hl
    · rw [List.mem_singleton.1 hl]
      exact hd
  · obtain ⟨hlt, hshape⟩ := h.last n hn
    refine ⟨by simp [Reading.push, Nat.lt_succ_of_lt hlt], fun l hl hi => ?_⟩
    rcases List.mem_append.1 hl with hl | hl
    · exact hshape l hl hi
    · rw [List.mem_singleton.1 hl] at hi
      exact absurd hi (Nat.ne_of_gt hlt)

/-- A new statement is the one that the next cards continue. -/
theorem statement (h : r.Ordered) (number : Nat) {d : Draft} (hd : d.shape = .other) :
    Ordered { r.push number d with last := some r.lines.length } := by
  have hp := h.push number (d := d) (.inr (.inr hd))
  refine ⟨hp.ids, hp.read, fun n hn => ?_⟩
  cases hn
  refine ⟨by simp [Reading.push], fun l hl hi => ?_⟩
  rcases List.mem_append.1 hl with hl | hl
  · exact absurd hi (Nat.ne_of_lt (h.id_lt hl))
  · rw [List.mem_singleton.1 hl]
    exact hd

/-- A continuation changes one statement. -/
theorem continued (h : r.Ordered) {last : Nat} (hlast : r.last = some last) (body : Text) :
    Ordered { r with lines := r.lines.map (joined last body) } := by
  obtain ⟨hlt, hshape⟩ := h.last last hlast
  have hother (l : Line) (hl : l ∈ r.lines) (hi : l.id = last) :
      (Reading.joined last body l).shape = .other := by
    rw [Reading.joined, if_pos (by simp [hi])]
    exact hshape l hl hi
  refine ⟨?_, fun l hl => ?_, fun n hn => ⟨by simpa using (h.last n hn).1, fun l hl hi => ?_⟩⟩
  · rw [List.map_map, List.length_map]
    exact (List.map_congr_left fun l _ => id_joined last body l).trans h.ids
  · obtain ⟨m, hm, rfl⟩ := List.mem_map.1 hl
    by_cases hi : m.id = last
    · exact .inr (.inr (hother m hm hi))
    · rw [Reading.joined, if_neg (by simpa using hi)]
      exact h.read m hm
  · obtain ⟨m, hm, rfl⟩ := List.mem_map.1 hl
    rw [id_joined] at hi
    exact hother m hm (hi.trans (Option.some.inj (hn.symm.trans hlast)))

theorem card (h : r.Ordered) (number : Nat) (text : Text) : (r.card number text).Ordered := by
  simp only [Reading.card]
  split
  · exact h.push number (.inl rfl)
  · split
    · exact h.push number (.inr (.inl ⟨rfl, rfl⟩))
    · split
      · next hlast _ => exact h.continued hlast _
      · exact h.statement number rfl

theorem cards (h : r.Ordered) (number : Nat) (texts : List Text) : (r.cards number texts).Ordered := by
  induction texts generalizing r number with
  | nil => exact h
  | cons text texts ih => exact ih (h.card number text) (number + 1)

end Ordered

theorem ordered_deck (source : Text) : (({} : Reading).cards 1 (deck source)).Ordered :=
  Ordered.cards ⟨rfl, by simp, by simp⟩ 1 (deck source)

/-- The origins rise, and all of them are cards before the one with the given number. -/
structure Dated (r : Reading) (number : Nat) : Prop where
  rising : r.lines.Pairwise fun l m => l.origin < m.origin
  range : ∀ l ∈ r.lines, 1 ≤ l.origin ∧ l.origin < number

namespace Dated
variable {r : Reading} {number : Nat}

theorem push (h : r.Dated number) (hn : 1 ≤ number) (d : Draft) :
    (r.push number d).Dated (number + 1) := by
  refine ⟨List.pairwise_append.2 ⟨h.rising, List.pairwise_singleton _ _, fun l hl m hm => ?_⟩,
    fun l hl => ?_⟩
  · rw [List.mem_singleton.1 hm]
    exact (h.range l hl).2
  · rcases List.mem_append.1 hl with hl | hl
    · exact ⟨(h.range l hl).1, Nat.lt_succ_of_lt (h.range l hl).2⟩
    · rw [List.mem_singleton.1 hl]
      exact ⟨hn, Nat.lt_succ_self number⟩

/-- A continuation card is the origin of no line. -/
theorem continued (h : r.Dated number) (last : Nat) (body : Text) :
    Dated { r with lines := r.lines.map (joined last body) } (number + 1) := by
  have horigin (l : Line) : (joined last body l).origin = l.origin := by
    rw [Reading.joined]
    split <;> rfl
  refine ⟨List.pairwise_map.2 (h.rising.imp fun {l m} hlm => ?_), fun l hl => ?_⟩
  · rw [horigin, horigin]
    exact hlm
  · obtain ⟨m, hm, rfl⟩ := List.mem_map.1 hl
    rw [horigin]
    exact ⟨(h.range m hm).1, Nat.lt_succ_of_lt (h.range m hm).2⟩

theorem card (h : r.Dated number) (hn : 1 ≤ number) (text : Text) :
    (r.card number text).Dated (number + 1) := by
  simp only [Reading.card]
  split
  · exact h.push hn _
  · split
    · exact h.push hn _
    · split
      · exact h.continued _ _
      · have hp := h.push hn { text := text.splitRemark.1, shape := .other, remark := text.splitRemark.2 }
        exact ⟨hp.rising, hp.range⟩

theorem cards (h : r.Dated number) (hn : 1 ≤ number) (texts : List Text) :
    (r.cards number texts).Dated (number + texts.length) := by
  induction texts generalizing r number with
  | nil => exact h
  | cons text texts ih =>
    have hrest := ih (h.card hn text) (Nat.le_succ_of_le hn)
    rwa [Nat.add_assoc, Nat.add_comm 1] at hrest

end Dated

theorem dated_deck (source : Text) :
    (({} : Reading).cards 1 (deck source)).Dated (1 + (deck source).length) :=
  Dated.cards ⟨.nil, by simp⟩ (Nat.le_refl 1) (deck source)

/-- What holds of the lines of all cards, and stays when one of them continues a statement. -/
structure Closed (cards : List Text) (P : Draft → Prop) : Prop where
  comment : ∀ t ∈ cards, isComment t = true → P { text := t, shape := .comment }
  blank : P { text := [], shape := .blank }
  statement : ∀ t ∈ cards, isComment t = false →
    P { text := t.splitRemark.1, shape := .other, remark := t.splitRemark.2 }
  continued : ∀ t ∈ cards, isComment t = false → ∀ body, continuation? t = some body →
    ∀ d, d.shape = .other → P d → P (extend d body)

namespace Closed
variable {P : Draft → Prop} {r : Reading} {deck : List Text}

theorem card (h : Closed deck P) (hr : r.Ordered) (hlines : ∀ l ∈ r.lines, P l.toDraft) (number : Nat)
    {text : Text} (ht : text ∈ deck) : ∀ l ∈ (r.card number text).lines, P l.toDraft := by
  have hpush {d : Draft} (hd : P d) : ∀ l ∈ (r.push number d).lines, P l.toDraft := by
    intro l hl
    rcases List.mem_append.1 hl with hl | hl
    · exact hlines l hl
    · rw [List.mem_singleton.1 hl]
      exact hd
  simp only [Reading.card]
  split
  · next hc => exact hpush (h.comment text ht hc)
  · next hc =>
    have hc : isComment text = false := by simpa using hc
    split
    · exact hpush h.blank
    · split
      · next last body hlast hbody =>
        rw [hlast, Option.isSome_some, if_pos rfl] at hbody
        intro l hl
        obtain ⟨m, hm, rfl⟩ := List.mem_map.1 hl
        split
        · next hi =>
          have hm' := (hr.last last hlast).2 m hm (eq_of_beq hi)
          exact h.continued text ht hc body hbody _ hm' (hlines m hm)
        · exact hlines m hm
      · exact hpush (h.statement text ht hc)

theorem cards (h : Closed deck P) (hr : r.Ordered) (hlines : ∀ l ∈ r.lines, P l.toDraft) (number : Nat)
    {texts : List Text} (ht : texts ⊆ deck) : ∀ l ∈ (r.cards number texts).lines, P l.toDraft := by
  induction texts generalizing r number with
  | nil => exact hlines
  | cons text texts ih =>
    have hfirst : text ∈ deck := ht List.mem_cons_self
    exact ih (hr.card number text) (h.card hr hlines number hfirst) (number + 1)
      fun t htail => ht (List.mem_cons_of_mem _ htail)

end Closed

end Reading

theorem forall_read {P : Draft → Prop} {source : Text} (h : Reading.Closed (deck source) P) {l : Line}
    (hl : l ∈ (read source).lines) : P l.toDraft :=
  h.cards ⟨rfl, by simp, by simp⟩ (by simp) 1 (List.Subset.refl _) l hl

/-- No card declares a local variable. -/
theorem declares_read {source : Text} {l : Line} (h : l ∈ (read source).lines) : l.declares = none :=
  forall_read (P := fun d => d.declares = none)
    ⟨fun _ _ _ => rfl, rfl, fun _ _ _ => rfl, fun _ _ _ _ _ _ _ h => h⟩ h

/-- A comment card or a blank card. -/
def IsSilent (d : Draft) : Prop :=
  (isComment d.text = true ∧ d = { text := d.text, shape := .comment }) ∨
    d = { text := [], shape := .blank }

/-- Comments and blank lines are read as they stand on their cards. -/
theorem isSilent_read {source : Text} {l : Line} (h : l ∈ (read source).lines)
    (hs : l.shape.isSilent = true) : IsSilent l.toDraft := by
  have hother {d : Draft} (hd : d.shape = .other) (hs : d.shape.isSilent = true) : IsSilent d := by
    simp [hd, Shape.isSilent] at hs
  refine forall_read (P := fun d => d.shape.isSilent = true → IsSilent d) ⟨fun t _ ht _ => ?_,
    fun _ => .inr rfl, fun _ _ _ => hother rfl, fun _ _ _ _ _ _ hd _ => hother hd⟩ h hs
  exact .inl ⟨ht, rfl⟩

theorem map_id_read (source : Text) :
    (read source).lines.map (·.id) = List.range (read source).lines.length :=
  (Reading.ordered_deck source).ids

theorem rising_read (source : Text) :
    (read source).lines.Pairwise fun l m => l.origin < m.origin :=
  (Reading.dated_deck source).rising

theorem origin_read {source : Text} {l : Line} (h : l ∈ (read source).lines) :
    1 ≤ l.origin ∧ l.origin ≤ (deck source).length := by
  have hr := (Reading.dated_deck source).range l h
  omega

theorem isRead_read {source : Text} {l : Line} (h : l ∈ (read source).lines) : IsRead l :=
  (Reading.ordered_deck source).read l h

theorem numbered_read (source : Text) : (read source).Numbered := by
  have h := Reading.ordered_deck source
  refine ⟨?_, fun l hl => h.id_lt hl⟩
  change (((({} : Reading).cards 1 (deck source)).lines).map (·.id)).Nodup
  rw [h.ids]
  exact List.nodup_range

end FixedForm.Card
