import FixedForm.Proofs.Statement.Label

/-! What decides on the label of a line: its start, up to the first character after the digits.  Changes
behind that do not matter. -/
namespace FixedForm
open Text

theorem mem_dropWhile_of_not {p : Char → Bool} {t : Text} {c : Char} (h : c ∈ t) (hc : p c = false) :
    c ∈ t.dropWhile p := by
  rw [← List.takeWhile_append_dropWhile (p := p) (l := t)] at h
  rcases List.mem_append.1 h with h | h
  · rw [List.all_eq_true.1 List.all_takeWhile c h] at hc
    cases hc
  · exact h

/-- The start of a text that holds more than blanks and the digits after them. -/
def Decides (p : Text) : Prop := p.trimStart.dropWhile Char.isDigit ≠ []

theorem decides_of_mem {p : Text} {c : Char} (h : c ∈ p) (hb : isBlank c = false)
    (hd : c.isDigit = false) : Decides p :=
  List.ne_nil_of_mem (mem_dropWhile_of_not (mem_dropWhile_of_not h hb) hd)

theorem takeWhile_append_of_drop {p : Char → Bool} {t : Text} (h : t.dropWhile p ≠ []) (r : Text) :
    (t ++ r).takeWhile p = t.takeWhile p := by
  have hlen : (t.takeWhile p).length + (t.dropWhile p).length = t.length := by
    rw [← List.length_append, List.takeWhile_append_dropWhile]
  have hpos : 0 < (t.dropWhile p).length := List.length_pos_iff.2 h
  rw [List.takeWhile_append, if_neg (by omega)]

theorem dropWhile_append_of_drop {p : Char → Bool} {t : Text} (h : t.dropWhile p ≠ []) (r : Text) :
    (t ++ r).dropWhile p = t.dropWhile p ++ r := by
  rw [List.dropWhile_append, if_neg (by simpa using h)]

theorem label_append {p : Text} (h : Decides p) (r : Text) :
    (Labelled.split (p ++ r)).label = (Labelled.split p).label := by
  have hd : (p.dropWhile isBlank).dropWhile Char.isDigit ≠ [] := h
  have hb : p.dropWhile isBlank ≠ [] := by
    intro he
    simp [he] at hd
  obtain ⟨c, v, hcv⟩ := List.exists_cons_of_ne_nil hd
  simp only [Labelled.split, apply_ite Labelled.label, takeWhile_append_of_drop hb,
    dropWhile_append_of_drop hb, takeWhile_append_of_drop hd, dropWhile_append_of_drop hd, hcv,
    List.cons_append, List.head?_cons]

/-- Two texts with a common start that decides. -/
theorem label_congr {p t u : Text} (hp : Decides p) (ht : p <+: t) (hu : p <+: u) :
    (Labelled.split t).label = (Labelled.split u).label := by
  obtain ⟨r, rfl⟩ := ht
  obtain ⟨s, rfl⟩ := hu
  rw [label_append hp, label_append hp]

/-- The first character of a text is found in no label field. -/
def startsSolid (t : Text) : Bool :=
  (t.head?.map fun c => !isBlank c && !c.isDigit).getD false

/-- A line that does not start with a digit has no label. -/
theorem label_none {g t : Text} (hg : g.allBlank = true) (ht : startsSolid t = true) :
    (Labelled.split (g ++ t)).label = none := by
  cases t with
  | nil => simp [startsSolid] at ht
  | cons c t =>
    have hc : isBlank c = false ∧ c.isDigit = false := by simpa [startsSolid] using ht
    have hs : (g ++ c :: t).dropWhile isBlank = c :: t :=
      dropWhile_run (mem_of_allBlank hg) (.cons hc.1)
    simp [Labelled.split, hs, hc.2]

end FixedForm
