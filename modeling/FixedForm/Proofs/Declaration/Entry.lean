import FixedForm.Declaration.Entry
import FixedForm.Proofs.Text.Classes
import FixedForm.Proofs.Text.Parens

/-! Entries of declarations, written and read back.  An entry is written as its name, the list of its extents
in parentheses and a star before its length; blanks may then stand anywhere. -/
namespace FixedForm
open Text

/-- The text `t` is `s` with blanks put in anywhere. -/
inductive Text.Spaced : Text → Text → Prop where
  | nil : Spaced [] []
  | char (c : Char) {s t : Text} (h : Spaced s t) : Spaced (c :: s) (c :: t)
  | blank {c : Char} {s t : Text} (hc : isBlank c = true) (h : Spaced s t) : Spaced s (c :: t)

theorem Text.Spaced.filter_eq {s t : Text} (h : Spaced s t) (hs : ∀ c ∈ s, isBlank c = false) :
    t.filter (!isBlank ·) = s := by
  induction h with
  | nil => rfl
  | char c _ ih =>
    obtain ⟨hc, hs⟩ := List.forall_mem_cons.1 hs
    rw [List.filter_cons_of_pos (by simp [hc]), ih hs]
  | blank hc _ ih => rw [List.filter_cons_of_neg (by simp [hc]), ih hs]

/-- A text is what is solid in it with its blanks put in. -/
theorem Text.Spaced.of_filter {s t : Text} (h : t.filter (!isBlank ·) = s) : Spaced s t := by
  induction t generalizing s with
  | nil =>
    rw [← h]
    exact .nil
  | cons c t ih =>
    cases hc : isBlank c with
    | true =>
      rw [List.filter_cons_of_neg (by simp [hc])] at h
      exact .blank hc (ih h)
    | false =>
      rw [List.filter_cons_of_pos (by simp [hc])] at h
      rw [← h]
      exact .char c (ih rfl)

theorem Text.mem_join {c : Char} {separator : Text} {items : List Text} (h : c ∈ join separator items) :
    c ∈ separator ∨ ∃ t ∈ items, c ∈ t := by
  induction items with
  | nil => cases h
  | cons t items ih =>
    cases items with
    | nil =>
      rw [join, List.intercalate_singleton] at h
      exact .inr ⟨t, by simp, h⟩
    | cons u items =>
      rw [join, List.intercalate_cons_cons, List.append_assoc, List.mem_append, List.mem_append] at h
      rcases h with h | h | h
      · exact .inr ⟨t, by simp, h⟩
      · exact .inl h
      · rcases ih h with h | ⟨v, hv, hc⟩
        · exact .inl h
        · exact .inr ⟨v, List.mem_cons_of_mem t hv, hc⟩

namespace DeclaredEntry

/-- The extents in parentheses, if there are any. -/
def renderDimensions (dimensions : List Text) : Text :=
  if dimensions.isEmpty then [] else '(' :: (join "," dimensions ++ [')'])

/-- The length behind a star, if there is one. -/
def renderLength : Option Text → Text
  | none => []
  | some length => '*' :: length

/-- The entry as it is written without blanks. -/
def render (e : DeclaredEntry) : Text := e.name ++ (renderDimensions e.dimensions ++ renderLength e.length)

/-- What can be written: a word, extents whose delimiters nest and that hold no comma outside of them, and a
length that is not empty, all without blanks. -/
structure IsWritable (e : DeclaredEntry) : Prop where
  name : e.name.isWordText = true
  dimensions : ∀ d ∈ e.dimensions, NestedItem d ∧ ∀ c ∈ d, isBlank c = false
  length : ∀ t, e.length = some t → t ≠ [] ∧ ∀ c ∈ t, isBlank c = false

instance (e : DeclaredEntry) : Decidable e.IsWritable :=
  decidable_of_iff (e.name.isWordText = true ∧
      (e.dimensions.all fun d => decide (NestedItem d) && d.all (!isBlank ·)) = true ∧
      (e.length.all fun t => !t.isEmpty && t.all (!isBlank ·)) = true)
    ⟨fun h => ⟨h.1, by simpa using h.2.1, fun t ht => by simpa [ht] using h.2.2⟩,
      fun h => ⟨h.name, by simpa using h.dimensions, by
        cases hl : e.length with
        | none => rfl
        | some t => simpa using h.length t hl⟩⟩

section Parts
variable {dimensions : List Text} {length : Option Text}

theorem solid_renderDimensions (h : ∀ d ∈ dimensions, ∀ c ∈ d, isBlank c = false) :
    ∀ c ∈ renderDimensions dimensions, isBlank c = false := by
  have hjoin : ∀ c ∈ join "," dimensions, isBlank c = false := by
    intro c hc
    rcases mem_join hc with hc | ⟨d, hd, hc⟩
    · have hcomma : c = ',' := by simpa using hc
      rw [hcomma]
      rfl
    · exact h d hd c hc
  rw [renderDimensions]
  split
  · exact nofun
  · exact List.forall_mem_cons.2 ⟨rfl, List.forall_mem_append.2 ⟨hjoin, List.forall_mem_singleton.2 rfl⟩⟩

theorem solid_renderLength (h : ∀ t, length = some t → ∀ c ∈ t, isBlank c = false) :
    ∀ c ∈ renderLength length, isBlank c = false := by
  cases length with
  | none => simp [renderLength]
  | some t => exact List.forall_mem_cons.2 ⟨rfl, h t rfl⟩

theorem length?_renderLength (h : ∀ t, length = some t → t ≠ []) : length? (renderLength length) = length := by
  cases length with
  | none => rfl
  | some t => simp [renderLength, length?, nonempty?, h t rfl]

/-- Behind a name come a parenthesis, a star or nothing. -/
theorem outside_parts : StartsOutside isWord (renderDimensions dimensions ++ renderLength length) := by
  cases dimensions with
  | nil =>
    cases length with
    | none => exact .nil
    | some t => exact .cons (by decide)
  | cons d ds => exact .cons (by decide)

end Parts

theorem IsWritable.solid_render {e : DeclaredEntry} (h : e.IsWritable) : ∀ c ∈ e.render, isBlank c = false := by
  have hname : ∀ c ∈ e.name, isBlank c = false :=
    fun c hc => not_blank_of_word ((mem_of_isWordText h.name).2 c hc)
  refine List.forall_mem_append.2 ⟨hname, List.forall_mem_append.2 ⟨?_, ?_⟩⟩
  · exact solid_renderDimensions fun d hd => (h.dimensions d hd).2
  · exact solid_renderLength fun t ht => (h.length t ht).2

section Parse
variable {t name rest : Text}

theorem parse_plain (h : word? (t.filter (!isBlank ·)) = some (name, rest)) (hp : startsWith "(" rest = false) :
    parse t = (some { name, dimensions := [], length := length? rest }, []) := by
  simp only [parse, h, hp, Bool.false_eq_true, if_false]

/-- The partner of the first parenthesis ends the list of extents, whatever delimiters stand inside. -/
theorem parse_list {list tail : Text} (hn : Nested list)
    (h : word? (t.filter (!isBlank ·)) = some (name, '(' :: (list ++ ')' :: tail))) :
    parse t = (some { name, dimensions := (splitCommas list).1, length := length? tail },
      (splitCommas list).2.map .mismatch) := by
  have hparen : startsWith "(" ('(' :: (list ++ ')' :: tail)) = true := rfl
  have hlist : (('(' :: (list ++ ')' :: tail)).take (list.length + 1)).drop 1 = list := by simp
  have htail : ('(' :: (list ++ ')' :: tail)).drop (list.length + 1 + 1) = tail := by
    rw [List.drop_succ_cons, List.drop_length_add_append]
    rfl
  simp only [parse, h, hparen, if_true, closing?_nested hn, hlist, htail]

end Parse

/-- An entry is read as it was written, wherever blanks are put in, and no fault is found. -/
theorem parse_spaced {e : DeclaredEntry} (he : e.IsWritable) {t : Text} (ht : Spaced e.render t) :
    parse t = (some e, []) := by
  obtain ⟨name, dimensions, length⟩ := e
  obtain ⟨hne, hname⟩ := mem_of_isWordText he.name
  have hword : word? (t.filter (!isBlank ·)) =
      some (name, renderDimensions dimensions ++ renderLength length) := by
    rw [ht.filter_eq he.solid_render]
    exact word?_run hname hne outside_parts
  have hlength := length?_renderLength fun t ht => (he.length t ht).1
  cases dimensions with
  | nil =>
    rw [parse_plain hword (by cases length <;> rfl)]
    exact congrArg (fun l => (some (DeclaredEntry.mk name [] l), [])) hlength
  | cons d ds =>
    have hitems : ∀ x ∈ d :: ds, NestedItem x := fun x hx => (he.dimensions x hx).1
    have htext : renderDimensions (d :: ds) ++ renderLength length =
        '(' :: (join "," (d :: ds) ++ ')' :: renderLength length) := by simp [renderDimensions]
    rw [htext] at hword
    rw [parse_list (nested_join hitems) hword, splitCommas_join (List.cons_ne_nil d ds) hitems]
    exact congrArg (fun l => (some (DeclaredEntry.mk name (d :: ds) l), [])) hlength

/-- Extents with calls, commas, stars and brackets inside. -/
def sampleEntry : DeclaredEntry := ⟨"a1", ["max(1,n)", "*", "b[(i,j)]*\x7bk,2\x7d"], some "(*)"⟩

theorem parse_spaced_sample :
    sampleEntry.IsWritable ∧
      parse "a 1( max(1, n),\t*, b[(i,j)] * \x7bk,2\x7d )* (*) " = (some sampleEntry, []) := by
  have hwritable : sampleEntry.IsWritable := by decide
  exact ⟨hwritable, parse_spaced hwritable (.of_filter (by decide))⟩

end DeclaredEntry

end FixedForm
