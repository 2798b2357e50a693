import FixedForm.Proofs.Line.Buffer

/-! A buffer without one of its lines.  Leaving out a line that no step reads or changes is the same before
an edit and after it. -/
namespace FixedForm.Buffer
variable {σ : Type} {step : σ → Line → σ × List Entry} {i : Nat}

/-- The other lines. -/
def without (i : Nat) (b : Buffer) : Buffer := b.remove fun l => l.id == i

theorem filter_place {l : Line} {next : Nat} (hl : l.id ≠ i) (hi : i < next) (es : List Entry) :
    (place l next es).1.filter (fun m => !(m.id == i)) = (place l next es).1 := by
  refine List.filter_eq_self.2 fun m hm => ?_
  have hne : m.id ≠ i := by
    obtain ⟨-, ⟨-, hid⟩ | ⟨-, hid, -⟩⟩ := mem_place hm
    · rwa [hid]
    · omega
  simpa using hne

/-- A line that says nothing and stays can be left out. -/
theorem edit_without {b : Buffer} (hi : i < b.nextId)
    (h : ∀ s, ∀ l ∈ b.lines, l.id = i → ∃ d, step s l = (s, [.kept d])) (s : σ) :
    (b.without i).edit step s = ((b.edit step s).1, (b.edit step s).2.without i) := by
  have hfrom (s : σ) (n : Nat) (hn : i < n) (lines : List Line)
      (hl : ∀ s, ∀ l ∈ lines, l.id = i → ∃ d, step s l = (s, [.kept d])) :
      editFrom step s n (lines.filter fun l => !(l.id == i)) =
        ((editFrom step s n lines).1, (editFrom step s n lines).2.1.filter (fun l => !(l.id == i)),
          (editFrom step s n lines).2.2) := by
    induction lines generalizing s n with
    | nil => rfl
    | cons l lines ih =>
      have hrest : ∀ s, ∀ l ∈ lines, l.id = i → ∃ d, step s l = (s, [.kept d]) :=
        fun s m hm => hl s m (by simp [hm])
      by_cases he : l.id = i
      · obtain ⟨d, hd⟩ := hl s l (by simp) he
        rw [List.filter_cons_of_neg (by simp [he]), ih s n hn hrest]
        simp [editFrom, hd, place, he]
      · rw [List.filter_cons_of_pos (by simp [he])]
        have hnext := Nat.lt_of_lt_of_le hn (le_place l n (step s l).2)
        simp only [editFrom, ih (step s l).1 _ hnext hrest, List.filter_append, filter_place he hn]
  simp only [edit, without, remove, hfrom s b.nextId hi b.lines h]

theorem map_without (f : Line → Draft) (b : Buffer) : (b.without i).map f = (b.map f).without i := by
  simp only [without, remove, map, List.filter_map]
  rfl

theorem modify_without (k : Nat) (f : Draft → Draft) (b : Buffer) :
    (b.without i).modify k f = (b.modify k f).without i :=
  map_without _ b

theorem insertAt_filter {k : Nat} (hk : k ≠ i) {added : List Line} (ha : ∀ l ∈ added, l.id ≠ i)
    (lines : List Line) :
    insertAt k added (lines.filter fun l => !(l.id == i)) =
      (insertAt k added lines).filter fun l => !(l.id == i) := by
  have hadded : added.filter (fun l => !(l.id == i)) = added :=
    List.filter_eq_self.2 fun l hl => by simpa using ha l hl
  induction lines with
  | nil => exact hadded.symm
  | cons l lines ih =>
    by_cases he : l.id = i
    · have hne : l.id ≠ k := fun h => hk (h.symm.trans he)
      rw [List.filter_cons_of_neg (by simp [he]), insertAt, if_neg (by simpa using hne),
        List.filter_cons_of_neg (by simp [he]), ih]
    · rw [List.filter_cons_of_pos (by simp [he]), insertAt, insertAt]
      split
      · rw [List.filter_cons_of_pos (by simp [he]), List.filter_append, hadded]
      · rw [List.filter_cons_of_pos (by simp [he]), ih]

theorem insertAfter_without {b : Buffer} (hi : i < b.nextId) {anchor : Line} (ha : anchor.id ≠ i)
    (drafts : List Draft) : (b.without i).insertAfter anchor drafts = (b.insertAfter anchor drafts).without i := by
  have hadded : ∀ l ∈ added anchor b.nextId drafts, l.id ≠ i := fun l hl => by
    have := (mem_added hl).2.2.1
    omega
  exact congrArg (fun lines => Buffer.mk lines (b.nextId + drafts.length))
    (insertAt_filter ha hadded b.lines)

theorem without_insert {m : Line} {before after : List Line} {next : Nat}
    (h : NumberedBelow next (m :: (before ++ after))) :
    without m.id ⟨before ++ m :: after, next⟩ = ⟨before ++ after, next⟩ := by
  have hother : (before ++ after).filter (fun l => !(l.id == m.id)) = before ++ after := by
    refine List.filter_eq_self.2 fun l hl => ?_
    have hne : l.id ≠ m.id := fun he =>
      (List.nodup_cons.1 h.nodup).1 (List.mem_map.2 ⟨l, hl, he⟩)
    simpa using hne
  rw [List.filter_append] at hother
  simp only [without, remove, List.filter_append, List.filter_cons, beq_self_eq_true, Bool.not_true]
  exact congrArg (fun lines => Buffer.mk lines next) hother

end FixedForm.Buffer
