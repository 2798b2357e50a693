import FixedForm.Files.Tree
import FixedForm.Proofs.Files.Path

/-! Files in a tree.  A file that is written can be read, and the other files stay as they were. -/
namespace FixedForm.Tree
open FixedForm.Path (absolute)
variable {content c : Text} {t t' : Tree} {ns ms : List Text}

/-- The entries of a file system: names of entries, and different ones in each folder. -/
inductive Sound : Tree → Prop where
  | file (name content : Text) : Sound (.file name content)
  | folder (name : Text) (entries : List Tree) (names : ∀ e ∈ entries, Path.IsName e.name)
      (distinct : (entries.map Tree.name).Nodup) (sound : ∀ e ∈ entries, Sound e) :
      Sound (.folder name entries)

/-- A file system: volumes with the entries of a file system. -/
inductive IsSystem : Tree → Prop where
  | volumes (name : Text) (entries : List Tree) (sound : ∀ e ∈ entries, Sound e) :
      IsSystem (.folder name entries)

theorem Sound.look {entries : List Tree} (h : Sound t) (hl : t.look ns = .folder entries) :
    ∃ name, Sound (.folder name entries) := by
  induction ns generalizing t with
  | nil =>
    cases h with
    | file => cases hl
    | folder name es hnames hdistinct hsound =>
      obtain rfl : es = entries := by simpa [Tree.look] using hl
      exact ⟨name, .folder name es hnames hdistinct hsound⟩
  | cons n ns ih =>
    cases h with
    | file => cases hl
    | folder m es hnames hdistinct hsound =>
      rw [Tree.look] at hl
      split at hl
      · cases hl
      · next e he => exact ih (hsound e (List.mem_of_find?_eq_some he)) hl

theorem look_of_list {p : Text} {entries : List Tree} (h : t.list p = .ok entries) :
    t.look (absolute p) = .folder entries ∧ absolute p ≠ [] := by
  rw [Tree.list, find] at h
  cases he : t.look (absolute p) with
  | folder es =>
    simp only [he] at h
    split at h
    · cases h
    · next hne => exact ⟨congrArg Found.folder (Except.ok.inj h), by simpa using hne⟩
  | file content => by_cases hp : p.getLast? = some '/' <;> simp [he, hp] at h
  | missing => simp [he] at h
  | notFolder => simp [he] at h

theorem IsSystem.list {p : Text} {entries : List Tree} (h : IsSystem t) (hl : t.list p = .ok entries) :
    ∃ name, Sound (.folder name entries) := by
  obtain ⟨hlook, hne⟩ := look_of_list hl
  obtain ⟨v, ns, hns⟩ := List.exists_cons_of_ne_nil hne
  cases h with
  | volumes name volumes hsound =>
    rw [hns, look] at hlook
    split at hlook
    · cases hlook
    · next e he => exact (hsound e (List.mem_of_find?_eq_some he)).look hlook

/-- Below a folder the names go on from its entries. -/
theorem look_append {entries : List Tree} {ms : List Text} (h : t.look ns = .folder entries) (hm : ms ≠ [])
    (name : Text) : t.look (ns ++ ms) = (folder name entries).look ms := by
  induction ns generalizing t with
  | nil =>
    cases t with
    | file => cases h
    | folder n es =>
      obtain rfl : es = entries := by simpa [look] using h
      cases ms with
      | nil => exact absurd rfl hm
      | cons m ms => rfl
  | cons n ns ih =>
    cases t with
    | file => cases h
    | folder k es =>
      rw [look] at h
      rw [List.cons_append, look]
      split at h
      · cases h
      · exact ih h

theorem name_put (content : Text) (ns : List Text) (t : Tree) : (put content ns t).name = t.name := by
  cases ns <;> cases t <;> simp only [put] <;> try rfl
  split <;> rfl

theorem name_grow (content n : Text) (ns : List Text) : (grow content n ns).name = n := by
  cases ns <;> rfl

theorem look_grow (content n : Text) (ns : List Text) : (grow content n ns).look ns = .file content := by
  induction ns generalizing n with
  | nil => rfl
  | cons m ns ih => simp [grow, look, name_grow, ih]

theorem eq_of_look_grow {n : Text} (h : (grow content n ns).look ms = .file c) : ms = ns := by
  induction ns generalizing n ms with
  | nil =>
    cases ms with
    | nil => rfl
    | cons m ms => cases h
  | cons m ns ih =>
    cases ms with
    | nil => cases h
    | cons k ms =>
      rw [grow, look, List.find?_singleton] at h
      split at h
      · cases h
      · next e he =>
        split at he
        · next hk =>
          cases he
          rw [name_grow, beq_iff_eq] at hk
          rw [hk, ih h]
        · cases he

/-- Below a folder a file is put into the entry of its first name, or into a new one. -/
theorem look_put_folder (content name n m : Text) (ns ms : List Text) (entries : List Tree) :
    (put content (n :: ns) (.folder name entries)).look (m :: ms) =
      if m = n then
        (((entries.find? fun e => e.name == n).map (put content ns)).getD (grow content n ns)).look ms
      else (folder name entries).look (m :: ms) := by
  by_cases hany : (entries.any fun e => e.name == n) = true
  · have hname : ((fun e : Tree => e.name == m) ∘ fun e => if e.name == n then put content ns e else e) =
        fun e => e.name == m := by
      funext e
      dsimp only [Function.comp]
      split
      · rw [name_put]
      · rfl
    rw [put, if_pos hany, look, look, List.find?_map, hname]
    cases he : entries.find? fun e => e.name == m with
    | none =>
      have hm : m ≠ n := by
        rintro rfl
        obtain ⟨e, hmem, hen⟩ := List.any_eq_true.1 hany
        exact List.find?_eq_none.1 he e hmem hen
      rw [if_neg hm]
      rfl
    | some e =>
      have hem : e.name = m := by simpa using List.find?_some he
      by_cases hm : m = n
      · rw [if_pos hm, ← hm, he]
        simp [hem]
      · simp [hem, hm]
  · have hnone : (entries.find? fun e => e.name == n) = none := by
      rw [List.find?_eq_none]
      exact fun e he hen => hany (List.any_eq_true.2 ⟨e, he, hen⟩)
    rw [put, if_neg hany, look, look, List.find?_append, List.find?_singleton, name_grow]
    by_cases hm : m = n
    · rw [if_pos hm, hm, hnone]
      simp
    · rw [if_neg hm]
      cases entries.find? fun e => e.name == m with
      | none => simp [Ne.symm hm]
      | some e => rfl

theorem look_put_self (h : t.look ns = .missing ∨ ∃ old, t.look ns = .file old) :
    (put content ns t).look ns = .file content := by
  induction ns generalizing t with
  | nil =>
    cases t with
    | file name old => rfl
    | folder name entries => simp [look] at h
  | cons n ns ih =>
    cases t with
    | file name old => simp [look] at h
    | folder name entries =>
      rw [look_put_folder, if_pos rfl]
      rw [look] at h
      cases he : entries.find? fun e => e.name == n with
      | none => exact look_grow content n ns
      | some e =>
        rw [he] at h
        exact ih h

/-- Files at other places are the same. -/
theorem look_put_other (h : ms ≠ ns) : (put content ns t).look ms = .file c ↔ t.look ms = .file c := by
  induction ns generalizing ms t with
  | nil =>
    cases t with
    | folder name entries => rfl
    | file name old =>
      cases ms with
      | nil => exact absurd rfl h
      | cons m ms => rfl
  | cons n ns ih =>
    cases t with
    | file name old => rfl
    | folder name entries =>
      cases ms with
      | nil =>
        rw [put]
        split <;> simp [look]
      | cons m ms =>
        rw [look_put_folder]
        split
        · next hm =>
          have hms : ms ≠ ns := fun he => h (by rw [hm, he])
          rw [look, hm]
          cases entries.find? fun e => e.name == n with
          | none =>
            refine iff_of_false (fun hg => hms (eq_of_look_grow hg)) ?_
            simp
          | some e => exact ih hms
        · rfl

theorem read_eq_ok_iff {p : Text} :
    t.read p = .ok c ↔ t.look (absolute p) = .file c ∧ p.getLast? ≠ some '/' := by
  rw [read, find]
  cases t.look (absolute p) with
  | file content =>
    by_cases hp : p.getLast? = some '/'
    · simp [hp]
    · simp [hp]
  | missing => simp
  | notFolder => simp
  | folder entries => simp

/-- Writing puts the file in its place. -/
theorem look_write {p : Text} (h : t.write p content = .ok t') :
    t' = t.put content (absolute p) ∧ t'.look (absolute p) = .file content := by
  simp only [write] at h
  split at h
  · cases h
  · cases h
  · split at h
    · cases h
    · cases h
    · next hfolder hnot =>
      obtain rfl := Except.ok.inj h
      refine ⟨rfl, look_put_self ?_⟩
      cases hl : t.look (absolute p) with
      | missing => exact .inl rfl
      | file old => exact .inr ⟨old, rfl⟩
      | folder entries => exact absurd (by rw [find, hl]) (hfolder entries)
      | notFolder => exact absurd (by rw [find, hl]) hnot

theorem read_write {p : Text} (h : t.write p content = .ok t') (hp : p.getLast? ≠ some '/') :
    t'.read p = .ok content :=
  read_eq_ok_iff.2 ⟨(look_write h).2, hp⟩

/-- The other files stay as they were. -/
theorem read_write_other {p q : Text} (h : t.write p content = .ok t') (hq : absolute q ≠ absolute p) :
    t'.read q = .ok c ↔ t.read q = .ok c := by
  rw [read_eq_ok_iff, read_eq_ok_iff, (look_write h).1, look_put_other hq]

end FixedForm.Tree
