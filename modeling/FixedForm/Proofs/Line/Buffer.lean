import FixedForm.Line.Buffer
import Mathlib.Data.List.Nodup

/-! Editing a buffer line by line.  What holds of the entries of each step holds of the whole buffer:
states, properties of lines, numbers of lines and the numbering itself. -/
namespace FixedForm

def Entry.isKept : Entry → Bool
  | .kept _ => true
  | .fresh _ => false

namespace Buffer
variable {σ : Type} {step : σ → Line → σ × List Entry}

theorem editFrom_append {s s' s'' : σ} {n n' n'' : Nat} {xs ys out out' : List Line}
    (h : editFrom step s n xs = (s', out, n')) (h' : editFrom step s' n' ys = (s'', out', n'')) :
    editFrom step s n (xs ++ ys) = (s'', out ++ out', n'') := by
  induction xs generalizing s n out with
  | nil =>
    simp only [editFrom, Prod.mk.injEq] at h
    obtain ⟨rfl, rfl, rfl⟩ := h
    simpa using h'
  | cons l xs ih =>
    simp only [editFrom, Prod.mk.injEq] at h
    obtain ⟨h₁, rfl, h₂⟩ := h
    have hrest := ih (Prod.ext h₁ (Prod.ext rfl h₂))
    simp only [List.cons_append, editFrom, hrest, List.append_assoc]

theorem le_place (l : Line) (next : Nat) (es : List Entry) : next ≤ (place l next es).2 := by
  induction es generalizing next with
  | nil => exact Nat.le_refl _
  | cons e es ih =>
    cases e with
    | kept d => exact ih next
    | fresh d => exact Nat.le_of_succ_le (ih (next + 1))

/-- A placed line is the line itself or has a new number; its contents are those of an entry. -/
theorem mem_place {l m : Line} {next : Nat} {es : List Entry} (h : m ∈ (place l next es).1) :
    m.origin = l.origin ∧ ((.kept m.toDraft ∈ es ∧ m.id = l.id) ∨
      (.fresh m.toDraft ∈ es ∧ next ≤ m.id ∧ m.id < (place l next es).2)) := by
  induction es generalizing next with
  | nil => cases h
  | cons e es ih =>
    cases e with
    | kept d =>
      rcases List.mem_cons.1 h with rfl | h
      · exact ⟨rfl, .inl ⟨by simp, rfl⟩⟩
      · obtain ⟨ho, ⟨hd, hi⟩ | ⟨hd, hi⟩⟩ := ih h
        · exact ⟨ho, .inl ⟨List.mem_cons_of_mem _ hd, hi⟩⟩
        · exact ⟨ho, .inr ⟨List.mem_cons_of_mem _ hd, hi⟩⟩
    | fresh d =>
      rcases List.mem_cons.1 h with rfl | h
      · exact ⟨rfl, .inr ⟨by simp, Nat.le_refl _, le_place l (next + 1) es⟩⟩
      · obtain ⟨ho, ⟨hd, hi⟩ | ⟨hd, hn, hi⟩⟩ := ih h
        · exact ⟨ho, .inl ⟨List.mem_cons_of_mem _ hd, hi⟩⟩
        · exact ⟨ho, .inr ⟨List.mem_cons_of_mem _ hd, Nat.le_of_succ_le hn, hi⟩⟩

/-- Counting placed lines by a property that does not depend on new numbers. -/
theorem countP_place {q : Line → Bool} {r : Draft → Bool} {l : Line} {next : Nat}
    (hq : ∀ d i, next ≤ i → q { d with id := i, origin := l.origin } = r d) (es : List Entry) :
    (place l next es).1.countP q = es.countP fun
      | .kept d => q { d with id := l.id, origin := l.origin }
      | .fresh d => r d := by
  induction es generalizing next with
  | nil => rfl
  | cons e es ih =>
    cases e with
    | kept d => simp only [place, List.countP_cons, ih hq]
    | fresh d =>
      have hrest := ih fun d i hi => hq d i (Nat.le_of_succ_le hi)
      simp only [place, List.countP_cons, hrest, hq d next (Nat.le_refl _)]

section Run
variable {P : σ → Prop} {lines : List Line}

/-- A property of states that every step keeps. -/
theorem editFrom_state {s : σ} (n : Nat) (hs : P s)
    (hstep : ∀ s, P s → ∀ l ∈ lines, P (step s l).1) : P (editFrom step s n lines).1 := by
  induction lines generalizing s n with
  | nil => exact hs
  | cons l lines ih =>
    exact ih _ (hstep s hs l (by simp)) fun s hs m hm => hstep s hs m (by simp [hm])

/-- A relation between lines and the lines in their place, if each step gives it. -/
theorem editFrom_lines {R : List Line → List Line → Prop} (hnil : R [] [])
    (happend : ∀ {l ls out outs}, R [l] out → R ls outs → R (l :: ls) (out ++ outs)) {s : σ} {n : Nat} (hs : P s)
    (hstep : ∀ s, P s → ∀ l ∈ lines, P (step s l).1 ∧
      ∀ next, n ≤ next → R [l] (place l next (step s l).2).1) : R lines (editFrom step s n lines).2.1 := by
  induction lines generalizing s n with
  | nil => exact hnil
  | cons l lines ih =>
    obtain ⟨hs', hl⟩ := hstep s hs l (by simp)
    refine happend (hl n (Nat.le_refl _)) (ih hs' fun s hs m hm => ?_)
    obtain ⟨hs', hm⟩ := hstep s hs m (by simp [hm])
    exact ⟨hs', fun next hn => hm next (Nat.le_trans (le_place _ _ _) hn)⟩

/-- A property of lines that every step gives its entries. -/
theorem forall_mem_editFrom {Q : Line → Prop} {s : σ} {n : Nat} (hs : P s)
    (hstep : ∀ s, P s → ∀ l ∈ lines, P (step s l).1 ∧
      ∀ next, n ≤ next → ∀ m ∈ (place l next (step s l).2).1, Q m) :
    ∀ m ∈ (editFrom step s n lines).2.1, Q m :=
  editFrom_lines (R := fun _ out => ∀ m ∈ out, Q m) (by simp) (fun h h' => List.forall_mem_append.2 ⟨h, h'⟩) hs hstep

/-- The number of lines with `q` in the result is the number of lines with `p` before, if that is so
for each line. -/
theorem countP_editFrom {p q : Line → Bool} {s : σ} {n : Nat} (hs : P s)
    (hstep : ∀ s, P s → ∀ l ∈ lines, P (step s l).1 ∧
      ∀ next, n ≤ next → (place l next (step s l).2).1.countP q = [l].countP p) :
    (editFrom step s n lines).2.1.countP q = lines.countP p := by
  refine editFrom_lines (R := fun ls out => out.countP q = ls.countP p) rfl (fun h h' => ?_) hs hstep
  rw [List.countP_append, h, h', ← List.countP_append, List.singleton_append]

end Run

/-- The lines, each with the state in which an edit comes to it. -/
def reached (step : σ → Line → σ × List Entry) : σ → List Line → List (σ × Line)
  | _, [] => []
  | s, l :: lines => (s, l) :: reached step (step s l).1 lines

theorem map_snd_reached (s : σ) (lines : List Line) : (reached step s lines).map Prod.snd = lines := by
  induction lines generalizing s with
  | nil => rfl
  | cons l lines ih => rw [reached, List.map_cons, ih]

theorem mem_reached (s : σ) (before : List Line) (l : Line) (after : List Line) :
    (before.foldl (fun s l => (step s l).1) s, l) ∈ reached step s (before ++ l :: after) := by
  induction before generalizing s with
  | nil => exact List.mem_cons_self
  | cons m before ih => exact List.mem_cons_of_mem _ (ih (step s m).1)

/-- What is read off the result comes line by line from the states that are reached. -/
theorem filterMap_editFrom {β : Type} {f : Line → Option β} {g : σ × Line → Option β} {lines : List Line}
    (h : ∀ s, ∀ l ∈ lines, ∀ next,
      (place l next (step s l).2).1.filterMap f = (g (s, l)).toList) (s : σ) (n : Nat) :
    (editFrom step s n lines).2.1.filterMap f = (reached step s lines).filterMap g := by
  induction lines generalizing s n with
  | nil => rfl
  | cons l lines ih =>
    have hrest := ih (fun s m hm => h s m (by simp [hm])) (step s l).1 (place l n (step s l).2).2
    have hfirst := h s l (by simp) n
    rw [reached, List.filterMap_cons, ← hrest]
    refine List.filterMap_append.trans ?_
    rw [hfirst]
    cases g (s, l) <;> rfl

/-- Steps that keep every line with contents of its own. -/
theorem edit_eq_map {f : Line → Draft} (h : ∀ s l, (step s l).2 = [.kept (f l)]) (s : σ) (b : Buffer) :
    (b.edit step s).2 = b.map f := by
  have hfrom (s : σ) (n : Nat) (lines : List Line) : (editFrom step s n lines).2 =
      (lines.map fun l => { f l with id := l.id, origin := l.origin }, n) := by
    induction lines generalizing s with
    | nil => rfl
    | cons l lines ih => simp only [editFrom, h, place, ih]; rfl
  rw [edit, Buffer.map]
  simp only [hfrom]

/-- The entries of a line see its identity and its origin only. -/
theorem place_congr {l m : Line} (hi : l.id = m.id) (ho : l.origin = m.origin) (next : Nat)
    (es : List Entry) : place l next es = place m next es := by
  induction es generalizing next with
  | nil => rfl
  | cons e es ih =>
    cases e with
    | kept d => rw [place, place, ih, hi, ho]
    | fresh d => rw [place, place, ih, ho]

/-- Lines with other contents, to which the edit does the same. -/
theorem editFrom_map {f : Line → Line} {lines : List Line} (hi : ∀ l, (f l).id = l.id)
    (ho : ∀ l, (f l).origin = l.origin) (hstep : ∀ s, ∀ l ∈ lines, step s (f l) = step s l) (s : σ) (n : Nat) :
    editFrom step s n (lines.map f) = editFrom step s n lines := by
  induction lines generalizing s n with
  | nil => rfl
  | cons l lines ih =>
    have hrest := ih fun s m hm => hstep s m (by simp [hm])
    simp only [List.map_cons, editFrom, hstep s l (by simp), place_congr (hi l) (ho l), hrest]

/-- The numbers of a list of lines are distinct and below `next`. -/
structure NumberedBelow (next : Nat) (lines : List Line) : Prop where
  nodup : (lines.map (·.id)).Nodup
  below : ∀ l ∈ lines, l.id < next

/-- The numbers of the lines are distinct, and the next one is free. -/
def Numbered (b : Buffer) : Prop := NumberedBelow b.nextId b.lines

theorem NumberedBelow.eq_of_id {next : Nat} {lines : List Line} (h : NumberedBelow next lines)
    {l m : Line} (hl : l ∈ lines) (hm : m ∈ lines) (he : l.id = m.id) : l = m :=
  List.inj_on_of_nodup_map h.nodup hl hm he

theorem NumberedBelow.place {l : Line} {next : Nat} (hl : l.id < next) {es : List Entry}
    (hk : es.countP Entry.isKept ≤ 1) :
    NumberedBelow (Buffer.place l next es).2 (Buffer.place l next es).1 := by
  induction es generalizing next with
  | nil => exact ⟨by simp [Buffer.place], by simp [Buffer.place]⟩
  | cons e es ih =>
    cases e with
    | kept d =>
      have hnone : es.countP Entry.isKept = 0 := by
        simpa [List.countP_cons, Entry.isKept] using hk
      obtain ⟨hn, hb⟩ := ih hl (by omega)
      refine ⟨List.nodup_cons.2 ⟨fun hm => ?_, hn⟩, fun m hm => ?_⟩
      · obtain ⟨m, hm, he⟩ := List.mem_map.1 hm
        obtain ⟨-, ⟨hkept, -⟩ | ⟨-, hi, -⟩⟩ := mem_place hm
        · exact absurd (List.countP_eq_zero.1 hnone _ hkept) (by simp [Entry.isKept])
        · change m.id = l.id at he
          omega
      · rcases List.mem_cons.1 hm with rfl | hm
        · exact Nat.lt_of_lt_of_le hl (le_place l next es)
        · exact hb m hm
    | fresh d =>
      obtain ⟨hn, hb⟩ := ih (Nat.lt_succ_of_lt hl) (by simpa [List.countP_cons, Entry.isKept] using hk)
      refine ⟨List.nodup_cons.2 ⟨fun hm => ?_, hn⟩, fun m hm => ?_⟩
      · obtain ⟨m, hm, he⟩ := List.mem_map.1 hm
        change m.id = next at he
        obtain ⟨-, ⟨-, hi⟩ | ⟨-, hi, -⟩⟩ := mem_place hm
        · omega
        · omega
      · rcases List.mem_cons.1 hm with rfl | hm
        · exact le_place l (next + 1) es
        · exact hb m hm

theorem NumberedBelow.append {n n' : Nat} {xs ys : List Line} (hx : NumberedBelow n xs)
    (hy : NumberedBelow n' ys) (hn : n ≤ n') (hd : ∀ x ∈ xs, ∀ y ∈ ys, x.id ≠ y.id) :
    NumberedBelow n' (xs ++ ys) := by
  constructor
  · rw [List.map_append, List.nodup_append]
    refine ⟨hx.nodup, hy.nodup, fun i hi j hj => ?_⟩
    obtain ⟨x, hx, rfl⟩ := List.mem_map.1 hi
    obtain ⟨y, hy, rfl⟩ := List.mem_map.1 hj
    exact hd x hx y hy
  · intro l hl
    rcases List.mem_append.1 hl with hl | hl
    · exact Nat.lt_of_lt_of_le (hx.below l hl) hn
    · exact hy.below l hl

/-- A result line has the number of one of the lines, or a new one. -/
theorem id_of_mem_editFrom {s : σ} {n : Nat} {lines : List Line} {m : Line}
    (h : m ∈ (editFrom step s n lines).2.1) : m.id ∈ lines.map (·.id) ∨ n ≤ m.id := by
  refine forall_mem_editFrom (P := fun _ => True) (Q := fun m => m.id ∈ lines.map (·.id) ∨ n ≤ m.id)
    trivial (fun s _ l hl => ⟨trivial, fun next hn m hm => ?_⟩) m h
  obtain ⟨-, ⟨-, hi⟩ | ⟨-, hi, -⟩⟩ := mem_place hm
  · exact .inl (hi ▸ List.mem_map_of_mem hl)
  · exact .inr (Nat.le_trans hn hi)

theorem le_editFrom (s : σ) (n : Nat) (lines : List Line) : n ≤ (editFrom step s n lines).2.2 := by
  induction lines generalizing s n with
  | nil => exact Nat.le_refl _
  | cons l lines ih => exact Nat.le_trans (le_place l n (step s l).2) (ih _ _)

/-- If no step keeps a line twice, the numbers stay distinct. -/
theorem NumberedBelow.editFrom (hk : ∀ s l, (step s l).2.countP Entry.isKept ≤ 1) {s : σ} {n : Nat}
    {lines : List Line} (h : NumberedBelow n lines) :
    NumberedBelow (editFrom step s n lines).2.2 (editFrom step s n lines).2.1 := by
  induction lines generalizing s n with
  | nil => exact h
  | cons l lines ih =>
    have hl : l.id < n := h.below l (by simp)
    have hle := le_place l n (step s l).2
    have hplaced := NumberedBelow.place hl (hk s l)
    have hrest : NumberedBelow (Buffer.place l n (step s l).2).2 lines :=
      ⟨h.nodup.of_cons, fun m hm => Nat.lt_of_lt_of_le (h.below m (by simp [hm])) hle⟩
    refine hplaced.append (ih hrest) (le_editFrom _ _ _) fun x hx y hy he => ?_
    have hlt := hplaced.below x hx
    -- `y` has an old number of another line, or one that is newer than all placed lines
    rcases id_of_mem_editFrom hy with hy | hy
    · obtain ⟨m, hm, hi⟩ := List.mem_map.1 hy
      have hm' := h.below m (by simp [hm])
      have hne : l.id ≠ m.id := fun hlm =>
        (List.nodup_cons.1 h.nodup).1 (List.mem_map.2 ⟨m, hm, hlm.symm⟩)
      obtain ⟨-, ⟨-, hx⟩ | ⟨-, hx, -⟩⟩ := mem_place hx <;> omega
    · omega

theorem Numbered.edit (hk : ∀ s l, (step s l).2.countP Entry.isKept ≤ 1) {b : Buffer}
    (h : b.Numbered) (s : σ) : (b.edit step s).2.Numbered :=
  NumberedBelow.editFrom hk h

theorem Numbered.map {b : Buffer} (h : b.Numbered) (f : Line → Draft) : (b.map f).Numbered := by
  constructor
  · simpa [Buffer.map, Function.comp_def] using h.nodup
  · intro l hl
    obtain ⟨m, hm, rfl⟩ := List.mem_map.1 hl
    exact h.below m hm

theorem Numbered.remove {b : Buffer} (h : b.Numbered) (p : Line → Bool) : (b.remove p).Numbered := by
  have hsub : (b.remove p).lines.Sublist b.lines := List.filter_sublist
  exact ⟨h.nodup.sublist (hsub.map _), fun l hl => h.below l (hsub.subset hl)⟩

theorem insertAt_perm (id : Nat) (added lines : List Line) :
    (insertAt id added lines).Perm (lines ++ added) := by
  induction lines with
  | nil => exact List.Perm.refl _
  | cons l lines ih =>
    rw [insertAt]
    split
    · exact (List.perm_append_comm).cons l
    · exact ih.cons l

theorem NumberedBelow.perm {n : Nat} {xs ys : List Line} (h : NumberedBelow n xs)
    (hp : ys.Perm xs) : NumberedBelow n ys :=
  ⟨(hp.map _).nodup_iff.2 h.nodup, fun l hl => h.below l (hp.mem_iff.1 hl)⟩

/-- The lines that are put behind an anchor. -/
def added (anchor : Line) (next : Nat) (drafts : List Draft) : List Line :=
  drafts.mapIdx fun i d => { d with id := next + i, origin := anchor.origin }

theorem mem_added {anchor l : Line} {next : Nat} {drafts : List Draft}
    (h : l ∈ added anchor next drafts) :
    l.toDraft ∈ drafts ∧ l.origin = anchor.origin ∧ next ≤ l.id ∧ l.id < next + drafts.length := by
  obtain ⟨i, hi, rfl⟩ := List.mem_mapIdx.1 h
  exact ⟨List.getElem_mem hi, rfl, Nat.le_add_right _ _, Nat.add_lt_add_left hi _⟩

theorem numberedBelow_added (anchor : Line) (next : Nat) (drafts : List Draft) :
    NumberedBelow (next + drafts.length) (added anchor next drafts) := by
  refine ⟨?_, fun l hl => (mem_added hl).2.2.2⟩
  rw [List.nodup_iff_injective_getElem]
  intro i j hij
  have he : next + (i : Nat) = next + j := by simpa [added] using hij
  exact Fin.ext (Nat.add_left_cancel he)

theorem insertAfter_perm (anchor : Line) (drafts : List Draft) (b : Buffer) :
    (b.insertAfter anchor drafts).lines.Perm (b.lines ++ added anchor b.nextId drafts) :=
  insertAt_perm _ _ _

theorem Numbered.insertAfter {b : Buffer} (h : b.Numbered) (anchor : Line) (drafts : List Draft) :
    (b.insertAfter anchor drafts).Numbered := by
  have happ : NumberedBelow (b.nextId + drafts.length) (b.lines ++ added anchor b.nextId drafts) := by
    refine NumberedBelow.append h (numberedBelow_added _ _ _) (Nat.le_add_right _ _) ?_
    intro x hx y hy he
    have hlt := h.below x hx
    have hge := (mem_added hy).2.2.1
    omega
  exact happ.perm (insertAfter_perm anchor drafts b)

theorem Numbered.get?_of_mem {b : Buffer} (h : b.Numbered) {l : Line} (hl : l ∈ b.lines) :
    b.get? l.id = some l := by
  cases hf : b.get? l.id with
  | none => exact absurd (List.find?_eq_none.1 hf l hl) (by simp)
  | some m =>
    have hid : m.id = l.id := by simpa using List.find?_some hf
    rw [h.eq_of_id (List.mem_of_find?_eq_some hf) hl hid]

/-- A line that no step changes. -/
theorem mem_edit {b : Buffer} {l : Line} (hl : l ∈ b.lines) (hstep : ∀ s, (step s l).2 = [.kept l.toDraft])
    (s : σ) : l ∈ (b.edit step s).2.lines := by
  have hfrom (s : σ) (n : Nat) (lines : List Line) (hl : l ∈ lines) :
      l ∈ (editFrom step s n lines).2.1 := by
    induction lines generalizing s n with
    | nil => cases hl
    | cons m lines ih =>
      rcases List.mem_cons.1 hl with rfl | hl
      · simp [editFrom, hstep, place]
      · exact List.mem_append_right _ (ih _ _ hl)
  exact hfrom s b.nextId b.lines hl

/-- The number `anchor`, if there is one, is taken, and its line holds contents with `P`. -/
structure Anchored (P : Draft → Prop) (anchor : Option Nat) (b : Buffer) : Prop where
  holds : ∀ l ∈ b.lines, anchor = some l.id → P l.toDraft
  below : ∀ i, anchor = some i → i < b.nextId

theorem Anchored.edit {P Q : Draft → Prop} {anchor : Option Nat} {b : Buffer}
    (h : b.Anchored P anchor)
    (hstep : ∀ s l d, P l.toDraft → .kept d ∈ (step s l).2 → Q d) (s : σ) :
    (b.edit step s).2.Anchored Q anchor := by
  refine ⟨fun m hm hi => ?_, fun i hi => Nat.lt_of_lt_of_le (h.below i hi) (le_editFrom _ _ _)⟩
  refine forall_mem_editFrom (P := fun _ => True) (Q := fun m => anchor = some m.id → Q m.toDraft)
    trivial (fun s _ l hl => ⟨trivial, fun next hn m hm hi => ?_⟩) m hm hi
  obtain ⟨-, ⟨hd, he⟩ | ⟨-, he, -⟩⟩ := mem_place hm
  · exact hstep s l m.toDraft (h.holds l hl (he ▸ hi)) hd
  · have := h.below m.id hi
    omega

end Buffer

end FixedForm
