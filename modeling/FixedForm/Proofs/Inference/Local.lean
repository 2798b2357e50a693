import FixedForm.Proofs.Stage.Declared

/-! Where a name comes into the symbol table.  The type declaration that brings it in leaves one line
that declares it, a header leaves none, and a name that is in the table stays there. -/
namespace FixedForm

namespace SymbolTable
variable {table : SymbolTable} {n : Text}

theorem has_congr {m : Text} (h : n.lower = m.lower) : table.has n = table.has m := by
  rw [has, has, lookup?_congr h]

theorem has_declare (s : Symbol) :
    (table.declare s).has n = (table.has n || s.name.lower == n.lower) := by
  rw [has, lookup?_declare, Option.isSome_or, has]
  by_cases h : s.name.lower = n.lower <;> simp [h]

theorem has_foldl_declare (symbols : List Symbol) :
    (symbols.foldl declare table).has n = (table.has n || symbols.any fun s => s.name.lower == n.lower) := by
  induction symbols generalizing table with
  | nil => simp
  | cons s symbols ih => rw [List.foldl_cons, ih, has_declare, List.any_cons, Bool.or_assoc]

theorem has_modify {m : Text} {f : Symbol → Symbol} (hf : ∀ s, (f s).name = s.name) :
    (table.modify m f).has n = table.has n := by
  rw [has, lookup?_modify hf]
  split
  · rw [Option.isSome_map, has]
  · rfl

theorem has_classify {m : Text} {kind : Kind} {baseType : Option BaseType} {dimensions : List Text} :
    (table.classify m kind baseType dimensions).has n = table.has n := by
  rw [classify]
  split
  · exact has_modify fun _ => rfl
  · rfl

end SymbolTable

namespace Analysis
variable {n : Text}

/-- An entry brings its name into the table, and declares it in the output if it was not there. -/
theorem record_has (a : Analysis) (line : Nat) (baseType : BaseType) (e : DeclaredEntry) (n : Text) :
    let r := a.record line baseType e
    r.1.symbols.has n = (a.symbols.has n || e.name.lower == n.lower) ∧
      r.2.isSome = !a.symbols.has e.name := by
  have hs : (a.reportAll line e.rankIssues).symbols = a.symbols := (a.reportAll_eq _ _).1
  -- a name that is in the table already
  have hold (hhas : a.symbols.has e.name = true) :
      a.symbols.has n = (a.symbols.has n || e.name.lower == n.lower) := by
    by_cases hn : e.name.lower = n.lower
    · rw [SymbolTable.has_congr hn.symm, hhas]
      rfl
    · simp [hn]
  simp only [record_eq, hs]
  split
  · next hown =>
    have hhas : a.symbols.has e.name = true := by
      simp only [isOwnFunction, hs, Bool.and_eq_true] at hown
      rw [SymbolTable.has]
      cases hl : a.symbols.lookup? e.name with
      | none => simp [hl] at hown
      | some s => rfl
    refine ⟨?_, by simp [hhas]⟩
    refine Eq.trans (SymbolTable.has_modify (f := fun f => { f with baseType := some baseType }) ?_)
      (hold hhas)
    exact fun _ => rfl
  · split
    · next hunknown =>
      have hhas : a.symbols.has e.name = true := by
        obtain ⟨s, hl, -⟩ := SymbolTable.isUnknown_iff.1 hunknown
        rw [SymbolTable.has, hl]
        rfl
      rw [(reportAll_eq _ _ _).1]
      exact ⟨SymbolTable.has_classify.trans (hold hhas), by simp [hhas]⟩
    · split
      · next hhas =>
        refine ⟨?_, by simp [hhas]⟩
        exact (congrArg (SymbolTable.has · n) (quiet_symbols _ _ _)).trans (hs ▸ hold hhas)
      · next hhas =>
        rw [(reportAll_eq _ _ _).1]
        exact ⟨SymbolTable.has_declare _, by simp [hhas]⟩

/-- The entries of a declaration leave one line for each name that they bring in. -/
theorem recordAll_has (a : Analysis) (line : Nat) (c : Declaration) (pieces : List Text) (n : Text) :
    let r := a.recordAll line c pieces
    (a.symbols.has n = true → r.1.symbols.has n = true) ∧
      r.2.countP (·.declaresName n) = (!a.symbols.has n && r.1.symbols.has n).toNat := by
  induction pieces generalizing a with
  | nil => simp [recordAll]
  | cons piece pieces ih =>
    have hissues := (a.reportAll_eq line (DeclaredEntry.parse piece).2).1
    cases hentry : c.entry? piece with
    | none =>
      have hi := ih (a.reportAll line (DeclaredEntry.parse piece).2)
      rwa [← recordAll_cons_none hentry, hissues] at hi
    | some e =>
      rw [recordAll_cons_some hentry]
      obtain ⟨hhas, hmade⟩ := record_has (a.reportAll line (DeclaredEntry.parse piece).2) line c.baseType e n
      rw [hissues] at hhas hmade
      generalize (a.reportAll line (DeclaredEntry.parse piece).2).record line c.baseType e = r
        at hhas hmade ⊢
      obtain ⟨hkeep, hcount⟩ := ih r.1
      have hdraft (t : Text) : Draft.declaresName n
          { text := c.indent ++ t, shape := .declaration, declares := some e.name } =
            (e.name.lower == n.lower) := rfl
      refine ⟨fun h => hkeep (by rw [hhas, h]; rfl), ?_⟩
      dsimp only
      rw [List.countP_append, hcount]
      by_cases hn : e.name.lower = n.lower
      · have hafter : r.1.symbols.has n = true := by simp [hhas, hn]
        rw [SymbolTable.has_congr hn] at hmade
        rw [hkeep hafter, hafter]
        cases hb : a.symbols.has n <;> cases hr : r.2 <;> simp_all
      · have hsame : r.1.symbols.has n = a.symbols.has n := by simp [hhas, hn]
        rw [hsame]
        cases r.2 <;> simp [hdraft, hn]

end Analysis

namespace Inference
open Buffer (declaring)
variable {n : Text} {l : Line}

/-- What a line does to a name, which is in the table `before` it or not, and `after` it: `made` lines
that declare the name stand in its place. -/
structure Tracks (l : Line) (before after : Bool) (made : Nat) : Prop where
  keeps : before = true → after = true
  declares : made = (l.shape == .declaration && !before && after).toNat
  brings : before = false → after = true → l.shape = .declaration ∨ l.shape = .header

theorem Tracks.same (l : Line) (b : Bool) : Tracks l b b 0 where
  keeps := id
  declares := by cases b <;> simp
  brings h h' := by simp [h] at h'

theorem countP_of_declares {es : List Entry} (h : ∀ e ∈ es, e.contents.declares = none) :
    es.countP (·.contents.declaresName n) = 0 :=
  List.countP_eq_zero.2 fun e he => by simp [Draft.declaresName, h e he]

theorem has_openUnit (a : Analysis) (l : Line) (h : a.symbols.has n = true) :
    (openUnit a l).symbols.has n = true := by
  simp only [openUnit]
  split
  · exact h
  · split
    · exact h
    · dsimp only
      rw [SymbolTable.has_foldl_declare]
      split <;> simp [Analysis.report, h]

theorem tracks_inferLine (a : Analysis) (previous : Option Shape) (hl : l.declares = none) :
    let r := inferLine a previous l
    Tracks l (a.symbols.has n) (r.1.symbols.has n) (r.2.countP (·.contents.declaresName n)) := by
  dsimp only
  generalize hr : inferLine a previous l = r
  rcases inferLine_cases hr hl with ⟨hs, rfl⟩ | ⟨hs, c, -, rfl⟩ | ⟨-, hsymbols, -, hdeclares⟩
  · have hkeep : ([Entry.kept l.toDraft].countP (·.contents.declaresName n)) = 0 :=
      countP_of_declares fun e he => List.mem_singleton.1 he ▸ hl
    refine ⟨has_openUnit a l, ?_, fun _ _ => .inr hs⟩
    rw [hkeep, hs]
    rfl
  · have hsymbols := (a.reportAll_eq l.id (c.list.splitCommas.2.map .mismatch)).1
    obtain ⟨hkeeps, hcount⟩ := Analysis.recordAll_has
      (a.reportAll l.id (c.list.splitCommas.2.map .mismatch)) l.id c c.list.splitCommas.1 n
    rw [hsymbols] at hkeeps hcount
    refine ⟨hkeeps, ?_, fun _ _ => .inl hs⟩
    rw [List.countP_map, hs]
    exact hcount
  · rw [hsymbols, countP_of_declares hdeclares]
    exact .same l _

theorem tracks_step (s : Analysis × Option Shape) (hl : l.declares = none) :
    let r := step s l
    Tracks l (s.1.symbols.has n) (r.1.1.symbols.has n) (r.2.countP (·.contents.declaresName n)) :=
  tracks_inferLine s.1 s.2 hl

theorem declaring_place_eq (l : Line) (next : Nat) (es : List Entry) :
    declaring n (Buffer.place l next es).1 =
      List.replicate (es.countP (·.contents.declaresName n)) l.origin := by
  rw [Buffer.declaring_place, List.countP_eq_length_filter, List.map_const']

/-- The state behind the lines. -/
def after (s : Analysis × Option Shape) (lines : List Line) : Analysis × Option Shape :=
  lines.foldl (fun s l => (step s l).1) s

theorem after_editFrom (s : Analysis × Option Shape) (next : Nat) (lines : List Line) :
    (Buffer.editFrom step s next lines).1 = after s lines := by
  induction lines generalizing s next with
  | nil => rfl
  | cons l lines ih => exact ih _ _

section Run
variable {lines : List Line} (hl : ∀ l ∈ lines, l.declares = none) {s : Analysis × Option Shape}
include hl

theorem has_after (h : s.1.symbols.has n = true) : (after s lines).1.symbols.has n = true := by
  induction lines generalizing s with
  | nil => exact h
  | cons l lines ih =>
    exact ih (fun m hm => hl m (by simp [hm])) ((tracks_step s (hl l (by simp))).keeps h)

/-- No line declares a name that is in the table already, or that does not come into it. -/
theorem declaring_of_same (next : Nat) (h : (after s lines).1.symbols.has n = s.1.symbols.has n) :
    declaring n (Buffer.editFrom step s next lines).2.1 = [] := by
  induction lines generalizing s next with
  | nil => rfl
  | cons l lines ih =>
    have hl' : ∀ m ∈ lines, m.declares = none := fun m hm => hl m (by simp [hm])
    have ht := tracks_step (n := n) s (hl l (by simp))
    have hsame : (step s l).1.1.symbols.has n = s.1.symbols.has n := by
      cases hb : (step s l).1.1.symbols.has n with
      | true => exact (has_after hl' hb).symm.trans h
      | false => exact (Bool.eq_false_iff.2 fun hs => by simp [ht.keeps hs] at hb).symm
    have hmade : (step s l).2.countP (·.contents.declaresName n) = 0 := by
      rw [ht.declares, hsame, Bool.and_assoc, Bool.not_and_self, Bool.and_false, Bool.toNat_false]
    rw [Buffer.editFrom, Buffer.declaring_append, declaring_place_eq, hmade]
    exact ih hl' _ (h.trans hsame.symm)

/-- A name that comes into the table comes with one of the lines. -/
theorem exists_brings (hs : s.1.symbols.has n = false) (h : (after s lines).1.symbols.has n = true) :
    ∃ before l rest, lines = before ++ l :: rest ∧ (after s before).1.symbols.has n = false ∧
      (after s (before ++ [l])).1.symbols.has n = true := by
  induction lines generalizing s with
  | nil => exact absurd (hs.symm.trans h) (by decide)
  | cons l lines ih =>
    cases hb : (step s l).1.1.symbols.has n with
    | true => exact ⟨[], l, lines, rfl, hs, hb⟩
    | false =>
      obtain ⟨before, m, rest, rfl, h₁, h₂⟩ := ih (fun m hm => hl m (by simp [hm])) hb h
      exact ⟨l :: before, m, rest, rfl, h₁, h₂⟩

end Run

/-- The line with which a name comes into the table is the only one that can declare it. -/
theorem declaring_of_brings {before rest : List Line} {s : Analysis × Option Shape}
    (hl : ∀ m ∈ before ++ l :: rest, m.declares = none)
    (hb : (after s before).1.symbols.has n = false)
    (ha : (after s (before ++ [l])).1.symbols.has n = true) (next : Nat) :
    declaring n (Buffer.editFrom step s next (before ++ l :: rest)).2.1 =
      if l.shape = .declaration then [l.origin] else [] := by
  have hbefore : ∀ m ∈ before, m.declares = none := fun m hm => hl m (by simp [hm])
  have hrest : ∀ m ∈ rest, m.declares = none := fun m hm => hl m (by simp [hm])
  have hstart : s.1.symbols.has n = false := Bool.eq_false_iff.2 fun hs => by simp [has_after hbefore hs] at hb
  have hstep : (step (after s before) l).1.1.symbols.has n = true := by rwa [after, List.foldl_append] at ha
  have ht := tracks_step (n := n) (after s before) (hl l (by simp))
  rw [Buffer.editFrom_append rfl rfl, Buffer.declaring_append, declaring_of_same hbefore _ (hb.trans hstart.symm),
    after_editFrom, Buffer.editFrom, Buffer.declaring_append, declaring_place_eq, ht.declares, hb, hstep,
    declaring_of_same hrest _ ((has_after hrest hstep).trans hstep.symm)]
  by_cases hd : l.shape = .declaration <;> simp [hd]

/-- A line that brings a name into the table is a declaration or a header. -/
theorem shape_of_brings {before : List Line} {s : Analysis × Option Shape} (hl : l.declares = none)
    (hb : (after s before).1.symbols.has n = false)
    (ha : (after s (before ++ [l])).1.symbols.has n = true) :
    l.shape = .declaration ∨ l.shape = .header := by
  have hstep : after s (before ++ [l]) = (step (after s before) l).1 := by
    rw [after, List.foldl_append]
    rfl
  rw [hstep] at ha
  exact (tracks_step _ hl).brings hb ha

theorem symbols_run (a : Analysis) (b : Buffer) :
    let e := b.edit collectConstants a
    (run a b).1.symbols = (after (e.1, none) e.2.lines).1.symbols := by
  simp only [run]
  generalize b.edit collectConstants a = e
  have hstate : (e.2.edit step (e.1, none)).1 = after (e.1, none) e.2.lines := after_editFrom _ _ _
  generalize e.2.edit step (e.1, none) = e' at hstate ⊢
  rw [reportUntyped, Analysis.quiet_symbols.reportAll, symbols_finishUnit,
    Analysis.quiet_symbols.reportUndeclared]
  exact congrArg (fun s => s.1.symbols) hstate

theorem declaring_run (a : Analysis) (b : Buffer) :
    let e := b.edit collectConstants a
    declaring n (run a b).2.lines =
      declaring n (Buffer.editFrom step (e.1, none) e.2.nextId e.2.lines).2.1 := by
  simp only [run]
  generalize b.edit collectConstants a = e
  change declaring n (finishUnit _ (e.2.edit step (e.1, none)).2).2.lines =
    declaring n (e.2.edit step (e.1, none)).2.lines
  generalize e.2.edit step (e.1, none) = e'
  generalize reportUndeclared e'.1.1 e'.2.lines = a'
  cases hp : a'.procedure with
  | none => rw [finishUnit_none hp]
  | some p =>
    rw [finishUnit_some hp]
    exact declaring_writeHeader _ _

theorem known_eq (options : Options) (source : Text) (before : List Line) :
    known options source before = after (opening options source, none) (before.map Line.prepared) := rfl

/-- The name comes into the symbol table with that card. -/
def Enters (options : Options) (source n : Text) (l : Line) : Prop :=
  ∃ before rest, (Card.read source).lines = before ++ l :: rest ∧
    (known options source before).1.symbols.has n = false ∧
    (known options source (before ++ [l])).1.symbols.has n = true

end Inference

namespace Progress
open Inference
open Buffer (declaring)

/-- A unit from the cards to the end of inference. -/
def inferred (options : Options) (source : Text) : Progress :=
  (start options (Card.read source)).runAll [.spelling, .shapes, .inference]

section Names
variable (options : Options) (source n : Text)

theorem symbols_inference : (inferred options source).analysis.symbols =
    (known options source (Card.read source).lines).1.symbols := by
  obtain ⟨ha, -⟩ := runAll_inference options source
  rw [inferred, ha, Inference.symbols_run, lines_collectConstants, known_eq]
  rfl

theorem declaring_inference : ∃ next,
    declaring n (inferred options source).buffer.lines =
      declaring n (Buffer.editFrom step (opening options source, none) next
        ((Card.read source).lines.map Line.prepared)).2.1 := by
  obtain ⟨-, hb⟩ := runAll_inference options source
  rw [inferred, hb, declaring_run, lines_collectConstants]
  exact ⟨_, rfl⟩

theorem not_has_opening : (opening options source).symbols.has n = false := by
  have hspell : ((Card.read source).edit Stage.spell { options }).1.symbols = {} :=
    Buffer.edit_view Analysis.symbols Analysis.quiet_symbols.spell { options } _
  rw [opening, symbols_collectConstants, hspell]
  rfl

theorem declares_lines : ∀ l ∈ (Card.read source).lines.map Line.prepared, l.declares = none := by
  intro l hl
  obtain ⟨m, hm, rfl⟩ := List.mem_map.1 hl
  exact Line.declares_prepared hm

/-- The cards that bring a name in are those that it is known from. -/
theorem has_iff_enters :
    (inferred options source).analysis.symbols.has n = true ↔ ∃ l, Enters options source n l := by
  rw [symbols_inference, known_eq]
  have hl := declares_lines source
  constructor
  · intro h
    obtain ⟨before, l, rest, hlines, hb, ha⟩ :=
      exists_brings (s := (opening options source, none)) hl (not_has_opening options source n) h
    obtain ⟨xs, ys, hcards, rfl, hys⟩ := List.map_eq_append_iff.1 hlines
    obtain ⟨c, zs, rfl, rfl, rfl⟩ := List.map_eq_cons_iff.1 hys
    refine ⟨c, xs, zs, hcards, hb, ?_⟩
    rw [known_eq, List.map_append]
    exact ha
  · rintro ⟨l, before, rest, hcards, -, ha⟩
    rw [hcards] at hl
    have hrest : ∀ m ∈ rest.map Line.prepared, m.declares = none := fun m hm => hl m (by
      rw [List.map_append, List.map_cons]
      exact List.mem_append_right _ (List.mem_cons_of_mem _ hm))
    have hsplit : after (opening options source, none) ((before ++ l :: rest).map Line.prepared) =
        after (known options source (before ++ [l])) (rest.map Line.prepared) := by
      simp only [known, after, List.map_append, List.map_cons, List.foldl_append, List.foldl_cons,
        List.map_nil, List.foldl_nil]
    rw [hcards, hsplit]
    exact has_after hrest ha

end Names

section Enters
variable {options : Options} {source n : Text} {l : Line}

theorem declaring_enters (h : Enters options source n l) :
    declaring n (inferred options source).buffer.lines =
      if l.prepared.shape = .declaration then [l.origin] else [] := by
  obtain ⟨before, rest, hcards, hb, ha⟩ := h
  rw [known_eq] at hb
  obtain ⟨next, hdeclaring⟩ := declaring_inference options source n
  have hl := declares_lines source
  rw [hcards, List.map_append, List.map_cons] at hl hdeclaring
  rw [known_eq, List.map_append] at ha
  rw [hdeclaring]
  exact declaring_of_brings hl hb ha next

theorem declaring_of_not_enters (h : ∀ l, ¬ Enters options source n l) :
    declaring n (inferred options source).buffer.lines = [] := by
  obtain ⟨next, hdeclaring⟩ := declaring_inference options source n
  rw [hdeclaring]
  have hhas := has_iff_enters options source n
  rw [symbols_inference, known_eq] at hhas
  have hnot := Bool.eq_false_iff.2 fun hb => (hhas.1 hb).elim h
  refine declaring_of_same (declares_lines source) next (hnot.trans (Bool.eq_false_iff.2 fun hs => ?_).symm)
  simp [has_after (declares_lines source) hs] at hnot

theorem shape_enters (h : Enters options source n l) :
    l.prepared.shape = .declaration ∨ l.prepared.shape = .header := by
  obtain ⟨before, rest, hcards, hb, ha⟩ := h
  have hl : l ∈ (Card.read source).lines := by
    rw [hcards]
    exact List.mem_append_right _ List.mem_cons_self
  rw [known_eq, List.map_append] at ha
  exact shape_of_brings (Line.declares_prepared hl) hb ha

end Enters

end Progress

end FixedForm
