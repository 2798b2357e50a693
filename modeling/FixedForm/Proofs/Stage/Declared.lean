import FixedForm.Proofs.Declaration.History
import FixedForm.Proofs.Stage.Label

/-! The first declaration of a name wins.  The history of a name from the cards to the end of
inference: each line adds its own entries, and the lines that declare the name come from the first of
them. -/
namespace FixedForm
open Analysis (History)

/-- The name is that of the unit. -/
def Analysis.isOwnName (a : Analysis) (n : Text) : Bool :=
  (a.heading.map fun h => h.1.lower == n.lower).getD false

namespace Buffer
variable {n : Text}

/-- The origins of the lines that declare a local variable of that name. -/
def declaring (n : Text) (lines : List Line) : List Nat :=
  (lines.filter (·.declaresName n)).map (·.origin)

theorem declaring_append (xs ys : List Line) :
    declaring n (xs ++ ys) = declaring n xs ++ declaring n ys := by
  simp [declaring]

theorem declaring_place (l : Line) (next : Nat) (es : List Entry) : declaring n (place l next es).1 =
    (es.filter (·.contents.declaresName n)).map fun _ => l.origin := by
  induction es generalizing next with
  | nil => rfl
  | cons e es ih =>
    cases e with
    | kept d | fresh d =>
      simp only [declaring, place, List.filter_cons, Entry.contents] at ih ⊢
      split <;> simp [ih]

theorem declaring_map {f : Line → Draft} (hf : ∀ l, (f l).declares = l.declares) (b : Buffer) :
    declaring n (b.map f).lines = declaring n b.lines := by
  simp [declaring, Buffer.map, List.filter_map, Function.comp_def, Draft.declaresName, hf]

theorem declaring_insertAt {added : List Line} (h : ∀ l ∈ added, l.declares = none) (id : Nat)
    (lines : List Line) : declaring n (insertAt id added lines) = declaring n lines := by
  have hnone : declaring n added = [] := by
    have hf : added.filter (·.declaresName n) = [] :=
      List.filter_eq_nil_iff.2 fun l hl => by simp [Draft.declaresName, h l hl]
    rw [declaring, hf, List.map_nil]
  induction lines with
  | nil => exact hnone
  | cons l lines ih =>
    rw [insertAt]
    split
    · rw [← List.singleton_append, declaring_append, declaring_append, hnone, List.nil_append,
        ← declaring_append]
      rfl
    · rw [← List.singleton_append, declaring_append, ih, ← declaring_append]
      rfl

end Buffer

namespace Inference
open Buffer (declaring)
variable {a : Analysis} {n : Text} {es : List Declared} {made : List Nat} {l : Line}

/-- A header adds its arguments to the table, unless they are known. -/
theorem history_openUnit (h : History a n es made) (hn : (openUnit a l).isOwnName n = false) :
    History (openUnit a l) n es made := by
  have hreports := reports_openUnit a l
  revert hn hreports
  simp only [openUnit]
  split
  · exact fun _ _ => h
  · next header _ =>
    split
    · exact fun _ hreports => h.of_eq rfl rfl hreports
    · intro hn hreports
      have hnew : ∀ t ∈ headerSymbols header, t.name.lower = n.lower →
          t.kind = .unknown ∧ t.isArgument = true := by
        intro t ht hname
        rcases List.mem_cons.1 ht with rfl | ht
        · simp [Analysis.isOwnName, Analysis.heading, hname] at hn
        · obtain ⟨arg, -, rfl⟩ := List.mem_map.1 ht
          exact ⟨rfl, rfl⟩
      refine h.foldl_declare hnew ?_ ?_ hreports
      · split <;> rfl
      · split <;> rfl

/-- A line opens the unit, or declares names, or says nothing about the types of names and declares none. -/
theorem inferLine_cases {r : Analysis × List Entry} {previous : Option Shape} (hr : inferLine a previous l = r)
    (hl : l.declares = none) :
    (l.shape = .header ∧ r = (openUnit a l, [.kept l.toDraft])) ∨
    (l.shape = .declaration ∧ ∃ d, Declaration.parse? l.text = some d ∧
      r = ((a.declare l.id d).1, (a.declare l.id d).2.map .fresh)) ∨
    (l.declared = [] ∧ r.1.symbols = a.symbols ∧ r.1.constants = a.constants ∧
      ∀ e ∈ r.2, e.contents.declares = none) := by
  have hone {e' : Entry} (h : e'.contents.declares = none) :
      ∀ e ∈ [e'], e.contents.declares = none := fun e he => List.mem_singleton.1 he ▸ h
  have hnot {s : Shape} (hs : l.shape = s) (hd : (s == .declaration) = false) : l.declared = [] := by
    rw [Line.declared, hs, hd]
    rfl
  cases infers hr with
  | opened hs => exact .inl ⟨hs, rfl⟩
  | declared hs hd => exact .inr (.inl ⟨hs, _, hd, rfl⟩)
  | closed hs =>
    refine .inr (.inr ⟨hnot hs rfl, rfl, rfl, fun e he => ?_⟩)
    obtain ⟨d, hm, rfl⟩ := List.mem_map.1 he
    exact (endLines_plain a previous l.text d hm).2.2
  | listed hs =>
    refine .inr (.inr ⟨hnot hs rfl, rfl, rfl, fun e he => ?_⟩)
    obtain ⟨n, -, rfl⟩ := List.mem_map.1 he
    rfl
  | dropped hs => exact .inr (.inr ⟨hs.elim (hnot · rfl) (hnot · rfl), rfl, rfl, by simp⟩)
  | returned hs => exact .inr (.inr ⟨hs.elim (hnot · rfl) (hnot · rfl), rfl, rfl, hone hl⟩)
  | refused issue hs => exact .inr (.inr ⟨hs.elim (hnot · rfl) (hnot · rfl), rfl, rfl, hone rfl⟩)
  | defined hs => exact .inr (.inr ⟨hnot hs rfl, rfl, rfl, hone rfl⟩)
  | kept h =>
    have hd : l.declared = [] := by
      rw [Line.declared]
      split
      · next hs =>
        have hnone : Declaration.parse? l.text = none := by simpa [replaces, eq_of_beq hs] using h
        rw [hnone]
      · rfl
    exact .inr (.inr ⟨hd, rfl, rfl, hone hl⟩)

/-- A line adds its own entries to the history. -/
theorem history_inferLine (h : History a n es made) (previous : Option Shape) (hl : l.declares = none)
    (hn : (inferLine a previous l).1.isOwnName n = false) :
    let r := inferLine a previous l
    History r.1 n (es ++ l.declared.filter (·.names n))
      (made ++ (r.2.filter (·.contents.declaresName n)).map fun _ => l.origin) := by
  have hreports := reports_inferLine a previous l
  generalize hr : inferLine a previous l = r at hn hreports
  -- the lines in the place of most statements declare nothing
  have hnone (hd : l.declared = []) (he : ∀ e ∈ r.2, e.contents.declares = none) (h' : History r.1 n es made) :
      History r.1 n (es ++ l.declared.filter (·.names n))
        (made ++ (r.2.filter (·.contents.declaresName n)).map fun _ => l.origin) := by
    have hf : r.2.filter (·.contents.declaresName n) = [] :=
      List.filter_eq_nil_iff.2 fun e hm => by simp [Draft.declaresName, he e hm]
    simpa [hd, hf] using h'
  rcases inferLine_cases hr hl with ⟨hs, rfl⟩ | ⟨hs, d, hd, rfl⟩ | ⟨hd, hsymbols, hconstants, hdeclares⟩
  · exact hnone (by simp [Line.declared, hs]) (by simpa [Entry.contents] using hl) (history_openUnit h hn)
  · simpa [List.filter_map, Function.comp_def, Entry.contents] using h.declare hs hd
  · exact hnone hd hdeclares (h.of_eq hsymbols hconstants hreports)

/-- A unit keeps its name. -/
theorem isOwnName_step (s : Analysis × Option Shape) (l : Line) (h : s.1.isOwnName n = true) :
    (step s l).1.1.isOwnName n = true := by
  by_cases hl : l.shape = .header
  · rw [step_header s hl, openUnit]
    split
    · exact h
    · rw [if_pos]
      · exact h
      · cases hp : s.1.procedure with
        | none => simp [Analysis.isOwnName, Analysis.heading, hp] at h
        | some p => rfl
  · have hheading : (step s l).1.1.heading = s.1.heading := heading_inferLine s.1 s.2 hl
    rwa [Analysis.isOwnName, hheading]

/-- All lines, one after the other. -/
theorem history_editFrom {s : Analysis × Option Shape} (h : History s.1 n es made) (next : Nat)
    {lines : List Line} (hl : ∀ l ∈ lines, l.declares = none)
    (hn : (Buffer.editFrom step s next lines).1.1.isOwnName n = false) :
    let r := Buffer.editFrom step s next lines
    History r.1.1 n (es ++ (lines.flatMap Line.declared).filter (·.names n))
      (made ++ declaring n r.2.1) := by
  induction lines generalizing s next es made with
  | nil => simpa [Buffer.editFrom, declaring] using h
  | cons l lines ih =>
    have hown : (step s l).1.1.isOwnName n = false := by
      rw [← Bool.not_eq_true]
      intro ht
      have hlast : (Buffer.editFrom step (step s l).1 (Buffer.place l next (step s l).2).2
          lines).1.1.isOwnName n = true :=
        Buffer.editFrom_state (P := fun s => s.1.isOwnName n = true) _ ht fun s hs m _ =>
          isOwnName_step s m hs
      exact absurd (hlast.symm.trans hn) (by simp)
    have hline : History (step s l).1.1 n (es ++ l.declared.filter (·.names n))
        (made ++ declaring n (Buffer.place l next (step s l).2).1) := by
      rw [Buffer.declaring_place]
      exact history_inferLine h s.2 (hl l (by simp)) hown
    have hrest := ih hline (Buffer.place l next (step s l).2).2 (fun m hm => hl m (by simp [hm])) hn
    simpa [Buffer.editFrom, Buffer.declaring_append] using hrest

/-- All lines of a buffer, for a name that nothing is known of. -/
theorem history_edit {b : Buffer} (ha : a.symbols.lookup? n = none)
    (hb : ∀ l ∈ b.lines, l.declares = none) (hn : (b.edit step (a, none)).1.1.isOwnName n = false) :
    History (b.edit step (a, none)).1.1 n ((b.lines.flatMap Line.declared).filter (·.names n))
      (declaring n (b.edit step (a, none)).2.lines) := by
  have hunread : History a n [] [] := .unread fun s hs => by
    rw [ha] at hs
    cases hs
  exact history_editFrom hunread b.nextId hb hn

theorem declared_withoutConstants (l : Line) :
    Line.declared { withoutConstants l.toDraft with id := l.id, origin := l.origin } = l.declared := by
  rw [withoutConstants]
  split
  · rfl
  · next hs =>
    split
    · rfl
    · have hp : l.shape = .parameter := by simpa using hs
      simp [Line.declared, hp]

theorem declares_withoutConstants (d : Draft) : (withoutConstants d).declares = d.declares := by
  rw [withoutConstants]
  split
  · rfl
  · split <;> rfl

theorem settle_eq (a : Analysis) (p : Procedure) :
    (settle a p).1.symbols = a.symbols ∧ (settle a p).1.constants = a.constants := by
  have hquiet : Analysis.Quiet fun a => (a.symbols, a.constants) := fun _ _ _ => rfl
  exact Prod.mk.inj (hquiet.settle a p)

theorem symbols_finishUnit (a : Analysis) (b : Buffer) : (finishUnit a b).1.symbols = a.symbols := by
  have hquiet : Analysis.Quiet Analysis.symbols := fun _ _ _ => rfl
  exact hquiet.finishUnit a (fun _ _ => rfl) b

theorem declares_openingLines (p : Procedure) : ∀ d ∈ openingLines p, d.declares = none := by
  intro d hd
  rcases List.mem_cons.1 hd with hd | hd
  · rw [hd]
  · split at hd
    · cases hd
    · rw [List.mem_singleton.1 hd]

theorem declaring_writeHeader (p : Procedure) (b : Buffer) :
    declaring n (writeHeader p b).lines = declaring n b.lines := by
  have hmodify : declaring n (b.modify p.anchor fun d => { d with text := p.header }).lines =
      declaring n b.lines :=
    Buffer.declaring_map (fun l => by split <;> rfl) b
  have hadded : ∀ l ∈ Buffer.added (unitLine p) b.nextId (openingLines p), l.declares = none :=
    fun l hl => declares_openingLines p _ (Buffer.mem_added hl).1
  exact (Buffer.declaring_insertAt hadded _ _).trans hmodify

theorem history_reportUndeclared (h : History a n es made) (lines : List Line) :
    History (reportUndeclared a lines) n es made := by
  have hview : Analysis.Quiet fun a => (a.symbols, a.constants) := fun _ _ _ => rfl
  obtain ⟨hs, hc⟩ := Prod.mk.inj (hview.reportUndeclared a lines)
  exact h.of_eq hs hc (reports_reportUndeclared a lines)

theorem history_finishUnit (h : History a n es made) (b : Buffer) :
    History (finishUnit a b).1 n es made ∧
      declaring n (finishUnit a b).2.lines = declaring n b.lines := by
  have hreports := reports_finishUnit a b
  cases hp : a.procedure with
  | none =>
    rw [finishUnit_none hp]
    exact ⟨h, rfl⟩
  | some p =>
    rw [finishUnit_some hp] at hreports ⊢
    exact ⟨h.of_eq (settle_eq a p).1 (settle_eq a p).2 hreports, declaring_writeHeader _ b⟩

theorem symbols_collectConstants (a : Analysis) (b : Buffer) :
    (b.edit collectConstants a).1.symbols = a.symbols := by
  refine Buffer.edit_view Analysis.symbols (fun a l => ?_) a b
  rw [collectConstants]
  split
  · rfl
  · split <;> rfl

/-- The whole stage. -/
theorem history_run {a : Analysis} (ha : a.symbols.lookup? n = none) {b : Buffer}
    (hb : ∀ l ∈ b.lines, l.declares = none) (hn : (run a b).1.isOwnName n = false) :
    History (run a b).1 n ((b.lines.flatMap Line.declared).filter (·.names n))
      (declaring n (run a b).2.lines) := by
  have hsymbols := symbols_collectConstants a b
  have hdeclared : (b.edit collectConstants a).2.lines.flatMap Line.declared =
      b.lines.flatMap Line.declared := by
    rw [edit_collectConstants, Buffer.map, List.flatMap_map]
    simp only [declared_withoutConstants]
  have hdeclares : ∀ l ∈ (b.edit collectConstants a).2.lines, l.declares = none := by
    rw [edit_collectConstants]
    intro l hl
    obtain ⟨m, hm, rfl⟩ := List.mem_map.1 hl
    exact (declares_withoutConstants m.toDraft).trans (hb m hm)
  revert hn
  simp only [run]
  generalize b.edit collectConstants a = e at hsymbols hdeclared hdeclares ⊢
  intro hn
  have hlines := history_edit (hsymbols ▸ ha) hdeclares
  rw [hdeclared] at hlines
  generalize e.2.edit step (e.1, none) = e' at hlines hn ⊢
  -- what follows keeps the name of the unit
  have hheading : (reportUntyped (finishUnit (reportUndeclared e'.1.1 e'.2.lines) e'.2).1).heading =
      e'.1.1.heading :=
    (Analysis.heading_reportAll _ _ _).trans
      ((heading_finishUnit _ _).trans (heading_reportUndeclared _ _))
  have hread := history_reportUndeclared (hlines (by rwa [Analysis.isOwnName, ← hheading])) e'.2.lines
  obtain ⟨hfinished, hlast⟩ := history_finishUnit hread e'.2
  rw [hlast]
  exact hfinished.reportAll none _

end Inference

/-- A line as it is spelled and classified declares what it declared before. -/
theorem declares_classify (d : Draft) : (Stage.spelled d).classify.declares = d.declares := by
  have hspelled : (Stage.spelled d).declares = d.declares := by
    rw [Stage.spelled]
    split <;> rfl
  refine Eq.trans ?_ hspelled
  rw [Draft.classify]
  split <;> rfl

theorem Line.declares_prepared {source : Text} {l : Line} (hl : l ∈ (Card.read source).lines) :
    l.prepared.declares = none :=
  (Inference.declares_withoutConstants _).trans ((declares_classify _).trans (Card.declares_read hl))

/-- The history of every name but that of the unit, from the cards to the end of inference. -/
theorem Progress.history_inference (options : Options) (source : Text) {n : Text} :
    let p := (Progress.start options (Card.read source)).runAll [.spelling, .shapes, .inference]
    p.analysis.isOwnName n = false → History p.analysis n
      (((Card.classified source).lines.flatMap Line.declared).filter (·.names n))
      (Buffer.declaring n p.buffer.lines) := by
  have hspell : ((Card.read source).edit Stage.spell { options }).1.symbols = {} :=
    Buffer.edit_view Analysis.symbols Analysis.quiet_symbols.spell { options } _
  have hdeclares : ∀ l ∈ (Card.classified source).lines, l.declares = none := by
    intro l hl
    obtain ⟨m, hm, rfl⟩ := List.mem_map.1 hl
    exact (declares_classify _).trans (Card.declares_read hm)
  obtain ⟨ha, hb⟩ := Progress.runAll_inference options source
  intro p hn
  rw [ha] at hn ⊢
  rw [hb]
  exact Inference.history_run (by rw [hspell]; rfl) hdeclares hn

/-- After inference, a name that is not the unit's own has the kind, the type and the extents of its
first entry, unless that has more than two extents: then the kind is open until an entry of at most two
extents comes, and up to there each entry takes the place of the one before.  All later entries are
reported at their lines.  Only the first entry of a local variable leaves a line that declares it. -/
theorem Progress.first_declaration_wins (options : Options) (source n : Text)
    (hn : (((Progress.start options (Card.read source)).runAll
      [.spelling, .shapes, .inference]).analysis.isOwnName n) = false)
    (hes : ((Card.classified source).lines.flatMap Line.declared).filter (·.names n) ≠ []) :
    let p := (Progress.start options (Card.read source)).runAll [.spelling, .shapes, .inference]
    let es := ((Card.classified source).lines.flatMap Line.declared).filter (·.names n)
    ∃ wide e later s, es = wide ++ e :: later ∧ (∀ w ∈ wide, 2 < w.rank) ∧
      (2 < e.rank → later = []) ∧
      p.analysis.symbols.lookup? n = some s ∧ e.Fits p.analysis.constants s ∧
      Buffer.declaring n p.buffer.lines =
        (if s.isArgument then [] else (es.head?.map (·.line.origin)).toList) ∧
      ∀ d ∈ later, p.analysis.Noted d.line.id (.redeclared d.name) := by
  have h := Progress.history_inference options source hn
  generalize (Progress.start options (Card.read source)).runAll [.spelling, .shapes, .inference] = p
    at h ⊢
  exact h.of_ne_nil hes

/-- A local array of three extents that is declared again twice, with one extent and as a scalar: the
second entry describes it, and the third one is reported. -/
theorem Progress.first_declaration_wins_wide :
    let source : Text :=
      "      subroutine s(a)\n      integer a, b(2,2,2)\n      integer b(7)\n      integer B\n      end\n"
    let p := (Progress.start {} (Card.read source)).runAll [.spelling, .shapes, .inference]
    let es := ((Card.classified source).lines.flatMap Line.declared).filter (·.names "b")
    p.analysis.isOwnName "b" = false ∧ es.map (·.rank) = [3, 1, 0] ∧
    ∃ wide e later s, es = wide ++ e :: later ∧ (∀ w ∈ wide, 2 < w.rank) ∧
      (2 < e.rank → later = []) ∧
      p.analysis.symbols.lookup? "b" = some s ∧ e.Fits p.analysis.constants s ∧
      Buffer.declaring "b" p.buffer.lines =
        (if s.isArgument then [] else (es.head?.map (·.line.origin)).toList) ∧
      ∀ d ∈ later, p.analysis.Noted d.line.id (.redeclared d.name) := by
  intro source
  have hsource : source = _ := String.toList_ofList
  rw [hsource]
  intro p es
  have hranks : p.analysis.isOwnName "b" = false ∧ es.map (·.rank) = [3, 1, 0] := by decide +kernel
  have hes : es ≠ [] := by
    intro he
    simp [he] at hranks
  exact ⟨hranks.1, hranks.2, Progress.first_declaration_wins {} _ "b" hranks.1 hes⟩

end FixedForm
