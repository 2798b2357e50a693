import FixedForm.Proofs.Output.Layout
import FixedForm.Proofs.Stage.Comment
import FixedForm.Proofs.Stage.Declared

/-! Remarks behind statements.  A remark stays with the line that was read.  So it is lost with that line
when inference writes fresh lines in the place of the statement, and in no other way. -/
namespace FixedForm
open Text

/-- The remark of a line, with the number and the origin of the line. -/
def Line.noted (l : Line) : Option (Nat × Nat × Text) := l.remark.map fun c => (l.id, l.origin, c)

/-- The remark that the line itself goes on with. -/
def Entry.remark : Entry → Option Text
  | .kept d => d.remark
  | .fresh _ => none

/-- Of the entries for a line, one has the remark `r`, if there is any, and it is the line itself. -/
structure Carries (r : Option Text) (es : List Entry) : Prop where
  fresh : ∀ d, .fresh d ∈ es → d.remark = none
  kept : es.filterMap Entry.remark = r.toList

namespace Carries

theorem nil : Carries none [] := ⟨by simp, rfl⟩

theorem map_fresh {α : Type} {f : α → Draft} {xs : List α} (h : ∀ x ∈ xs, (f x).remark = none) :
    Carries none (xs.map fun x => .fresh (f x)) := by
  constructor
  · intro d hd
    obtain ⟨x, hx, he⟩ := List.mem_map.1 hd
    cases he
    exact h x hx
  · refine List.filterMap_eq_nil_iff.2 fun e he => ?_
    obtain ⟨x, -, rfl⟩ := List.mem_map.1 he
    rfl

theorem cons_fresh {r : Option Text} {es : List Entry} (h : Carries r es) {d : Draft}
    (hd : d.remark = none) : Carries r (.fresh d :: es) := by
  refine ⟨fun d' hd' => ?_, h.kept⟩
  rcases List.mem_cons.1 hd' with he | he
  · cases he
    exact hd
  · exact h.fresh d' he

theorem cons_kept {es : List Entry} (h : Carries none es) {d : Draft} {r : Option Text}
    (hd : d.remark = r) : Carries r (.kept d :: es) := by
  refine ⟨fun d' hd' => h.fresh d' (by simpa using hd'), ?_⟩
  have hnone : es.filterMap Entry.remark = [] := h.kept
  cases r <;> simp [Entry.remark, hd, hnone]

theorem keep {d : Draft} {r : Option Text} (hd : d.remark = r) : Carries r [.kept d] :=
  cons_kept nil hd

theorem noted_place {r : Option Text} {es : List Entry} (h : Carries r es) (l : Line) (next : Nat) :
    (Buffer.place l next es).1.filterMap Line.noted = (r.map fun c => (l.id, l.origin, c)).toList := by
  have hplace (next : Nat) (es : List Entry) (hfresh : ∀ d, .fresh d ∈ es → d.remark = none) :
      (Buffer.place l next es).1.filterMap Line.noted =
        (es.filterMap Entry.remark).map fun c => (l.id, l.origin, c) := by
    induction es generalizing next with
    | nil => rfl
    | cons e es ih =>
      have hrest (next : Nat) := ih next fun d hd => hfresh d (by simp [hd])
      cases e with
      | kept d =>
        simp only [Buffer.place, List.filterMap_cons, Line.noted, Entry.remark]
        cases d.remark with
        | none => exact hrest next
        | some c => exact congrArg _ (hrest next)
      | fresh d =>
        simp only [Buffer.place, List.filterMap_cons, Line.noted, Entry.remark, hfresh d (by simp)]
        exact hrest (next + 1)
  rw [hplace next es h.fresh, h.kept]
  cases r <;> rfl

end Carries

namespace Buffer
variable (b : Buffer)

/-- The remarks of a buffer, with their lines. -/
def remarks : List (Nat × Nat × Text) := b.lines.filterMap Line.noted

theorem remarks_edit {σ : Type} {step : σ → Line → σ × List Entry}
    (h : ∀ s, ∀ l ∈ b.lines, Carries l.remark (step s l).2) (s : σ) :
    (b.edit step s).2.remarks = b.remarks := by
  have hreached := filterMap_editFrom (f := Line.noted) (g := Line.noted ∘ Prod.snd)
    (fun s l hl next => (h s l hl).noted_place l next) s b.nextId
  refine hreached.trans ?_
  rw [← List.filterMap_map, map_snd_reached]
  rfl

theorem remarks_map {f : Line → Draft} (h : ∀ l ∈ b.lines, (f l).remark = l.remark) :
    (b.map f).remarks = b.remarks := by
  rw [remarks, Buffer.map, List.filterMap_map]
  refine List.filterMap_congr fun l hl => ?_
  exact congrArg (Option.map _) (h l hl)

theorem remarks_insertAfter (anchor : Line) {drafts : List Draft} (h : ∀ d ∈ drafts, d.remark = none) :
    (b.insertAfter anchor drafts).remarks = b.remarks := by
  have hadded : (added anchor b.nextId drafts).filterMap Line.noted = [] := by
    refine List.filterMap_eq_nil_iff.2 fun l hl => ?_
    rw [Line.noted, h _ (mem_added hl).1]
    rfl
  have hat (lines : List Line) :
      (insertAt anchor.id (added anchor b.nextId drafts) lines).filterMap Line.noted =
        lines.filterMap Line.noted := by
    induction lines with
    | nil => exact hadded
    | cons l lines ih =>
      rw [insertAt]
      split
      · rw [List.filterMap_cons, List.filterMap_append, hadded, List.nil_append, List.filterMap_cons]
      · rw [List.filterMap_cons, ih, List.filterMap_cons]
  exact hat b.lines

end Buffer

namespace Inference

theorem carries_commentOut (l : Line) : Carries none [commentOut l] :=
  .cons_fresh .nil rfl

/-- A statement that is not replaced keeps its remark, and no line in the place of another one has it. -/
theorem carries_inferLine (a : Analysis) (previous : Option Shape) (l : Line) :
    Carries (if replaces a l.toDraft then none else l.remark) (inferLine a previous l).2 := by
  generalize hr : inferLine a previous l = r
  cases infers hr with
  | kept h =>
    rw [h]
    exact .keep rfl
  | opened hs =>
    simp only [replaces, hs]
    exact .keep rfl
  | closed hs =>
    simp only [replaces, hs]
    exact .map_fresh (f := id) fun d hd => (endLines_plain a previous l.text d hd).2.1
  | declared hs hd =>
    simp only [replaces, hs, hd]
    refine .map_fresh (f := id) fun draft hm => ?_
    obtain ⟨_, _, _, -, rfl⟩ := Analysis.mem_recordAll hm
    rfl
  | listed hs hn =>
    simp only [replaces, hs, hn]
    exact .map_fresh fun _ _ => rfl
  | dropped hs =>
    rcases hs with hs | hs <;> simp only [replaces, hs]
    · exact .nil
    · exact .nil
  | refused issue _ h =>
    rw [h]
    exact carries_commentOut l
  | defined hs hf =>
    simp only [replaces, hs, hf]
    exact carries_commentOut l
  | returned hs =>
    rcases hs with hs | hs <;> simp only [replaces, hs]
    · exact .keep rfl
    · exact .keep rfl

/-- The remarks of the lines that are not replaced, where an edit reaches them in the given states. -/
def keptRemarks (reached : List ((Analysis × Option Shape) × Line)) : List (Nat × Nat × Text) :=
  reached.filterMap fun (s, l) => if replaces s.1 l.toDraft then none else l.noted

theorem remarks_step (s : Analysis × Option Shape) (b : Buffer) :
    (b.edit step s).2.remarks = keptRemarks (Buffer.reached step s b.lines) := by
  refine Buffer.filterMap_editFrom (fun s l _ next => ?_) s b.nextId
  refine ((carries_inferLine s.1 s.2 l).noted_place l next).trans ?_
  dsimp only
  split <;> rfl

theorem remark_withoutConstants (d : Draft) : (withoutConstants d).remark = d.remark := by
  rw [withoutConstants]
  split
  · rfl
  · split <;> rfl

theorem remark_openingLines (p : Procedure) : ∀ d ∈ openingLines p, d.remark = none := by
  rw [openingLines]
  cases p.kind <;> simp

theorem remarks_finishUnit (a : Analysis) (b : Buffer) : (finishUnit a b).2.remarks = b.remarks := by
  have hheader (p : Procedure) (b : Buffer) :
      (b.modify p.anchor fun d => { d with text := p.header }).remarks = b.remarks := by
    refine b.remarks_map fun l _ => ?_
    split <;> rfl
  cases hp : a.procedure with
  | none => rw [finishUnit_none hp]
  | some p =>
    rw [finishUnit_some hp]
    exact (Buffer.remarks_insertAfter _ _ (remark_openingLines _)).trans (hheader _ b)

theorem remarks_run (a : Analysis) (b : Buffer) :
    let e := b.edit collectConstants a
    (run a b).2.remarks = keptRemarks (Buffer.reached step (e.1, none) e.2.lines) := by
  simp only [run]
  generalize b.edit collectConstants a = e
  exact (remarks_finishUnit _ _).trans (remarks_step (e.1, none) e.2)

/-- The remarks behind inference are those of the statements that are not replaced. -/
theorem remarks_inference (options : Options) (source : Text) :
    ((Progress.start options (Card.read source)).runAll
        [.spelling, .shapes, .inference]).buffer.remarks =
      keptRemarks (Buffer.reached step (opening options source, none)
        ((Card.read source).lines.map Line.prepared)) := by
  obtain ⟨-, hb⟩ := Progress.runAll_inference options source
  rw [hb, remarks_run, lines_collectConstants]
  rfl

end Inference

theorem Analysis.carries_linearizeLine (a : Analysis) (l : Line) :
    Carries l.remark (a.linearizeLine l).2 := by
  rw [linearizeLine]
  split <;> exact .keep rfl

namespace Block

theorem remark_contents (d : Draft) (indent statement : Text) (rendered : Option Text) :
    (contents d indent statement rendered).remark = d.remark := by
  cases rendered <;> rfl

theorem carries_labelledLines (unit label statement indent : Text) (ended : List OpenLoop) (d : Draft)
    (rendered : Option Text) :
    Carries d.remark (labelledLines unit label statement indent ended d rendered) := by
  have hbraces (ls : List OpenLoop) : Carries none (ls.map fun l =>
      .fresh { text := l.indent ++ "\x7d", shape := .loopEnd }) := .map_fresh fun _ _ => rfl
  simp only [labelledLines]
  split
  · cases ended with
    | nil => exact .keep rfl
    | cons l ls =>
      refine .cons_fresh ?_ rfl
      exact (hbraces ls).cons_kept rfl
  · refine .cons_fresh ?_ rfl
    exact (hbraces ended).cons_kept (remark_contents _ _ _ _)

theorem carries_step (s : Analysis × OpenLoops) (l : Line) : Carries l.remark (step s l).2 := by
  simp only [step]
  split
  iterate 3 exact .keep rfl
  · split
    · exact .keep (remark_contents _ _ _ _)
    · exact carries_labelledLines _ _ _ _ _ _ _

end Block

theorem Remark.remarks_run (b : Buffer) : (run b).remarks = b.remarks := by
  have hlines (before : Option Text) (lines : List Line) :
      (reflowLines before lines).filterMap Line.noted = lines.filterMap Line.noted := by
    induction lines generalizing before with
    | nil => rfl
    | cons l lines ih =>
      rw [reflowLines]
      split
      · simp only [List.filterMap_cons, ih, Line.noted]
      · simp only [List.filterMap_cons, ih]
  exact hlines none b.lines

theorem Stage.remarks_nameIntrinsics (b : Buffer) : (b.map nameIntrinsics).remarks = b.remarks := by
  refine b.remarks_map fun l _ => ?_
  rw [nameIntrinsics]
  split <;> rfl

/-! A line with a remark was read from a card.  So it is none of those that the resolution of calls takes
away: it declares no local variable, and it is no `extern` line. -/

/-- No demand takes the place of the line. -/
def Draft.IsLasting (d : Draft) : Prop :=
  d.declares = none ∧ (d.shape = .external → ∀ name, Resolution.isExternOf name d.text = false)

namespace Resolution

theorem noted_headless (anchor : Option Nat) (l : Line) : (l.headless anchor).noted = l.noted := by
  rw [Line.headless]
  split <;> rfl

theorem noted_taken (a : Analysis) (l : Line) : (taken a l).noted = l.noted := by
  rw [taken, noted_headless, rewritten]
  split <;> rfl

theorem isLeft_of_isLasting (symbols : SymbolTable) (lines : List Line) {l : Line}
    (h : l.toDraft.IsLasting) : isLeft symbols lines l = true := by
  have hextern (d : Demand) : d.isExtern l = false := by
    rw [Demand.isExtern, Bool.and_eq_false_iff]
    by_cases hs : l.shape = .external
    · exact .inr (h.2 hs d.name)
    · exact .inl (beq_eq_false_iff_ne.2 hs)
  have hlocal (d : Demand) : d.isLocal l = false := by
    simp [Demand.isLocal, h.1]
  simp [isLeft, hextern, hlocal]

theorem remarks_run {a : Analysis} {b : Buffer} (h : Headed a.anchor? b.lines)
    (hlasting : ∀ l ∈ b.lines, l.remark ≠ none → l.toDraft.IsLasting) :
    (run a b).2.remarks = b.remarks := by
  calc (run a b).2.remarks
      = ((run a b).2.lines.map (Line.headless a.anchor?)).filterMap Line.noted := by
        rw [List.filterMap_map]
        exact List.filterMap_congr fun l _ => (noted_headless a.anchor? l).symm
    _ = (b.lines.filter (isLeft a.symbols b.lines)).filterMap Line.noted := by
        rw [headless_run_eq h, List.filterMap_map]
        exact List.filterMap_congr fun l _ => noted_taken a l
    _ = b.remarks := by
        rw [List.filterMap_filter]
        refine List.filterMap_congr fun l hl => ?_
        by_cases hr : l.remark = none
        · simp [Line.noted, hr]
        · rw [if_pos (isLeft_of_isLasting _ _ (hlasting l hl hr))]

end Resolution

/-- `external` as a text starts with it. -/
def startsExternal (t : Text) : Prop := ∃ rest : Text, t = "external" ++ rest

theorem isExternOf_external {g : Text} (hg : g.allBlank = true) (rest name : Text) :
    Resolution.isExternOf name (g ++ ("external" ++ rest)) = false := by
  have hstart : trimStart (g ++ ("external" ++ rest)) = "extern" ++ ("al" ++ rest) :=
    trimStart_run hg (.cons (by decide))
  have hblanks : blanks? ("al" ++ rest) = none := rfl
  rw [Resolution.isExternOf, hstart, after?_append, Option.bind_some, hblanks]
  rfl

theorem gotoRule_of_ne {c : Char} (hc : c ≠ 'g') (unit before t : Text) :
    gotoRule unit before (c :: t) = none := by
  have hgoto : Statement.afterGoto? (c :: t) = none := by
    simp [Statement.afterGoto?, after?, hc]
  simp [gotoRule, hgoto]

theorem renameGotos_external (unit rest : Text) :
    startsExternal (renameGotos unit ("external" ++ rest)) := by
  refine ⟨_, substituteFrom_skip [] fun u c v he => ?_⟩
  have hmem : c ∈ "external".toList := he ▸ List.mem_append_right u List.mem_cons_self
  have hc : c ≠ 'g' := by
    rintro rfl
    exact absurd hmem (by decide)
  exact gotoRule_of_ne hc unit _ _

/-- Lines with a remark as they reach the block structure. -/
def Draft.IsBound (d : Draft) : Prop :=
  d.remark ≠ none → d.declares = none ∧ (d.shape = .external → startsExternal (statementOf d.text))

/-- A new text does not matter where the shape is not `external`. -/
theorem Draft.IsBound.with_text {d : Draft} (h : d.IsBound) (hs : d.shape ≠ .external) (t : Text) :
    { d with text := t }.IsBound :=
  fun hr => ⟨(h hr).1, fun he => absurd he hs⟩

theorem Buffer.forall_mem_edit {Q : Draft → Prop} {σ : Type} {step : σ → Line → σ × List Entry}
    {b : Buffer} (h : ∀ s, ∀ l ∈ b.lines, ∀ e ∈ (step s l).2, Q e.contents) (s : σ) :
    ∀ m ∈ (b.edit step s).2.lines, Q m.toDraft :=
  forall_mem_editFrom (P := fun _ => True) trivial fun s _ l hl => ⟨trivial, fun _ _ m hm => by
    obtain ⟨-, ⟨hd, -⟩ | ⟨hd, -⟩⟩ := mem_place hm
    · exact h s l hl _ hd
    · exact h s l hl _ hd⟩

namespace Inference

theorem isBound_prepared {source : Text} {l : Line} (hl : l ∈ (Card.read source).lines) :
    l.prepared.toDraft.IsBound := by
  have hready : IsReady l.prepared.toDraft :=
    (withoutConstants_spec (Stage.spelled_spec (Card.isRead_read hl)).1).1
  refine fun _ => ⟨Line.declares_prepared hl, fun hs => ?_⟩
  have hshape : Statement.shape (statementOf l.prepared.text) = .external :=
    (hready.classified.shape_eq (by rw [hs]; rfl)).symm.trans hs
  have hkeyword : Statement.hasKeyword "external" (statementOf l.prepared.text) = true :=
    Statement.fits_of_shape _ (by simp [hshape]) (by simp [hshape, Statement.forms])
  rw [Statement.hasKeyword] at hkeyword
  cases ha : after? "external" (statementOf l.prepared.text) with
  | none =>
    rw [ha] at hkeyword
    cases hkeyword
  | some rest => exact ⟨rest, eq_of_after? ha⟩

/-- A line that is kept is as it was, but for the text of a RETURN. -/
theorem eq_of_kept {a : Analysis} {previous : Option Shape} {l : Line} {d : Draft}
    (h : .kept d ∈ (inferLine a previous l).2) :
    d = l.toDraft ∨ l.shape ≠ .external ∧ d = { l.toDraft with text := d.text } := by
  generalize hr : inferLine a previous l = r at h
  cases infers hr with
  | kept | opened => exact .inl (by simpa using h)
  | returned hs =>
    obtain rfl : d = { l.toDraft with text := returnResult a.unitName l.text } := by simpa using h
    exact .inr ⟨by rcases hs with hs | hs <;> simp [hs], rfl⟩
  | refused | defined => simp [commentOut] at h
  | _ => simp at h

theorem isBound_inferLine (a : Analysis) (previous : Option Shape) {l : Line} (h : l.toDraft.IsBound) :
    ∀ e ∈ (inferLine a previous l).2, e.contents.IsBound := by
  intro e he
  cases e with
  | kept d =>
    rcases eq_of_kept he with rfl | ⟨hs, hd⟩
    · exact h
    · rw [Entry.contents, hd]
      exact h.with_text hs d.text
  | fresh d => exact fun hr => absurd ((carries_inferLine a previous l).fresh d he) hr

/-- The end of the stage adds lines without remarks, and changes the text of the header. -/
theorem of_mem_finishUnit {a : Analysis} {b : Buffer} {m : Line} (h : m ∈ (finishUnit a b).2.lines)
    (hr : m.remark ≠ none) :
    ∃ l ∈ b.lines, m = l ∨ a.anchor? = some m.id ∧ m = { l with text := m.text } := by
  rcases cases_of_mem_finishUnit h with hl | ⟨p, hp⟩
  · exact hl
  · exact absurd (remark_openingLines p m.toDraft hp) hr

theorem isBound_run {a : Analysis} {b : Buffer}
    (hlines : ∀ l ∈ (b.edit collectConstants a).2.lines, l.toDraft.IsBound)
    (hheader : ∀ m ∈ (run a b).2.lines, (run a b).1.anchor? = some m.id → m.shape = .header) :
    ∀ m ∈ (run a b).2.lines, m.toDraft.IsBound := by
  intro m hm hr
  have hshape := hheader m hm
  simp only [run] at hm hshape
  generalize b.edit collectConstants a = e at hlines hm hshape
  have hsteps : ∀ l ∈ (e.2.edit step (e.1, none)).2.lines, l.toDraft.IsBound :=
    Buffer.forall_mem_edit (fun s l hl => isBound_inferLine s.1 s.2 (hlines l hl)) _
  generalize e.2.edit step (e.1, none) = e' at hsteps hm hshape
  obtain ⟨l, hl, rfl | ⟨hi, hml⟩⟩ := of_mem_finishUnit hm hr
  · exact hsteps m hl hr
  · have hs : m.shape = .header := hshape ((Analysis.anchor?_congr
      ((Analysis.heading_reportAll _ _ _).trans (heading_finishUnit _ _))).trans hi)
    have hbound := hsteps l hl
    rw [hml] at hr hs ⊢
    exact ⟨(hbound hr).1, fun he => absurd (hs.symm.trans he) (by decide)⟩

end Inference

theorem Progress.isBound_inference (options : Options) (source : Text) :
    ∀ m ∈ ((start options (Card.read source)).runAll [.spelling, .shapes, .inference]).buffer.lines,
      m.toDraft.IsBound := by
  obtain ⟨ha, hb⟩ := runAll_inference options source
  obtain ⟨hanchor, hsettled, -⟩ := inference_labels options source
  rw [← hanchor, ha] at hsettled
  rw [hb] at hsettled ⊢
  refine Inference.isBound_run (fun l hl => ?_) fun m hm hi => (hsettled.anchored.holds m hm hi).1
  rw [Inference.lines_collectConstants] at hl
  obtain ⟨k, hk, rfl⟩ := List.mem_map.1 hl
  exact Inference.isBound_prepared hk

theorem Analysis.isBound_linearizeLine (a : Analysis) {l : Line} (h : l.toDraft.IsBound) :
    ∀ e ∈ (a.linearizeLine l).2, e.contents.IsBound := by
  rw [linearizeLine]
  split
  · next hr =>
    intro e he
    rw [List.mem_singleton.1 he]
    refine h.with_text (fun hs => ?_) _
    rw [hs] at hr
    cases hr
  · intro e he
    rw [List.mem_singleton.1 he]
    exact h

namespace Block

/-- The line goes on with its EXTERNAL statement, if it is of that shape. -/
structure GoesOn (l d : Draft) : Prop where
  remark_eq : d.remark = l.remark
  declares_eq : d.declares = l.declares
  external : d.shape = .external → l.shape = .external ∧
    ∃ g unit : Text, g.allBlank = true ∧ d.text = g ++ renameGotos unit (statementOf l.text)

theorem goesOn_contents {l d : Draft} (hr : d.remark = l.remark) (hd : d.declares = l.declares)
    (hs : d.shape = l.shape) {indent : Text} (hg : indent.allBlank = true) (unit : Text) :
    GoesOn l (contents d indent (statementOf l.text) (render unit l.shape (statementOf l.text)).1) := by
  refine ⟨(remark_contents _ _ _ _).trans hr, ?_, fun he => ?_⟩
  · cases (render unit l.shape (statementOf l.text)).1 <;> exact hd
  · have hl : l.shape = .external := by
      cases hrender : (render unit l.shape (statementOf l.text)).1 with
      | none =>
        rw [hrender] at he
        cases he
      | some t =>
        rw [hrender] at he
        exact hs.symm.trans he
    refine ⟨hl, indent, unit, hg, ?_⟩
    rw [hl]
    rfl

theorem goesOn_labelledLines {l d : Draft} {unit unit' label indent : Text} (hg : indent.allBlank = true)
    {ended : List OpenLoop} (h : .kept d ∈ labelledLines unit' label (statementOf l.text) indent ended l
      (render unit l.shape (statementOf l.text)).1) : GoesOn l d := by
  have hbraces (ls : List OpenLoop) : .kept d ∉ ls.map fun l =>
      Entry.fresh { text := l.indent ++ "\x7d", shape := .loopEnd } := by simp
  simp only [labelledLines] at h
  split at h
  · cases ended with
    | nil =>
      cases List.mem_singleton.1 h
      exact ⟨rfl, rfl, fun he => by cases he⟩
    | cons l ls =>
      rcases List.mem_cons.1 h with h | h
      · cases h
      · rcases List.mem_cons.1 h with h | h
        · cases h
          exact ⟨rfl, rfl, fun he => by cases he⟩
        · exact absurd h (hbraces ls)
  · rcases List.mem_cons.1 h with h | h
    · cases h
    · rcases List.mem_cons.1 h with h | h
      · cases h
        exact goesOn_contents (l := l) (d := { l with label := none }) rfl rfl rfl hg unit
      · exact absurd h (hbraces ended)

theorem goesOn_step {s : Analysis × OpenLoops} {l : Line} {d : Draft} (h : .kept d ∈ (step s l).2) :
    GoesOn l.toDraft d := by
  have hmarker (hs : Block.isMarker l.shape = true) (h : .kept d ∈ [Entry.kept l.toDraft]) :
      GoesOn l.toDraft d := by
    have hd : d = l.toDraft := by simpa using h
    refine ⟨by rw [hd], by rw [hd], fun he => ?_⟩
    rw [← show d.shape = l.shape by rw [hd], he] at hs
    cases hs
  have hindent : Text.allBlank (if (Labelled.split l.text).label.isSome = true then
      spaces (Labelled.split l.text).columns.length else l.text.indent) = true := by
    split
    · exact allBlank_spaces _
    · exact allBlank_indent _
  simp only [step] at h
  split at h
  iterate 3 next hs => exact hmarker (by rw [hs]; rfl) h
  · split at h
    · cases List.mem_singleton.1 h
      exact goesOn_contents rfl rfl rfl hindent _
    · exact goesOn_labelledLines hindent h

theorem isLasting_step (s : Analysis × OpenLoops) {l : Line} (h : l.toDraft.IsBound) :
    ∀ e ∈ (step s l).2, e.contents.remark ≠ none → e.contents.IsLasting := by
  intro e he hr
  cases e with
  | kept d =>
    have hgoes := goesOn_step he
    have hl := h (hgoes.remark_eq ▸ hr)
    refine ⟨hgoes.declares_eq.trans hl.1, fun hd name => ?_⟩
    obtain ⟨hshape, g, unit, hg, htext⟩ := hgoes.external hd
    obtain ⟨rest, hrest⟩ := hl.2 hshape
    obtain ⟨rest', hrest'⟩ := renameGotos_external unit rest
    rw [Entry.contents, htext, hrest, hrest']
    exact isExternOf_external hg rest' name
  | fresh d => exact absurd ((carries_step s l).fresh d he) hr

end Block

/-- No line with a remark is lost when calls are resolved. -/
theorem Progress.isLasting_beforeCalls (options : Options) (source : Text) :
    ∀ l ∈ (beforeCalls options source).buffer.lines, l.remark ≠ none → l.toDraft.IsLasting := by
  have hinference := isBound_inference options source
  rw [(beforeCalls_eq options source).2]
  generalize (start options (Card.read source)).runAll [.spelling, .shapes, .inference] = p
    at hinference ⊢
  have hreferences : ∀ l ∈ (p.buffer.edit Analysis.linearizeLine p.analysis).2.lines,
      l.toDraft.IsBound :=
    Buffer.forall_mem_edit (fun a l hl => a.isBound_linearizeLine (hinference l hl)) _
  exact Buffer.forall_mem_edit (Q := fun d => d.remark ≠ none → d.IsLasting)
    (fun s l hl => Block.isLasting_step s (hreferences l hl)) _

/-- The stages behind inference neither lose a remark nor move it to another line. -/
theorem Conversion.remarks_final (options : Options) (source : Text) :
    (ofSource options source).final.buffer.remarks =
      ((Progress.start options (Card.read source)).runAll
        [.spelling, .shapes, .inference]).buffer.remarks := by
  have hheaded := Progress.headed_beforeCalls options source
  have hlasting := Progress.isLasting_beforeCalls options source
  have hblocks := (Progress.beforeCalls_eq options source).2
  rw [buffer_final, Remark.remarks_run, Stage.remarks_nameIntrinsics]
  generalize Progress.beforeCalls options source = q at hheaded hlasting hblocks ⊢
  generalize (Progress.start options (Card.read source)).runAll [.spelling, .shapes, .inference] = p
    at hblocks ⊢
  have hreferences := p.buffer.remarks_edit (fun a l _ => a.carries_linearizeLine l) p.analysis
  generalize p.buffer.edit Analysis.linearizeLine p.analysis = e at hblocks hreferences
  rw [Resolution.remarks_run hheaded hlasting, hblocks, ← hreferences]
  exact e.2.remarks_edit (fun s l _ => Block.carries_step s l) (e.1, [])

theorem Buffer.mem_remarks {b : Buffer} {i o : Nat} {c : Text} :
    (i, o, c) ∈ b.remarks ↔ ∃ m ∈ b.lines, m.id = i ∧ m.origin = o ∧ m.remark = some c := by
  simp only [remarks, Line.noted, List.mem_filterMap, Option.map_eq_some_iff, Prod.mk.injEq]
  constructor
  · rintro ⟨m, hm, _, hr, hi, ho, rfl⟩
    exact ⟨m, hm, hi, ho, hr⟩
  · rintro ⟨m, hm, hi, ho, hr⟩
    exact ⟨m, hm, c, hr, hi, ho, rfl⟩

theorem Line.remark_prepared (l : Line) : l.prepared.remark = l.remark := by
  have hclassify (d : Draft) : d.classify.remark = d.remark := by
    rw [Draft.classify]
    split <;> rfl
  have hspelled : (Stage.spelled l.toDraft).remark = l.remark := by
    rw [Stage.spelled]
    split <;> rfl
  exact (Inference.remark_withoutConstants _).trans ((hclassify _).trans hspelled)

/-- No card has an empty remark. -/
theorem Card.remark_read {source : Text} {l : Line} (hl : l ∈ (read source).lines) :
    l.remark ≠ some [] := by
  have hsplit (t : Text) : t.splitRemark.2 ≠ some [] := by
    simp only [splitRemark, nonempty?]
    cases (cutRemark none t).2 with
    | none => simp
    | some r => cases h : r.trim <;> simp [h]
  have hjoin {first second : Option Text} (h₁ : first ≠ some []) (h₂ : second ≠ some []) :
      joinRemark first second ≠ some [] := by
    cases first with
    | none => exact h₂
    | some a => cases second <;> simp_all [joinRemark]
  exact forall_read (P := fun d => d.remark ≠ some []) ⟨by simp, by simp, fun t _ _ => hsplit t,
    fun _ _ _ body _ d _ hd => hjoin hd (hsplit body)⟩ hl

/-- A remark stands behind its line. -/
theorem Output.finish_remark {d : Draft} {c : Text} (h : d.remark = some c) (hc : c ≠ []) :
    ∃ t, finish d = t ++ " // " ++ c := by
  cases c with
  | nil => exact absurd rfl hc
  | cons a c =>
    simp only [finish, h]
    exact ⟨_, rfl⟩

namespace Conversion
open Output (Written layout)

/-- Of the lines that a statement becomes, the statement itself has its remark, unless it is replaced. -/
theorem mem_remarks_final (options : Options) {source : Text} {before after : List Line} {l : Line}
    {c : Text} (hl : (Card.read source).lines = before ++ l :: after) (hc : l.remark = some c)
    (i : Nat) (r : Text) :
    (i, l.origin, r) ∈ (ofSource options source).final.buffer.remarks ↔
      Inference.replaces (Inference.known options source before).1 l.prepared.toDraft = false ∧
        i = l.id ∧ r = c := by
  have hnoted : l.prepared.noted = some (l.id, l.origin, c) := by
    rw [Line.noted, l.remark_prepared, hc]
    rfl
  rw [remarks_final, Inference.remarks_inference]
  generalize hreached : Buffer.reached Inference.step (Inference.opening options source, none)
    ((Card.read source).lines.map Line.prepared) = reached
  have hmem : (Inference.known options source before, l.prepared) ∈ reached := by
    rw [← hreached, hl, List.map_append, List.map_cons]
    exact Buffer.mem_reached _ _ _ _
  have horigins : (reached.map fun r => r.2.origin).Nodup := by
    have hsnd : reached.map Prod.snd = (Card.read source).lines.map Line.prepared := by
      rw [← hreached, Buffer.map_snd_reached]
    have hmap : (reached.map fun r => r.2.origin) = (Card.read source).lines.map (·.origin) := by
      calc _ = (reached.map Prod.snd).map (·.origin) := by rw [List.map_map]; rfl
        _ = _ := by rw [hsnd, List.map_map]; rfl
    rw [hmap]
    exact List.pairwise_map.2 ((Card.rising_read source).imp Nat.ne_of_lt)
  rw [Inference.keptRemarks, List.mem_filterMap]
  constructor
  · rintro ⟨⟨s, k⟩, hk, he⟩
    have hs : Inference.replaces s.1 k.toDraft = false := by
      by_contra hs
      simp [hs] at he
    simp only [hs, Bool.false_eq_true, if_false] at he
    -- the line with this origin is `l`, and it is reached once
    have horigin : k.origin = l.origin := by
      obtain ⟨_, -, hk⟩ := Option.map_eq_some_iff.1 he
      simp only [Prod.mk.injEq] at hk
      exact hk.2.1
    obtain ⟨rfl, rfl⟩ := Prod.mk.inj (List.inj_on_of_nodup_map horigins hk hmem horigin)
    rw [hnoted] at he
    simp only [Option.some.injEq, Prod.mk.injEq, true_and] at he
    exact ⟨hs, he.1.symm, he.2.symm⟩
  · rintro ⟨hs, rfl, rfl⟩
    exact ⟨_, hmem, by simp [hs, hnoted]⟩

/-- What becomes of the remark behind a statement.  The lines that a statement becomes have the remark
if and only if inference does not write fresh lines in its place; then it stands on the statement itself
and on no other line, and the output shows it where that line stands among the others, behind its text. -/
theorem remark_kept_iff (options : Options) {source : Text} {before after : List Line} {l : Line}
    {c : Text} (hl : (Card.read source).lines = before ++ l :: after) (hc : l.remark = some c) :
    let conversion := ofSource options source
    let lines := conversion.final.buffer.lines
    let replaced := Inference.replaces (Inference.known options source before).1 l.prepared.toDraft
    let written := layout conversion.final.analysis lines
    let shown := Output.annotated conversion.final.analysis.diagnostics
    ((∃ m ∈ lines, m.origin = l.origin ∧ m.remark = some c) ↔ replaced = false) ∧
      (∀ m ∈ lines, m.origin = l.origin → m.remark = none ∨ m.id = l.id ∧ m.remark = some c) ∧
      (replaced = false → ∃ m above below t, lines = above ++ m :: below ∧ m.id = l.id ∧
        m.origin = l.origin ∧ m.remark = some c ∧ Output.finish m.toDraft = t ++ " // " ++ c ∧
        above.flatMap shown ++ (shown m ++ below.flatMap shown) ∈ written) ∧
      conversion.text =
        Text.join "\n\n" (written.map fun s => Text.join "\n" (s.map Written.text)) ++ "\n" := by
  intro conversion lines replaced written shown
  have hremarks := mem_remarks_final options hl hc
  have hkept (hr : replaced = false) :
      ∃ m ∈ lines, m.id = l.id ∧ m.origin = l.origin ∧ m.remark = some c :=
    Buffer.mem_remarks.1 ((hremarks l.id c).2 ⟨hr, rfl, rfl⟩)
  refine ⟨⟨fun ⟨m, hm, ho, hmc⟩ => ?_, fun hr => ?_⟩, fun m hm ho => ?_, fun hr => ?_,
    Output.render_eq_layout _ _⟩
  · exact ((hremarks m.id c).1 (Buffer.mem_remarks.2 ⟨m, hm, rfl, ho, hmc⟩)).1
  · obtain ⟨m, hm, -, hline⟩ := hkept hr
    exact ⟨m, hm, hline⟩
  · cases hmr : m.remark with
    | none => exact .inl rfl
    | some r =>
      obtain ⟨-, hi, rfl⟩ := (hremarks m.id r).1 (Buffer.mem_remarks.2 ⟨m, hm, rfl, ho, hmr⟩)
      exact .inr ⟨hi, rfl⟩
  · have hne : c ≠ [] := by
      rintro rfl
      exact Card.remark_read (hl ▸ List.mem_append_right _ List.mem_cons_self) hc
    obtain ⟨m, hm, hi, ho, hmc⟩ := hkept hr
    obtain ⟨t, ht⟩ := Output.finish_remark hmc hne
    obtain ⟨above, below, hsplit⟩ := List.append_of_mem hm
    exact ⟨m, above, below, t, hsplit, hi, ho, hmc, ht, Output.annotated_mem_layout _ hsplit⟩

/-- A unit with two remarks, one behind a declaration and one behind an assignment. -/
def sampleRemarks : Text :=
  "      subroutine s(a)\n      integer n ! count\n   10 n = a ! copy\n      end\n"

def countLine : Line :=
  { text := "      integer n", shape := .other, remark := some "count", id := 1, origin := 2 }

def copyLine : Line :=
  { text := "   10 n = a", shape := .other, remark := some "copy", id := 2, origin := 3 }

theorem remark_kept_sampleRemarks :
    let first := (Card.read sampleRemarks).lines
    let lines := (ofSource {} sampleRemarks).final.buffer.lines
    first = first.take 1 ++ countLine :: first.drop 2 ∧
      first = first.take 2 ++ copyLine :: first.drop 3 ∧
      (¬ ∃ m ∈ lines, m.origin = 2 ∧ m.remark = some "count".toList) ∧
      ∃ m ∈ lines, m.origin = 3 ∧ m.remark = some "copy".toList := by
  have hsource : sampleRemarks = _ := String.toList_ofList
  rw [hsource]
  intro first lines
  have hcount : first = first.take 1 ++ countLine :: first.drop 2 := by decide +kernel
  have hcopy : first = first.take 2 ++ copyLine :: first.drop 3 := by decide +kernel
  refine ⟨hcount, hcopy, fun h => ?_, ?_⟩
  · have hkept := (remark_kept_iff {} hcount rfl).1.1 h
    exact absurd hkept (by decide +kernel)
  · exact (remark_kept_iff {} hcopy rfl).1.2 (by decide +kernel)

end Conversion

end FixedForm
