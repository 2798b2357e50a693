import FixedForm.Conversion
import FixedForm.Proofs.Stage.Findings
import FixedForm.Proofs.Stage.Numbering

/-! The lines of the output, told apart: a finding is set above the line it belongs to, or into the
trailer if that line is gone, and all else is plain text. -/
namespace FixedForm.Output

/-- A line of the output. -/
inductive Written where
  /-- A finding, set into a column. -/
  | note (column : Text) (finding : Diagnostic)
  | plain (text : Text)
  deriving DecidableEq, Repr

namespace Written

def text : Written → Text
  | .note column d => column ++ d.render
  | .plain t => t

def finding? : Written → Option Diagnostic
  | .note _ d => some d
  | .plain _ => none

end Written

open Written

/-- The findings of a line, then the line. -/
def annotated (ds : List Diagnostic) (l : Line) : List Written :=
  (Diagnostic.forLine ds (some l.id)).map (note l.text.indent) ++ [plain (finish l.toDraft)]

/-- The findings whose line is gone. -/
def leftOver (a : Analysis) (lines : List Line) : List Written :=
  (Diagnostic.detached a.diagnostics (lines.map (·.id))).map (note [])

def closing (a : Analysis) (lines : List Line) : List Written :=
  (advice a (indexVariables a.symbols lines)).map plain ++ leftOver a lines

/-- The sections before the trailer, also where they are empty. -/
def opening (a : Analysis) (lines : List Line) : List (List Written) :=
  (if a.options.emitPreamble then [(preamble a.options.includes).map plain] else []) ++
    match a.options.declarationPlacement with
    | .leading => [a.declarations.map plain, lines.flatMap (annotated a.diagnostics)]
    | .trailing => [lines.flatMap (annotated a.diagnostics), a.declarations.map plain]

def layout (a : Analysis) (lines : List Line) : List (List Written) :=
  (opening a lines ++ [closing a lines]).filter fun s => !s.isEmpty

theorem text_comp_plain : text ∘ plain = id := rfl

theorem text_annotated (ds : List Diagnostic) (lines : List Line) :
    (lines.flatMap (annotated ds)).map text = lines.flatMap (unitLines ds) := by
  rw [List.map_flatMap]
  congr 1
  funext l
  simp only [annotated, unitLines, List.map_append, List.map_map]
  rfl

theorem text_closing (a : Analysis) (lines : List Line) :
    (closing a lines).map text = trailer a lines (indexVariables a.symbols lines) := by
  simp only [closing, leftOver, List.map_append, List.map_map, text_comp_plain, List.map_id]
  rfl

/-- The layout is that of the sections. -/
theorem text_layout (a : Analysis) (lines : List Line) :
    (layout a lines).map (List.map text) = sections a lines := by
  have hempty : (fun s : List Text => !s.isEmpty) ∘ List.map text = fun s => !s.isEmpty := by
    funext s
    cases s <;> rfl
  rw [layout, ← hempty, ← List.filter_map, List.map_append, sections, List.map_singleton, text_closing,
    opening, List.map_append]
  congr 2
  cases a.options.emitPreamble <;> cases a.options.declarationPlacement <;>
    simp [text_comp_plain, text_annotated]

/-- The findings that are written, in the order of the output. -/
def notes (written : List Written) : List Diagnostic := written.filterMap finding?

theorem notes_nil : notes [] = [] := rfl

theorem notes_plain (ts : List Text) : notes (ts.map plain) = [] :=
  List.filterMap_eq_nil_iff.2 fun w hw => by
    obtain ⟨t, -, rfl⟩ := List.mem_map.1 hw
    rfl

theorem notes_note (column : Text) (ds : List Diagnostic) : notes (ds.map (note column)) = ds := by
  rw [notes, List.filterMap_map]
  exact List.filterMap_some

theorem notes_append (xs ys : List Written) : notes (xs ++ ys) = notes xs ++ notes ys :=
  List.filterMap_append

theorem notes_annotated (ds : List Diagnostic) (lines : List Line) :
    notes (lines.flatMap (annotated ds)) =
      (lines.map (·.id)).flatMap fun i => Diagnostic.forLine ds (some i) := by
  rw [notes, List.filterMap_flatMap, List.flatMap_map]
  congr 1
  funext l
  exact (notes_append _ _).trans (by rw [notes_note]; exact List.append_nil _)

theorem notes_layout (a : Analysis) (lines : List Line) :
    notes (layout a lines).flatten =
      ((lines.map (·.id)).flatMap fun i => Diagnostic.forLine a.diagnostics (some i)) ++
        Diagnostic.detached a.diagnostics (lines.map (·.id)) := by
  rw [layout, List.flatten_filter_not_isEmpty, List.flatten_append, notes_append, opening,
    List.flatten_append, notes_append]
  congr 1
  · cases a.options.emitPreamble <;> cases a.options.declarationPlacement <;>
      simp [notes_nil, notes_append, notes_plain, notes_annotated]
  · simp [closing, leftOver, notes_append, notes_plain, notes_note]

theorem forLine_filter (ds : List Diagnostic) {i j : Nat} (h : j ≠ i) :
    Diagnostic.forLine (ds.filter fun d => !(d.line == some i)) (some j) =
      Diagnostic.forLine ds (some j) := by
  rw [Diagnostic.forLine, List.filter_filter, Diagnostic.forLine]
  refine List.filter_congr fun d _ => ?_
  cases hd : d.line with
  | none => rfl
  | some k => by_cases hk : k = j <;> simp [hk, h]

theorem detached_filter (ds : List Diagnostic) (i : Nat) (ids : List Nat) :
    Diagnostic.detached (ds.filter fun d => !(d.line == some i)) ids =
      Diagnostic.detached ds (i :: ids) := by
  rw [Diagnostic.detached, List.filter_filter, Diagnostic.detached]
  refine List.filter_congr fun d _ => ?_
  cases hd : d.line with
  | none => rfl
  | some k => by_cases hk : k = i <;> simp [hk]

/-- Findings taken line by line, and then those of no line, are all findings. -/
theorem findings_perm (ds : List Diagnostic) {ids : List Nat} (h : ids.Nodup) :
    ((ids.flatMap fun i => Diagnostic.forLine ds (some i)) ++ Diagnostic.detached ds ids).Perm ds := by
  induction ids generalizing ds with
  | nil =>
    have hall : Diagnostic.detached ds [] = ds :=
      List.filter_eq_self.2 fun d _ => by cases d.line <;> rfl
    rw [List.flatMap_nil, hall]
    exact List.Perm.refl _
  | cons i ids ih =>
    obtain ⟨hi, hids⟩ := List.nodup_cons.1 h
    -- the findings of line `i` come first; the others are those of the remaining lines
    have hrest := ih (ds.filter fun d => !(d.line == some i)) hids
    have hne (j : Nat) (hj : j ∈ ids) : j ≠ i := by
      rintro rfl
      exact hi hj
    rw [List.flatMap_congr fun j hj => forLine_filter ds (hne j hj), detached_filter] at hrest
    rw [List.flatMap_cons, List.append_assoc]
    exact (hrest.append_left _).trans (List.filter_append_perm _ ds)

/-- A section that is not empty stands in the layout. -/
theorem mem_layout {a : Analysis} {lines : List Line} {s : List Written}
    (hs : s ∈ opening a lines) (hne : s ≠ []) : s ∈ layout a lines :=
  List.mem_filter.2 ⟨List.mem_append_left _ hs, by simpa using hne⟩

/-- A line is written where it stands: behind what is written for the lines above it. -/
theorem annotated_mem_layout (a : Analysis) {lines above below : List Line} {l : Line}
    (hsplit : lines = above ++ l :: below) :
    above.flatMap (annotated a.diagnostics) ++
      (annotated a.diagnostics l ++ below.flatMap (annotated a.diagnostics)) ∈ layout a lines := by
  rw [← List.flatMap_cons, ← List.flatMap_append, ← hsplit]
  refine mem_layout ?_ fun he => ?_
  · rw [opening]
    cases a.options.declarationPlacement <;> simp
  · have hl : l ∈ lines := by simp [hsplit]
    exact absurd (List.flatMap_eq_nil_iff.1 he l hl) (by simp [annotated])

theorem getLast?_layout (a : Analysis) (lines : List Line) :
    (layout a lines).getLast? = some (closing a lines) := by
  have hadvice : advisory ∈ advice a (indexVariables a.symbols lines) :=
    List.mem_append_left _ (List.mem_append_left _ (List.mem_singleton_self _))
  have hmem : plain advisory ∈ closing a lines :=
    List.mem_append_left _ (List.mem_map_of_mem hadvice)
  have hne : (closing a lines).isEmpty = false :=
    List.isEmpty_eq_false_iff.2 (List.ne_nil_of_mem hmem)
  rw [layout, List.filter_append, List.filter_singleton, hne]
  exact List.getLast?_concat

theorem render_eq_layout (a : Analysis) (lines : List Line) :
    render a lines =
      Text.join "\n\n" ((layout a lines).map fun s => Text.join "\n" (s.map text)) ++ "\n" := by
  rw [render, ← text_layout, List.map_map]
  rfl

/-- A finding stands above its line, among the findings of that line. -/
theorem note_above (a : Analysis) {lines : List Line} {l : Line} (hl : l ∈ lines) :
    ∃ s ∈ layout a lines, ∃ before after,
      s = before ++ (Diagnostic.forLine a.diagnostics (some l.id)).map (note l.text.indent) ++
        plain (finish l.toDraft) :: after := by
  obtain ⟨xs, ys, hsplit⟩ := List.append_of_mem hl
  refine ⟨_, annotated_mem_layout a hsplit, xs.flatMap (annotated a.diagnostics),
    ys.flatMap (annotated a.diagnostics), ?_⟩
  rw [annotated, List.append_assoc, List.append_assoc, List.singleton_append]

/-- A finding of no line stands in the trailer. -/
theorem note_leftOver {a : Analysis} {lines : List Line} {d : Diagnostic} (hd : d ∈ a.diagnostics)
    (hgone : ∀ l ∈ lines, d.line ≠ some l.id) :
    ∃ before ds, d ∈ ds ∧
      (layout a lines).getLast? = some (before ++ List.map (note []) ds) := by
  refine ⟨_, _, List.mem_filter.2 ⟨hd, ?_⟩, getLast?_layout a lines⟩
  cases hi : d.line with
  | none => rfl
  | some i =>
    have hi' : i ∉ lines.map (·.id) := fun hm => by
      obtain ⟨l, hl, he⟩ := List.mem_map.1 hm
      exact hgone l hl (hi.trans (congrArg some he.symm))
    simpa using hi'

end FixedForm.Output

namespace FixedForm.Conversion
open Output (Written layout notes)

/-- Every finding of a conversion is written exactly once, as a comment with its message: directly above
the line it belongs to and in its column, in the order of the reports, if the line is still there, and at
the end of the trailer otherwise. -/
theorem findings_written_once (options : Options) (source : Text) :
    let c := ofSource options source
    let a := c.final.analysis
    let lines := c.final.buffer.lines
    (lines.map (·.id)).Nodup ∧ Diagnostic.Distinct c.diagnostics ∧
      c.text = Text.join "\n\n" ((layout a lines).map fun s => Text.join "\n" (s.map Written.text)) ++
        "\n" ∧
      (∀ column d, (Written.note column d).text = column ++ ("// f77cpp: " ++ d.message)) ∧
      (notes (layout a lines).flatten).Perm c.diagnostics ∧
      ∀ d ∈ c.diagnostics,
        (∃ l ∈ lines, d.line = some l.id ∧ ∃ s ∈ layout a lines, ∃ before after,
          s = before ++ (Diagnostic.forLine c.diagnostics (some l.id)).map (.note l.text.indent) ++
            .plain (Output.finish l.toDraft) :: after) ∨
        ((∀ l ∈ lines, d.line ≠ some l.id) ∧ ∃ before ds, d ∈ ds ∧
          (layout a lines).getLast? = some (before ++ List.map (Written.note []) ds)) := by
  have hnumbered := Progress.numbered_runAll (p := Progress.start options (Card.read source))
    (Card.numbered_read source) Stage.all
  have hdistinct :=
    (Progress.reports_runAll (Progress.start options (Card.read source)) Stage.all).distinct
      List.Pairwise.nil
  rw [ofSource]
  generalize (Progress.start options (Card.read source)).runAll Stage.all = p at hnumbered hdistinct ⊢
  refine ⟨hnumbered.nodup, hdistinct, Output.render_eq_layout _ _, fun _ _ => rfl, ?_, fun d hd => ?_⟩
  · rw [Output.notes_layout]
    exact Output.findings_perm _ hnumbered.nodup
  · by_cases hline : ∃ l ∈ p.buffer.lines, d.line = some l.id
    · obtain ⟨l, hl, hd⟩ := hline
      exact .inl ⟨l, hl, hd, Output.note_above _ hl⟩
    · have hgone (l : Line) (hl : l ∈ p.buffer.lines) : d.line ≠ some l.id :=
        fun he => hline ⟨l, hl, he⟩
      exact .inr ⟨hgone, Output.note_leftOver hd hgone⟩

end FixedForm.Conversion
