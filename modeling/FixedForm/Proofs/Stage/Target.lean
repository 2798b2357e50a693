import FixedForm.Conversion
import FixedForm.Proofs.Reference.Label
import FixedForm.Proofs.Stage.Label

/-! Jump targets.  A statement that still has its label after inference gives one line with the name
of the label, and no later stage takes that line away or adds another. -/
namespace FixedForm
open Text
open Inference (Settled)

/-- The line of the output that stands for statement label `k`. -/
def Draft.isTarget (unit k : Text) (d : Draft) : Bool :=
  d.shape == .label && d.text == labelName unit k ++ ": "

def Entry.isTarget (unit k : Text) : Entry → Bool
  | .kept d | .fresh d => d.isTarget unit k

section Target
variable (unit k : Text) {d : Draft}

theorem not_isTarget_of_shape (h : d.shape ≠ .label) : d.isTarget unit k = false := by
  simp [Draft.isTarget, h]

theorem not_isTarget_of_plain (h : d.IsPlain) : d.isTarget unit k = false := by
  rw [Draft.isTarget, Bool.and_eq_false_iff]
  by_cases hs : d.shape = .label
  · right
    refine beq_eq_false_iff_ne.2 fun ht => ?_
    have hc := h hs
    simp only [ht, labelName, Spelling.hasCapital_append, Bool.or_eq_false_iff] at hc
    exact absurd hc.1.1.2 (by decide)
  · exact .inl (beq_eq_false_iff_ne.2 hs)

/-- Statements may change their texts, but not their shapes. -/
theorem isTarget_congr {d' : Draft} (hs : d.shape = d'.shape)
    (ht : d'.shape = .label → d.text = d'.text) : d.isTarget unit k = d'.isTarget unit k := by
  by_cases h : d'.shape = .label
  · simp only [Draft.isTarget, hs, ht h]
  · rw [not_isTarget_of_shape unit k h, not_isTarget_of_shape unit k (hs ▸ h)]

theorem isTarget_label {k' : Text} (hs : d.shape = .label) (ht : d.text = labelName unit k' ++ ": ") :
    d.isTarget unit k = (k' == k) := by
  simp [Draft.isTarget, hs, ht, labelName]

end Target

namespace Analysis
variable (a : Analysis)

/-- Settling references leaves the shape and the label of a line alone. -/
theorem linearizeLine_entry (l : Line) : ∃ d, (a.linearizeLine l).2 = [.kept d] ∧
    d.shape = l.shape ∧ d.field = l.field ∧
      (Reference.holdsReferences l.shape = false → d = l.toDraft) := by
  rw [linearizeLine]
  split
  · next h =>
    refine ⟨_, rfl, rfl, ?_, fun h' => by simp [h] at h'⟩
    simp only [Draft.field, linearize, Reference.label_linearize]
  · exact ⟨_, rfl, rfl, rfl, fun _ => rfl⟩

theorem settled_references {anchor : Option Nat} {b : Buffer} (h : Settled anchor b) :
    Settled anchor (b.edit linearizeLine a).2 := by
  constructor
  · refine h.anchored.edit (fun a l d hl hd => ?_) a
    obtain ⟨d', he, hs, hf, -⟩ := a.linearizeLine_entry l
    rw [he, List.mem_singleton] at hd
    cases hd
    exact ⟨hs.trans hl.1, hf.trans hl.2⟩
  · refine Buffer.forall_mem_editFrom (P := fun _ => True) trivial fun a _ l hl =>
      ⟨trivial, fun _ _ m hm => ?_⟩
    obtain ⟨d, he, hs, -, hd⟩ := a.linearizeLine_entry l
    rw [he, Buffer.place, Buffer.place, List.mem_singleton] at hm
    subst hm
    intro hlabel
    have hsame : d = l.toDraft := hd (by rw [← hs, hlabel]; rfl)
    subst hsame
    exact h.plain l hl hlabel

theorem countP_references (b : Buffer) (k : Text) :
    (b.edit linearizeLine a).2.lines.countP (fun l => l.field == some k) =
      b.lines.countP fun l => l.field == some k := by
  refine Buffer.countP_editFrom (P := fun _ => True) trivial fun a _ l _ =>
    ⟨trivial, fun _ _ => ?_⟩
  obtain ⟨d, he, -, hf, -⟩ := a.linearizeLine_entry l
  simp [he, Buffer.place, hf]

end Analysis

namespace Block
variable (unit k : Text)

theorem shape_contents {d : Draft} (hd : d.shape ≠ .label) (indent statement : Text)
    (rendered : Option Text) : (contents d indent statement rendered).shape ≠ .label := by
  cases rendered with
  | none => simp [contents]
  | some text => exact hd

theorem countP_braces (ls : List OpenLoop) :
    (ls.map fun l => Entry.fresh { text := l.indent ++ "\x7d", shape := .loopEnd }).countP
      (Entry.isTarget unit k) = 0 := by
  refine List.countP_eq_zero.2 fun e he => ?_
  obtain ⟨l, -, rfl⟩ := List.mem_map.1 he
  simp [Entry.isTarget, Draft.isTarget]

/-- A labelled statement gives one line for its label. -/
theorem countP_labelledLines (label statement indent : Text) (ended : List OpenLoop) {d : Draft}
    (hd : d.shape ≠ .label) (rendered : Option Text) :
    (labelledLines unit label statement indent ended d rendered).countP (Entry.isTarget unit k) =
      if label == k then 1 else 0 := by
  have hlabel : (Entry.fresh { text := labelName unit label ++ ": ", shape := .label }).isTarget
      unit k = (label == k) := isTarget_label unit k rfl rfl
  have hother {d : Draft} (hs : d.shape ≠ .label) : ¬ (Entry.kept d).isTarget unit k = true := by
    simp [Entry.isTarget, not_isTarget_of_shape unit k hs]
  simp only [labelledLines]
  split
  · cases ended with
    | nil =>
      have hkept : (Entry.kept { d with
          text := labelName unit label ++ ": ", shape := .label, label := none }).isTarget unit k =
            (label == k) := isTarget_label unit k rfl rfl
      simp only [List.countP_cons, List.countP_nil, hkept, Nat.zero_add]
    | cons l ls =>
      rw [List.countP_cons, List.countP_cons_of_neg (hother (by simp)), countP_braces]
      simp only [hlabel, Nat.zero_add]
  · have hd' : { d with label := none }.shape ≠ .label := hd
    rw [List.countP_cons, List.countP_cons_of_neg (hother (shape_contents hd' _ _ _)), countP_braces]
    simp only [hlabel, Nat.zero_add]

theorem countP_step (s : Analysis × OpenLoops) {l : Line} (hl : l.toDraft.IsPlain)
    (hu : s.1.unitName = unit) :
    (step s l).2.countP (Entry.isTarget unit k) = if l.field == some k then 1 else 0 := by
  have hkeep : [Entry.kept l.toDraft].countP (Entry.isTarget unit k) = 0 := by
    simp [Entry.isTarget, not_isTarget_of_plain unit k hl]
  simp only [step]
  split
  iterate 3 next hs => simp [hkeep, Draft.field, hs, isMarker]
  · next h₁ h₂ h₃ =>
    have hf : l.field = (Labelled.split l.text).label := by
      refine Inference.field_of_shape ?_
      cases hs : l.shape <;> simp_all [isMarker]
    rw [hf]
    split
    · next hn =>
      have hkept {d : Draft} (hs : d.shape ≠ .label) : ¬ (Entry.kept d).isTarget unit k = true := by
        simp [Entry.isTarget, not_isTarget_of_shape unit k hs]
      rw [List.countP_cons_of_neg (hkept (shape_contents h₃ _ _ _)), hn]
      rfl
    · next k' hk =>
      rw [Analysis.unitName_congr (Analysis.heading_reportAll _ _ _), hu,
        countP_labelledLines unit k _ _ _ _ h₃, hk]
      simp

/-- The whole stage: the lines for a label are as many as the statements with that label. -/
theorem countP_run {a : Analysis} {b : Buffer} (hplain : ∀ l ∈ b.lines, l.toDraft.IsPlain) :
    (run a b).2.lines.countP (fun l => l.isTarget a.unitName k) =
      b.lines.countP fun l => l.field == some k := by
  refine Buffer.countP_editFrom (P := fun s => s.1.heading = a.heading) rfl fun s hs l hl =>
    ⟨(heading_step s l).trans hs, fun next _ => ?_⟩
  calc _ = (step s l).2.countP (Entry.isTarget a.unitName k) := by
        rw [Buffer.countP_place fun _ _ _ => rfl]
        congr 1
    _ = _ := by
        rw [countP_step a.unitName k s (hplain l hl) (Analysis.unitName_congr hs)]
        simp

theorem anchored_run (a : Analysis) {b : Buffer} {anchor : Option Nat} (h : Settled anchor b) :
    (run a b).2.Anchored (fun d => d.shape = .header) anchor := by
  refine h.anchored.edit (fun s l d hl hd => ?_) (a, [])
  have hn : (Labelled.split l.text).label = none := by
    rw [← Inference.field_of_shape (l := l) (by rw [hl.1]; rfl)]
    exact hl.2
  simp only [step, hl.1, hn, render, List.mem_singleton] at hd
  cases hd
  exact hl.1

end Block

namespace Resolution

/-- Calls are taken from statements only. -/
theorem collect_entry (symbols : SymbolTable) (sites : Sites) (l : Line) :
    ∃ d, (collect symbols sites l).2 = [.kept d] ∧ d.shape = l.shape ∧
      (l.shape = .label → d.text = l.text) := by
  rw [collect]
  split
  · next h => exact ⟨_, rfl, rfl, fun hs => by rw [hs] at h; cases h⟩
  · exact ⟨_, rfl, rfl, fun _ => rfl⟩

/-- What the stage keeps: the first line of the unit, which is a header, and the lines for a label. -/
structure Keeps (unit k : Text) (anchor : Option Nat) (n : Nat) (s : Analysis × Buffer) : Prop where
  anchor_eq : s.1.anchor? = anchor
  anchored : s.2.Anchored (fun d => d.shape = .header) anchor
  count_eq : s.2.lines.countP (fun l => l.isTarget unit k) = n

namespace Keeps
variable {unit k : Text} {anchor : Option Nat} {n : Nat} {a : Analysis} {b : Buffer}

theorem collect (h : Keeps unit k anchor n (a, b)) :
    Keeps unit k anchor n (a, (b.edit (collect a.symbols) {}).2) := by
  refine ⟨h.anchor_eq, h.anchored.edit (fun s l d hl hd => ?_) _, Eq.trans ?_ h.count_eq⟩
  · obtain ⟨d', he, hs, -⟩ := collect_entry a.symbols s l
    rw [he, List.mem_singleton] at hd
    cases hd
    exact hs.trans hl
  · refine Buffer.countP_editFrom (P := fun _ => True) trivial fun s _ l _ =>
      ⟨trivial, fun _ _ => ?_⟩
    obtain ⟨d, he, hs, ht⟩ := collect_entry a.symbols s l
    simp [he, Buffer.place, isTarget_congr unit k hs ht]

theorem remove (h : Keeps unit k anchor n (a, b)) {p : Line → Bool}
    (hp : ∀ l, l.shape = .label → p l = false) : Keeps unit k anchor n (a, b.remove p) := by
  refine ⟨h.anchor_eq,
    ⟨fun l hl => h.anchored.holds l (List.mem_of_mem_filter hl), h.anchored.below⟩,
    Eq.trans ?_ h.count_eq⟩
  rw [Buffer.remove, List.countP_filter]
  refine List.countP_congr fun l _ => ?_
  by_cases hs : l.shape = .label
  · simp [hp l hs]
  · simp [not_isTarget_of_shape unit k hs]

/-- A change of the header. -/
theorem modify (h : Keeps unit k anchor n (a, b)) {i : Nat} (hi : anchor = some i) (t : Text) :
    Keeps unit k anchor n (a, b.modify i fun d => { d with text := t }) := by
  refine ⟨h.anchor_eq, ⟨fun l hl he => ?_, h.anchored.below⟩, Eq.trans ?_ h.count_eq⟩
  · obtain ⟨m, hm, rfl⟩ := List.mem_map.1 hl
    have hs := h.anchored.holds m hm he
    dsimp only
    split <;> exact hs
  · rw [Buffer.modify, Buffer.map, List.countP_map]
    refine List.countP_congr fun l hl => ?_
    refine iff_of_eq (congrArg (· = true) (isTarget_congr unit k ?_ fun hlabel => ?_))
    · dsimp only
      split <;> rfl
    · dsimp only
      split
      · next hid =>
        have hs : l.shape = .header := h.anchored.holds l hl (hi.trans (by simp [eq_of_beq hid]))
        rw [hs] at hlabel
        cases hlabel
      · rfl

theorem resolve (h : Keeps unit k anchor n (a, b)) (site : CallSite) (result : Text) :
    Keeps unit k anchor n (resolve a b site result) := by
  have hremoved := h.remove (p := fun l => l.shape == .external && isExternOf site.name l.text)
    fun l hl => by simp [hl]
  have hbuffer : Keeps unit k anchor n (a, (Resolution.resolve a b site result).2) := by
    simp only [Resolution.resolve]
    split
    · next p hp =>
      obtain ⟨hp, -⟩ := Option.filter_eq_some_iff.1 hp
      exact hremoved.modify (h.anchor_eq.symm.trans (by simp [Analysis.anchor?, hp, pointTo])) _
    · split <;> exact hremoved
  exact { hbuffer with
    anchor_eq := (Analysis.anchor?_congr (heading_resolve a b site result)).trans h.anchor_eq }

theorem resolveFunction (h : Keeps unit k anchor n (a, b)) (site : CallSite) :
    Keeps unit k anchor n (resolveFunction a b site) :=
  (h.resolve site _).remove fun l hl => by simp [hl]

end Keeps

/-- The whole stage. -/
theorem keeps_run {unit k : Text} {anchor : Option Nat} {n : Nat} {a : Analysis} {b : Buffer}
    (h : Keeps unit k anchor n (a, b)) : Keeps unit k anchor n (run a b) := by
  have hcalls := h.collect
  simp only [run]
  generalize b.edit (collect a.symbols) {} = e at hcalls ⊢
  have hsub := List.foldlRecOn (e.1.subroutines.map Prod.snd)
    (fun s site => resolve s.1 s.2 site "void") (motive := Keeps unit k anchor n) hcalls
    fun s hs site _ => hs.resolve site "void"
  have hfun := List.foldlRecOn (functionSites e.1) (fun s site => resolveFunction s.1 s.2 site)
    (motive := Keeps unit k anchor n) hsub fun s hs site _ => hs.resolveFunction site
  exact ⟨hfun.anchor_eq, hfun.anchored, hfun.count_eq⟩

end Resolution

section Last
variable (unit k : Text) (b : Buffer)

theorem Stage.countP_nameIntrinsics :
    (b.map nameIntrinsics).lines.countP (fun l => l.isTarget unit k) =
      b.lines.countP fun l => l.isTarget unit k := by
  rw [Buffer.map, List.countP_map]
  refine List.countP_congr fun l _ => ?_
  refine iff_of_eq (congrArg (· = true) (isTarget_congr unit k ?_ fun hlabel => ?_))
  · dsimp only [nameIntrinsics]
    split <;> rfl
  · simp only [nameIntrinsics, hlabel]

theorem Remark.countP_run :
    (run b).lines.countP (fun l => l.isTarget unit k) = b.lines.countP fun l => l.isTarget unit k := by
  have hlines (before : Option Text) (lines : List Line) :
      (reflowLines before lines).countP (fun l => l.isTarget unit k) =
        lines.countP fun l => l.isTarget unit k := by
    induction lines generalizing before with
    | nil => rfl
    | cons l lines ih =>
      rw [reflowLines]
      split
      · next h =>
        have hs : l.shape ≠ .label := by
          intro hs
          simp [isRaw, hs] at h
        have hne (d : Draft) (hd : d.shape = l.shape) : d.isTarget unit k = false :=
          not_isTarget_of_shape unit k (hd ▸ hs)
        rw [List.countP_cons_of_neg (by simp [hne]), List.countP_cons_of_neg (by simp [hne]), ih]
      · rw [List.countP_cons, List.countP_cons, ih]
  exact hlines none b.lines

end Last

theorem Progress.runAll_remarks (p : Progress) :
    let e := p.buffer.edit Analysis.linearizeLine p.analysis
    let r := Resolution.run (Block.run e.1 e.2).1 (Block.run e.1 e.2).2
    let q := p.runAll [.references, .blocks, .calls, .intrinsics, .remarks]
    q.analysis = r.1 ∧ q.buffer = Remark.run (r.2.map Stage.nameIntrinsics) := by
  simp only [Progress.runAll, List.foldl_cons, List.foldl_nil, Stage.analysis_apply,
    Stage.buffer_apply, Stage.run, and_self]

/-- The stages behind inference. -/
theorem Progress.targets_runAll {p : Progress} (h : Settled p.analysis.anchor? p.buffer) (k : Text) :
    let q := p.runAll [.references, .blocks, .calls, .intrinsics, .remarks]
    q.buffer.lines.countP (fun l => l.isTarget q.analysis.unitName k) =
      p.buffer.lines.countP fun l => l.field == some k := by
  intro q
  obtain ⟨ha, hb⟩ := p.runAll_remarks
  have hheading := Buffer.edit_view Analysis.heading Analysis.heading_linearizeLine p.analysis p.buffer
  have hsettled := Analysis.settled_references p.analysis h
  have hcount := Analysis.countP_references p.analysis p.buffer k
  rw [ha, hb]
  generalize p.buffer.edit Analysis.linearizeLine p.analysis = e at hheading hsettled hcount ⊢
  have hunit : (Resolution.run (Block.run e.1 e.2).1 (Block.run e.1 e.2).2).1.unitName =
      e.1.unitName :=
    Analysis.unitName_congr ((Resolution.heading_run _ _).trans (Block.heading_run _ _))
  rw [hunit, Remark.countP_run, Stage.countP_nameIntrinsics, ← hcount,
    ← Block.countP_run k hsettled.plain]
  refine (Resolution.keeps_run ⟨?_, Block.anchored_run e.1 hsettled, rfl⟩).count_eq
  exact Analysis.anchor?_congr ((Block.heading_run e.1 e.2).trans hheading)

theorem afterGoto?_append {g t : Text} (hg : g.allBlank = true) :
    Statement.afterGoto? ("go" ++ g ++ "to" ++ t) = some t := by
  have hto : trimStart (g ++ ("to" ++ t)) = "to" ++ t := trimStart_run hg (.cons (by decide))
  simp only [List.append_assoc, Statement.afterGoto?, after?_append, Option.bind_eq_bind,
    Option.bind_some, hto]

/-- A jump to `k` goes to the name of the line for `k`. -/
theorem Block.render_goto (unit : Text) {s t k : Text} (hs : Statement.afterGoto? s = some t)
    (ht : t.trimStart = k) (hk : k.isDigits = true) :
    (render unit .goto s).1 = some ("goto " ++ labelName unit k) := by
  obtain ⟨hne, hdigit⟩ := mem_of_isDigits hk
  have hdigits : digits? k = some (k, []) := by
    simpa using digits?_run hdigit hne StartsOutside.nil
  have hparen : startsWith "(" k = false := by
    obtain ⟨c, u, rfl⟩ := List.exists_cons_of_ne_nil hne
    have hc : c ≠ '(' := by
      rintro rfl
      exact absurd (hdigit '(' (by simp)) (by decide)
    simp [startsWith, after?, hc]
  have hform : jumpForm s = .simple := by
    simp only [jumpForm, hs, ht, hdigits, hparen]
    rfl
  have hrule : gotoRule unit [] s = some ("goto " ++ labelName unit k, []) := by
    simp only [gotoRule, hs, Option.bind_eq_bind, Option.bind_some, ht, hdigits]
    rfl
  simp only [render, hform, renameGotos, substitute]
  cases s with
  | nil => cases hs
  | cons c u =>
    rw [substituteFrom, hrule]
    simp [substituteFrom]

theorem label_keptLabel {t k : Text} (ht : (Labelled.split t).label = some k)
    (hs : startsWith "**" (statementOf (Spelling.beforePowers t)) = false) :
    keptLabel t =
      if Inference.drops (statementOf (Spelling.normalize t).1) then none else some k := by
  rw [keptLabel, Spelling.label_normalize ht hs]

theorem Conversion.final_eq (options : Options) (source : Text) :
    (ofSource options source).final =
      ((Progress.start options (Card.read source)).runAll [.spelling, .shapes, .inference]).runAll
        [.references, .blocks, .calls, .intrinsics, .remarks] := by
  rw [Progress.runAll, Progress.runAll, ← List.foldl_append]
  rfl

/-- The lines for a label are as many as the statements with that label, the header that opens the
unit and the statements that inference drops apart.  A jump to the label names these lines. -/
theorem Conversion.targets_of_labels (options : Options) (source k : Text) :
    let final := (ofSource options source).final
    let unit := final.analysis.unitName
    final.buffer.lines.countP (fun l => l.isTarget unit k) = ((Card.read source).lines.countP fun l =>
        l.shape == .other && keptLabel l.text == some k && Card.opening? source != some l.id) ∧
      (∀ t, (Labelled.split t).label = some k →
        startsWith "**" (statementOf (Spelling.beforePowers t)) = false → keptLabel t =
          if Inference.drops (statementOf (Spelling.normalize t).1) then none else some k) ∧
      ∀ g g' : Text, k.isDigits = true → g.allBlank = true → g'.allBlank = true →
        (Block.render unit .goto ("go" ++ g ++ "to" ++ g' ++ k)).1 =
          some ("goto " ++ labelName unit k) := by
  intro final unit
  refine ⟨?_, fun t => label_keptLabel, fun g g' hk hg hg' => ?_⟩
  · obtain ⟨hanchor, hsettled, hcount⟩ := Progress.inference_labels options source
    simp only [unit, final, Conversion.final_eq]
    generalize (Progress.start options (Card.read source)).runAll [.spelling, .shapes, .inference] = p
      at hanchor hsettled hcount ⊢
    rw [← hcount k]
    exact Progress.targets_runAll (hanchor ▸ hsettled) k
  · have htrim : (g' ++ k).trimStart = k := by
      refine trimStart_run hg' fun c hc => ?_
      have hd := (mem_of_isDigits hk).2 c (List.mem_of_mem_head? hc)
      exact not_blank_of_word (word_of_digit hd)
    rw [List.append_assoc _ g' k]
    exact Block.render_goto unit (afterGoto?_append hg) htrim hk

/-- A unit with a label that is kept and one that is dropped. -/
def sampleJumps : Text := "      subroutine s\n   10 continue\n   20 stop\n      end\n"

def sampleTexts : List Text := ["      subroutine s", "   10 continue", "   20 stop", "      end"]

theorem lines_sampleJumps :
    (Card.read sampleJumps).lines = (Buffer.ofTexts sampleTexts .other).lines := by decide

theorem normalize_sampleTexts : ∀ t ∈ sampleTexts, (Spelling.normalize t).1 = t := by
  have h : (sampleTexts.all fun t => (Spelling.normalize t).1 == t) = true := by decide +kernel
  simpa using h

theorem opening?_sampleJumps : Card.opening? sampleJumps = some 0 := by
  have hopen : opensUnit { text := "      subroutine s", shape := .other, id := 0, origin := 1 } =
      true := by
    rw [opensUnit, normalize_sampleTexts _ (by decide)]
    decide
  rw [Card.opening?, lines_sampleJumps]
  exact congrArg (Option.map _) (List.find?_cons_of_pos hopen)

theorem countP_sampleJumps (k : Text) : ((Card.read sampleJumps).lines.countP fun l =>
      l.shape == .other && keptLabel l.text == some k && Card.opening? sampleJumps != some l.id) =
    (Buffer.ofTexts sampleTexts .other).lines.countP fun l => l.shape == .other &&
      (if Inference.drops (statementOf l.text) then none else (Labelled.split l.text).label) ==
        some k && some 0 != some l.id := by
  have hmem : ∀ l ∈ (Buffer.ofTexts sampleTexts .other).lines, l.text ∈ sampleTexts := by decide
  rw [lines_sampleJumps, opening?_sampleJumps]
  refine List.countP_congr fun l hl => ?_
  rw [keptLabel, normalize_sampleTexts _ (hmem l hl)]

theorem Conversion.targets_of_sampleJumps :
    let final := (ofSource {} sampleJumps).final
    let unit := final.analysis.unitName
    (Labelled.split "   10 continue").label = some "10".toList ∧
      startsWith "**" (statementOf (Spelling.beforePowers "   10 continue")) = false ∧
      keptLabel "   10 continue" = some "10".toList ∧
      final.buffer.lines.countP (fun l => l.isTarget unit "10") = 1 ∧
      final.buffer.lines.countP (fun l => l.isTarget unit "20") = 0 ∧
      (Block.render unit .goto "go to 10").1 = some ("goto " ++ labelName unit "10") := by
  intro final unit
  have hlabel : (Labelled.split "   10 continue").label = some "10".toList := by decide
  have hpower : startsWith "**" (statementOf (Spelling.beforePowers "   10 continue")) = false := by
    decide +kernel
  obtain ⟨hten, hkept, hjump⟩ := targets_of_labels {} sampleJumps "10"
  obtain ⟨htwenty, -⟩ := targets_of_labels {} sampleJumps "20"
  have hgoto := hjump " " " " (by decide) (by decide) (by decide)
  refine ⟨hlabel, hpower, ?_, hten.trans ?_, htwenty.trans ?_, hgoto⟩
  · rw [hkept _ hlabel hpower, normalize_sampleTexts _ (by decide)]
    decide
  · rw [countP_sampleJumps]
    decide
  · rw [countP_sampleJumps]
    decide

end FixedForm
