import FixedForm.Proofs.Assoc
import FixedForm.Proofs.Block.Lines

/-! Converting a stretch of lines, as a step from open loops and open braces to open loops and open
braces.  Stretches compose, and what is open further out does not matter to them. -/
namespace FixedForm
open Text

@[simp] theorem Analysis.unitName_reportAll (a : Analysis) (line : Option Nat) (issues : List Issue) :
    (a.reportAll line issues).unitName = a.unitName := by
  induction issues generalizing a with
  | nil => rfl
  | cons issue issues ih => exact ih (a.report line issue)

namespace Block

section Step
variable {l : Line} {s : Text} (a : Analysis) (loops : OpenLoops)

theorem step_unlabelled (hm : isMarker l.shape = false) (h : Says l none s) :
    step (a, loops) l =
      ((a.reportAll (some l.id) (render a.unitName l.shape s).2, openLoop loops l s l.text.indent),
        [.kept (contents l.toDraft l.text.indent s (render a.unitName l.shape s).1)]) := by
  simp only [step]
  split
  iterate 3 next hs => simp [isMarker, hs] at hm
  · simp only [h.label_eq, h.statement_eq, Option.isSome_none, Bool.false_eq_true, if_false]

theorem step_labelled {k : Text} (hm : isMarker l.shape = false) (h : Says l (some k) s)
    (hl : l.shape ≠ .loop) :
    ∃ a' indent, step (a, loops) l =
      ((a', loops.erase k), labelledLines a.unitName k s indent
        ((loops.get? k).getD []).reverse l.toDraft (render a.unitName l.shape s).1) ∧
      a'.unitName = a.unitName ∧ indent.allBlank = true := by
  refine ⟨a.reportAll (some l.id) (render a.unitName l.shape s).2,
    spaces (Labelled.split l.text).columns.length, ?_, by simp, ?_⟩
  · have ho (indent : Text) : openLoop loops l s indent = loops := by
      rw [openLoop, if_neg (by simpa using hl)]
    simp only [step]
    split
    iterate 3 next hs => simp [isMarker, hs] at hm
    · simp only [h.label_eq, h.statement_eq, Option.isSome_some, if_true, ho,
        Analysis.unitName_reportAll]
  · exact allBlank_spaces _

end Step

/-- Converting `ls` takes the open loops `loops` to `loops'`.  The lines of the output find the braces of
`before` open, leave those of `after` open, and close `cs`. -/
def Converts (unit : Text) (loops : OpenLoops) (before : List Nat) (ls : List Line)
    (cs : List Construct) (loops' : OpenLoops) (after : List Nat) : Prop :=
  ∀ (a : Analysis) (next : Nat), a.unitName = unit → ∃ a' out next',
    Buffer.editFrom step (a, loops) next ls = ((a', loops'), out, next') ∧ a'.unitName = unit ∧
      Pairs before cs after out

namespace Converts
variable {unit : Text} {loops loops' loops'' : OpenLoops} {before mid after : List Nat}
  {xs ys : List Line} {l : Line} {cs cs' : List Construct}

theorem nil : Converts unit loops before [] [] loops before :=
  fun a next hu => ⟨a, [], next, rfl, hu, .nil⟩

theorem append (h : Converts unit loops before xs cs loops' mid)
    (h' : Converts unit loops' mid ys cs' loops'' after) :
    Converts unit loops before (xs ++ ys) (cs ++ cs') loops'' after := by
  intro a next hu
  obtain ⟨a₁, out₁, next₁, he₁, hu₁, hp₁⟩ := h a next hu
  obtain ⟨a₂, out₂, next₂, he₂, hu₂, hp₂⟩ := h' a₁ next₁ hu₁
  exact ⟨a₂, out₁ ++ out₂, next₂, Buffer.editFrom_append he₁ he₂, hu₂, hp₁.append hp₂⟩

theorem frame (h : Converts unit loops before xs cs loops' after) (outer : List Nat) :
    Converts unit loops (before ++ outer) xs cs loops' (after ++ outer) := by
  intro a next hu
  obtain ⟨a', out, next', he, hu', hp⟩ := h a next hu
  exact ⟨a', out, next', he, hu', hp.frame outer⟩

theorem line (h : ∀ a : Analysis, a.unitName = unit → ∃ a' entries,
      step (a, loops) l = ((a', loops'), entries) ∧ a'.unitName = unit ∧
        ∀ next, Pairs before cs after (Buffer.place l next entries).1) :
    Converts unit loops before [l] cs loops' after := by
  intro a next hu
  obtain ⟨a', entries, hs, hu', hp⟩ := h a hu
  refine ⟨a', (Buffer.place l next entries).1, (Buffer.place l next entries).2, ?_, hu', hp next⟩
  simp [Buffer.editFrom, hs]

end Converts

section Unlabelled
variable {l : Line} {s : Text} {shape : Shape} {closes opens : Bool}

theorem Renders.marker (h : Renders s shape closes opens) (hl : Says l none s) :
    l.shape = shape ∧ isMarker l.shape = false := by
  obtain ⟨w, rest, hs, hw, hr⟩ := h.lead
  have he : l.shape = Statement.shape s := hl.shape_eq hs hw hr
  refine ⟨he.trans h.shape_eq, ?_⟩
  rw [he]
  exact isMarker_shape s

/-- The line that an unlabelled statement becomes. -/
theorem Renders.step (h : Renders s shape closes opens) (hl : Says l none s) (a : Analysis)
    (loops : OpenLoops) : ∃ a' d, Block.step (a, loops) l =
      ((a', openLoop loops l s l.text.indent), [.kept d]) ∧ a'.unitName = a.unitName ∧
        closesBrace d.text = closes ∧ opensBrace d.text = opens ∧
          d.text.takeWhile isBlank = l.text.indent := by
  obtain ⟨hshape, hm⟩ := h.marker hl
  obtain ⟨c, text, issues, hr, hc, hcl, hop⟩ := h.text a.unitName
  rw [← hshape] at hr
  refine ⟨_, _, step_unlabelled a loops hm hl, by simp, ?_⟩
  have ht : (contents l.toDraft l.text.indent s (render a.unitName l.shape s).1).text =
      l.text.indent ++ c :: text := by
    rw [hr]
    rfl
  have hb := allBlank_indent l.text
  rw [ht]
  exact ⟨(closesBrace_indented hb hc).trans hcl, opensBrace_indented.trans hop,
    takeWhile_indented hb hc⟩

/-- The construct that the line `head` opens and the statement of `l` closes at its own columns. -/
def closedBy (head : Nat) (l : Line) : Construct := ⟨head, l.origin, l.text.indent⟩

variable {unit : Text} {loops loops' : OpenLoops} {before : List Nat} {head : Nat}

theorem Renders.opening (h : Renders s shape false true) (hl : Says l none s)
    (hlo : openLoop loops l s l.text.indent = loops') :
    Converts unit loops before [l] [] loops' (l.id :: before) := by
  refine .line fun a hu => ?_
  obtain ⟨a', d, hs, hu', hc, ho, -⟩ := h.step hl a loops
  exact ⟨a', [.kept d], hlo ▸ hs, hu'.trans hu,
    fun next => .opening (l := { d with id := l.id, origin := l.origin }) hc ho⟩

theorem Renders.closing (h : Renders s shape true opens) (hl : Says l none s)
    (hlo : openLoop loops l s l.text.indent = loops') :
    Converts unit loops (head :: before) [l] [closedBy head l] loops' (if opens then l.id :: before else before) := by
  refine .line fun a hu => ?_
  obtain ⟨a', d, hs, hu', hc, ho, hi⟩ := h.step hl a loops
  refine ⟨a', [.kept d], hlo ▸ hs, hu'.trans hu, fun next => ?_⟩
  rw [closedBy, ← hi]
  exact .closing (l := { d with id := l.id, origin := l.origin }) hc ho

theorem Renders.openLoop_eq (h : Renders s shape closes opens) (hl : Says l none s)
    (hne : shape ≠ .loop) (indent : Text) : openLoop loops l s indent = loops := by
  rw [openLoop, (h.marker hl).1, if_neg (by simpa using hne)]

theorem openLoop_head {label : Option Text} (h : DoHead label s) (hl : Says l none s) (indent : Text) :
    openLoop loops l s indent = (label.map fun k =>
      loops.put k ((loops.get? k).getD [] ++ [{ line := l.id, indent }])).getD loops := by
  rw [openLoop, (h.renders.marker hl).1, h.result.1]
  cases label <;> rfl

theorem Unlabelled.if_opens (h : Unlabelled IfThen l) :
    Converts unit loops before [l] [] loops (l.id :: before) := by
  obtain ⟨s, hl, hs⟩ := h
  exact hs.renders.opening hl (hs.renders.openLoop_eq hl (by decide) _)

theorem Unlabelled.elseIf_between (h : Unlabelled ElseIf l) :
    Converts unit loops (head :: before) [l] [closedBy head l] loops (l.id :: before) := by
  obtain ⟨s, hl, hs⟩ := h
  exact hs.renders.closing hl (hs.renders.openLoop_eq hl (by decide) _)

theorem Unlabelled.else_between (h : Unlabelled (· = "else".toList) l) :
    Converts unit loops (head :: before) [l] [closedBy head l] loops (l.id :: before) := by
  obtain ⟨s, hl, rfl⟩ := h
  exact renders_else.closing hl (renders_else.openLoop_eq hl (by decide) _)

theorem Unlabelled.endIf_closes (h : Unlabelled (EndOf "if") l) :
    Converts unit loops (head :: before) [l] [closedBy head l] loops before := by
  obtain ⟨s, hl, hs⟩ := h
  exact hs.renders_if.closing hl (hs.renders_if.openLoop_eq hl (by decide) _)

theorem Unlabelled.endDo_closes (h : Unlabelled (EndOf "do") l) :
    Converts unit loops (head :: before) [l] [closedBy head l] loops before := by
  obtain ⟨s, hl, hs⟩ := h
  exact hs.renders_do.closing hl (hs.renders_do.openLoop_eq hl (by decide) _)

/-- A loop without a label opens a brace only, a labelled one is also noted under its label. -/
theorem Unlabelled.do_opens {label : Option Text} (h : Unlabelled (DoHead label) l) :
    Converts unit loops before [l] [] ((label.map fun k =>
      loops.put k ((loops.get? k).getD [] ++ [{ line := l.id, indent := l.text.indent }])).getD loops)
      (l.id :: before) := by
  obtain ⟨s, hl, hs⟩ := h
  exact hs.renders.opening hl (openLoop_head hs hl _)

end Unlabelled

section Leaf
variable {l : Line} {label : Option Text} {unit k : Text} {loops : OpenLoops} {before : List Nat}

theorem braceFree_contents (d : Draft) {indent s : Text} {rendered : Option Text}
    (hi : indent.allBlank = true) (hs : braceFree s = true)
    (hr : ∀ t, rendered = some t → braceFree t = true) :
    braceFree (contents d indent s rendered).text = true := by
  have hb := braceFree_of_class (by decide) (mem_of_allBlank hi)
  cases rendered with
  | none =>
    change braceFree (indent ++ "// ".toList ++ s) = true
    rw [braceFree_append, braceFree_append, hb, hs]
    rfl
  | some t =>
    change braceFree (indent ++ t) = true
    rw [braceFree_append, hb, hr t rfl]
    rfl

theorem LogicalIf.split {s : Text} (h : LogicalIf s) : ∃ g cond rest : Text,
    s = "if" ++ (g ++ '(' :: (cond ++ ')' :: rest)) ∧ g.allBlank = true ∧ Nested cond ∧
      rest.trim ≠ "then".toList := by
  obtain ⟨hg, hc, hs⟩ := h
  rename_i g cond rest
  exact ⟨g, cond, rest, by simp, hg, hc, hs⟩

theorem LogicalIf.shape_eq {s : Text} (h : LogicalIf s) (hl : Says l label s) :
    l.shape = .conditional := by
  obtain ⟨g, cond, rest, rfl, hg, -, -⟩ := h.split
  have hshape : Statement.shape ("if" ++ (g ++ '(' :: (cond ++ ')' :: rest))) = .conditional := by
    refine Statement.shape_if ?_
    rw [trimStart_run hg (outside_paren _)]
    rfl
  cases label with
  | none =>
    have hw : IsName "if" := ⟨by decide, .cons (by decide)⟩
    exact (hl.shape_eq rfl hw (outside_gap hg (.cons (by decide)))).trans hshape
  | some k => exact hl.shape_eq_of_label.1.trans hshape

theorem LogicalIf.braceFree_render {s t : Text} (h : LogicalIf s) (hu : braceFree unit = true)
    (hs : braceFree s = true) (ht : (Condition.render unit s).1 = some t) : braceFree t = true := by
  obtain ⟨g, cond, rest, rfl, hg, hc, hthen⟩ := h.split
  have hcond : braceFree cond = true := braceFree_of_subset hs fun c hc => by simp [hc]
  have hrest : braceFree rest.trim = true :=
    braceFree_of_subset hs fun c hc => by simp [mem_of_mem_trim hc]
  rw [render_if hg hc, if_neg (by simpa using hthen)] at ht
  split at ht
  · cases ht
  · rw [← Option.some.inj ht]
    simp only [braceFree_append, hcond, braceFree_renameGotos hu hrest]
    rfl

theorem braceFree_render {shape : Shape} {s t : Text} (hshape : isSimple shape = true)
    (hu : braceFree unit = true) (hs : braceFree s = true)
    (ht : (render unit shape s).1 = some t) : braceFree t = true := by
  have hr := braceFree_renameGotos hu hs
  unfold render at ht
  split at ht
  · cases hshape
  · cases hshape
  · cases hshape
  · split at ht
    · cases ht
    · cases ht
    · rwa [← Option.some.inj ht]
  · rwa [← Option.some.inj ht]

/-- The text of a leaf in the output holds no brace. -/
theorem IsLeaf.rendered (h : IsLeaf l label) : ∃ s, Says l label s ∧ isMarker l.shape = false ∧
    l.shape ≠ .loop ∧ l.shape ≠ .loopEnd ∧ ∀ unit, braceFree unit = true → ∀ d indent,
      indent.allBlank = true →
        braceFree (contents d indent s (render unit l.shape s).1).text = true := by
  obtain ⟨s, hl, hform⟩ := h.reads
  have hfree : braceFree s = true := by
    refine braceFree_of_subset h.free fun c hc => ?_
    rw [← hl.statement_eq] at hc
    exact mem_of_mem_statement hc
  refine ⟨s, hl, ?_⟩
  rcases hform with hs | hs
  · refine ⟨?_, ?_, ?_, fun unit hu d indent hi => ?_⟩
    · cases hshape : l.shape <;> simp_all [isSimple, isMarker]
    · rintro hshape
      simp [hshape, isSimple] at hs
    · rintro hshape
      simp [hshape, isSimple] at hs
    · exact braceFree_contents d hi hfree fun t ht => braceFree_render hs hu hfree ht
  · rw [hs.shape_eq hl]
    refine ⟨rfl, by decide, by decide, fun unit hu d indent hi => ?_⟩
    exact braceFree_contents d hi hfree fun t ht => hs.braceFree_render hu hfree ht

theorem Pairs.free {l : Line} (h : braceFree l.text = true) : Pairs before [] before [l] :=
  .quiet (closesBrace_of_free h) (opensBrace_of_free h)

theorem IsLeaf.converts (h : IsLeaf l none) (hu : braceFree unit = true) :
    Converts unit loops before [l] [] loops before := by
  obtain ⟨s, hl, hm, hne, -, hfree⟩ := h.rendered
  have ho : openLoop loops l s l.text.indent = loops := by
    rw [openLoop, if_neg (by simpa using hne)]
  refine .line fun a ha => ?_
  have hs := step_unlabelled a loops hm hl
  rw [ho, ha] at hs
  exact ⟨_, _, hs, by simp [ha], fun next => .free (hfree unit hu _ _ (allBlank_indent _))⟩

/-- The braces at the end of loops, innermost first. -/
def endBraces (ended : List OpenLoop) : List Entry :=
  ended.map fun o => .fresh { text := o.indent ++ "\x7d", shape := .loopEnd }

/-- The construct that a loop is when the statement of `l` ends it. -/
def endedBy (l : Line) (o : OpenLoop) : Construct := ⟨o.line, l.origin, o.indent⟩

theorem pairs_brace {d : Draft} {o : OpenLoop} (hd : d.text = o.indent ++ "\x7d")
    (ho : o.indent.allBlank = true) (id : Nat) :
    Pairs (o.line :: before) [endedBy l o] before [{ d with id, origin := l.origin }] := by
  have hc : closesBrace d.text = true := by
    rw [hd]
    exact closesBrace_indented ho (by decide)
  have hopen : opensBrace d.text = false := by
    rw [hd, opensBrace]
    simp
  have hi : d.text.takeWhile isBlank = o.indent := by
    rw [hd]
    exact takeWhile_indented ho (by decide)
  rw [endedBy, ← hi]
  exact Pairs.closing (l := { d with id, origin := l.origin }) hc hopen

theorem pairs_endBraces {ended : List OpenLoop} (h : ∀ o ∈ ended, o.indent.allBlank = true)
    (next : Nat) : Pairs (ended.map (·.line) ++ before) (ended.map (endedBy l)) before
      (Buffer.place l next (endBraces ended)).1 := by
  induction ended generalizing next with
  | nil => exact .nil
  | cons o ended ih =>
    have hrest := ih (fun o ho => h o (by simp [ho])) (next + 1)
    exact (pairs_brace rfl (h o (by simp)) next).append hrest

theorem labelledLines_other {s indent : Text} {ended : List OpenLoop} {d : Draft}
    {rendered : Option Text} (h : s ≠ "continue".toList) :
    labelledLines unit k s indent ended d rendered =
      .fresh { text := labelName unit k ++ ": ", shape := .label } ::
        .kept (contents { d with label := none } indent s rendered) :: endBraces ended := by
  have hs : (s == "continue".toList) = false := beq_eq_false_iff_ne.2 h
  simp only [labelledLines, hs, Bool.false_eq_true, if_false]
  rfl

theorem labelledLines_continue {indent : Text} {o : OpenLoop} {ended : List OpenLoop} {d : Draft}
    {rendered : Option Text} :
    labelledLines unit k "continue" indent (o :: ended) d rendered =
      .fresh { text := labelName unit k ++ ": ", shape := .label } ::
        .kept { d with label := none, text := o.indent ++ "\x7d", shape := .loopEnd } ::
          endBraces ended := rfl

theorem braceFree_labelLine (hu : braceFree unit = true) (hk : ∀ c ∈ k, c.isDigit = true) :
    braceFree (labelName unit k ++ ": ") = true := by
  rw [braceFree_append, braceFree_labelName hu hk]
  rfl

/-- A labelled leaf closes the loops that end at its label. -/
theorem IsLeaf.converts_labelled (h : IsLeaf l (some k)) (hu : braceFree unit = true)
    (ended : List OpenLoop) (hk : (loops.get? k).getD [] = ended.reverse)
    (hb : ∀ o ∈ ended, o.indent.allBlank = true) :
    Converts unit loops (ended.map (·.line) ++ before) [l] (ended.map (endedBy l)) (loops.erase k)
      before := by
  obtain ⟨s, hl, hm, hne, hend, hfree⟩ := h.rendered
  obtain ⟨hshape, hdigit⟩ := hl.shape_eq_of_label
  have hcont : s ≠ "continue".toList := by
    rintro rfl
    exact hend (hshape.trans Statement.shape_continue)
  refine .line fun a ha => ?_
  obtain ⟨a', indent, hs, ha', hi⟩ := step_labelled a loops hm hl hne
  rw [ha, hk, List.reverse_reverse, labelledLines_other hcont] at hs
  refine ⟨a', _, hs, ha'.trans ha, fun next => ?_⟩
  have hlabel := braceFree_labelLine hu hdigit
  have hbody := hfree unit hu { l.toDraft with label := none } indent hi
  exact (Pairs.free hlabel).append ((Pairs.free hbody).append (pairs_endBraces hb (next + 1)))

theorem IsLeaf.converts_unused (h : IsLeaf l (some k)) (hu : braceFree unit = true)
    (hk : loops.get? k = none) : Converts unit loops before [l] [] loops before := by
  have hleaf : Converts unit loops before [l] [] (loops.erase k) before :=
    h.converts_labelled hu [] (by rw [hk]; rfl) (List.forall_mem_nil _)
  rwa [Assoc.erase_of_absent hk] at hleaf

/-- The statement at the label of a group of loops closes them all, the innermost first. -/
theorem EndsLoops.converts (h : EndsLoops k l) (hu : braceFree unit = true) {ended : List OpenLoop}
    (hk : loops.get? k = some ended.reverse) (hne : ended ≠ [])
    (hb : ∀ o ∈ ended, o.indent.allBlank = true) :
    Converts unit loops (ended.map (·.line) ++ before) [l] (ended.map (endedBy l)) (loops.erase k)
      before := by
  rcases h with hl | hl
  · obtain ⟨o, ended, rfl⟩ := List.exists_cons_of_ne_nil hne
    obtain ⟨hshape, hdigit⟩ := hl.shape_eq_of_label
    rw [Statement.shape_continue] at hshape
    refine .line fun a ha => ?_
    obtain ⟨a', indent, hs, ha', hi⟩ :=
      step_labelled a loops (by rw [hshape]; rfl) hl (by rw [hshape]; decide)
    rw [ha, hk, Option.getD_some, List.reverse_reverse, labelledLines_continue] at hs
    refine ⟨a', _, hs, ha'.trans ha, fun next => ?_⟩
    have hlabel := braceFree_labelLine hu hdigit
    have hblank : ∀ o ∈ ended, o.indent.allBlank = true := fun o ho => hb o (by simp [ho])
    exact (Pairs.free hlabel).append
      ((pairs_brace rfl (hb o (by simp)) l.id).append (pairs_endBraces hblank (next + 1)))
  · exact hl.converts_labelled hu ended (by rw [hk]; rfl) hb

end Leaf

end Block

end FixedForm
