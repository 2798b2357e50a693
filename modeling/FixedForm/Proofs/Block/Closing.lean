import FixedForm.Proofs.Block.Structure
import FixedForm.Proofs.Inference.Label

/-! Where labelled loops end.  A loop is closed by one brace, behind the first statement from its own on
that carries its label.  A loop whose label never comes gets no brace and is reported. -/
namespace FixedForm.Block
open Text

/-- The label of the statement that ends a loop. -/
def target? (l : Line) : Option Text :=
  if l.shape = .loop then loopLabel? (statementOf l.text) else none

/-- The blanks at which the statement of a line stands. -/
def column (l : Line) : Text :=
  if (Labelled.split l.text).label.isSome then spaces (Labelled.split l.text).columns.length
  else l.text.indent

/-- A loop as it is noted while it is open. -/
def noted (l : Line) : OpenLoop := { line := l.id, indent := column l }

/-- The loops with label `k` that are open behind some lines, innermost first: none of the lines from
such a loop on carries `k`. -/
def waiting (k : Text) (before : List Line) : List Line :=
  (before.reverse.takeWhile fun m => m.field != some k).filter fun m => target? m == some k

/-- The loops that end at `l`, innermost first. -/
def endedAt (before : List Line) (l : Line) : List Line :=
  match l.field with
  | none => []
  | some k => [l].filter (fun m => target? m == some k) ++ waiting k before

section Waiting
variable {k : Text} {before after : List Line} {l loop : Line}

theorem waiting_append : waiting k (before ++ [l]) =
    if l.field = some k then [] else [l].filter (fun m => target? m == some k) ++ waiting k before := by
  rw [waiting, List.reverse_append, List.reverse_singleton, List.singleton_append, List.takeWhile_cons]
  by_cases hc : l.field = some k
  · simp [hc]
  · rw [if_pos (by simpa using hc), if_neg hc, ← List.singleton_append, List.filter_append]
    rfl

theorem waiting_sublist : (waiting k before).Sublist before.reverse :=
  List.filter_sublist.trans (List.takeWhile_sublist _)

theorem endedAt_sublist : (endedAt before l).Sublist (l :: before.reverse) := by
  rw [endedAt]
  split
  · exact List.nil_sublist _
  · exact List.filter_sublist.append waiting_sublist

theorem target_of_mem_waiting (h : l ∈ waiting k before) : target? l = some k := by
  simpa using (List.mem_filter.1 h).2

theorem forall_of_mem_takeWhile {p : Line → Bool} {xs ys : List Line} (hnew : l ∉ xs)
    (h : l ∈ (xs ++ l :: ys).takeWhile p) : ∀ m ∈ xs ++ [l], p m = true := by
  induction xs with
  | nil =>
    cases hl : p l with
    | true => simpa using hl
    | false => simp [hl] at h
  | cons x xs ih =>
    obtain ⟨hne, hnew⟩ := List.ne_and_not_mem_of_not_mem_cons hnew
    cases hx : p x with
    | true =>
      rw [List.cons_append, List.takeWhile_cons_of_pos hx, List.mem_cons] at h
      simpa [hx] using ih hnew (h.resolve_left hne)
    | false => simp [hx] at h

/-- A loop waits while no line from it on carries its label. -/
theorem mem_waiting_iff (hnew : loop ∉ after) (ht : target? loop = some k) :
    loop ∈ waiting k (before ++ loop :: after) ↔ ∀ m ∈ loop :: after, m.field ≠ some k := by
  have hreverse : (before ++ loop :: after).reverse = after.reverse ++ loop :: before.reverse := by simp
  have htarget : (target? loop == some k) = true := by simp [ht]
  rw [waiting, List.mem_filter, hreverse, htarget]
  constructor
  · rintro ⟨h, -⟩ m hm
    have hall := forall_of_mem_takeWhile (by simpa using hnew) h m (by simpa [or_comm] using hm)
    simpa using hall
  · intro hfree
    have hall : ∀ m ∈ after.reverse, (m.field != some k) = true := fun m hm => by
      simpa using hfree m (by simp [List.mem_reverse.1 hm])
    have hloop : (loop.field != some k) = true := by simpa using hfree loop (by simp)
    rw [List.takeWhile_append_of_pos hall, List.takeWhile_cons, if_pos hloop]
    simp

/-- The lines before the first one that carries a label. -/
theorem takeWhile_before {lines mid rest : List Line} (h : lines = mid ++ l :: rest)
    (hl : l.field = some k) (hmid : ∀ m ∈ mid, m.field ≠ some k) :
    lines.takeWhile (fun m => m.field != some k) = mid := by
  have hall : ∀ m ∈ mid, (m.field != some k) = true := fun m hm => by simpa using hmid m hm
  rw [h, List.takeWhile_append_of_pos hall, List.takeWhile_cons, if_neg (by simp [hl]), List.append_nil]

/-- A loop ends at the first line from it on that carries its label, and at no other. -/
theorem mem_endedAt_iff {lines before' after' : List Line} (hnodup : lines.Nodup)
    (h : lines = before ++ loop :: after) (ht : target? loop = some k) (h' : lines = before' ++ l :: after') :
    loop ∈ endedAt before' l ↔ ∃ mid, before' = before ++ mid ∧ loop :: after = mid ++ l :: after' ∧
      l.field = some k ∧ ∀ m ∈ mid, m.field ≠ some k := by
  have hsplit := List.nodup_middle.1 (h ▸ hnodup)
  have hbefore : loop ∉ before := fun hm => (List.nodup_cons.1 hsplit).1 (List.mem_append_left _ hm)
  have hafter : loop ∉ after := fun hm => (List.nodup_cons.1 hsplit).1 (List.mem_append_right _ hm)
  have hplace {x y : List Line} (he : lines = x ++ loop :: y) : before = x ∧ after = y := by
    have hinj := (List.append_cons_inj_of_notMem hbefore hafter).1 (h.symm.trans he)
    exact ⟨hinj.1, hinj.2.2⟩
  constructor
  · intro hm
    rw [endedAt] at hm
    split at hm
    · cases hm
    · next k' hc =>
      rcases List.mem_append.1 hm with hm | hm
      · obtain ⟨hmem, hk⟩ := List.mem_filter.1 hm
        obtain rfl := List.mem_singleton.1 hmem
        obtain rfl : k = k' := by simpa [ht] using hk
        obtain ⟨rfl, rfl⟩ := hplace h'
        exact ⟨[], by simp, rfl, hc, List.forall_mem_nil _⟩
      · obtain rfl : k = k' := by simpa [ht] using target_of_mem_waiting hm
        obtain ⟨x, y, rfl⟩ := List.append_of_mem (List.mem_reverse.1 (waiting_sublist.subset hm))
        obtain ⟨rfl, rfl⟩ := hplace (by simpa using h')
        have hy : loop ∉ y := fun hy => hafter (by simp [hy])
        exact ⟨loop :: y, rfl, rfl, hc, (mem_waiting_iff hy ht).1 hm⟩
  · rintro ⟨mid, rfl, hmid, hc, hfree⟩
    rw [endedAt, hc]
    cases mid with
    | nil =>
      obtain ⟨rfl, -⟩ := List.cons.inj hmid
      simp [ht]
    | cons m mid =>
      obtain ⟨rfl, rfl⟩ := List.cons.inj hmid
      have hnew : loop ∉ mid := fun hm => hafter (by simp [hm])
      exact List.mem_append_right _ ((mem_waiting_iff hnew ht).2 hfree)

theorem nodup_endedAt {lines : List Line} (hnodup : lines.Nodup) (h : lines = before ++ l :: after) :
    (endedAt before l).Nodup := by
  have hfront : (before ++ [l]).Sublist lines := by
    rw [h, List.append_cons before l after]
    exact List.sublist_append_left _ _
  have hreverse := List.nodup_reverse.2 (hnodup.sublist hfront)
  rw [List.reverse_append, List.reverse_singleton, List.singleton_append] at hreverse
  exact hreverse.sublist endedAt_sublist

/-- A loop ends once where its label comes. -/
theorem count_endedAt {lines mid rest before' after' : List Line} {last : Line} (hnodup : lines.Nodup)
    (h : lines = before ++ loop :: after) (ht : target? loop = some k)
    (hsplit : loop :: after = mid ++ last :: rest) (hlast : last.field = some k)
    (hmid : ∀ m ∈ mid, m.field ≠ some k) (h' : lines = before' ++ l :: after') :
    (endedAt before' l).count loop = if before' = before ++ mid then 1 else 0 := by
  have hplace : loop ∈ endedAt before' l ↔ before' = before ++ mid := by
    rw [mem_endedAt_iff hnodup h ht h']
    constructor
    · rintro ⟨mid', hbefore, hsplit', hl, hmid'⟩
      rw [hbefore, ← takeWhile_before hsplit' hl hmid', takeWhile_before hsplit hlast hmid]
    · intro hbefore
      have htail : mid ++ last :: rest = mid ++ l :: after' := by
        rw [h, hsplit, hbefore, List.append_assoc] at h'
        exact List.append_cancel_left h'
      have hl := (List.cons.inj (List.append_cancel_left htail)).1
      exact ⟨mid, hbefore, hsplit.trans htail, hl ▸ hlast, hmid⟩
  rw [(nodup_endedAt hnodup h').count, if_congr hplace rfl rfl]

end Waiting

/-! ### Steps -/

/-- The issues that a line has by itself. -/
def lineIssues (unit : Text) (l : Line) : List Issue :=
  if isMarker l.shape then [] else (render unit l.shape (statementOf l.text)).2

section Step
variable {l : Line} {k : Text} (a : Analysis) (loops : OpenLoops)

/-- The statement of a line in the output. -/
def rendered (unit : Text) (l : Line) : Option Text := (render unit l.shape (statementOf l.text)).1

/-- The open loops when a line has been looked at. -/
def notedLoops (loops : OpenLoops) (l : Line) : OpenLoops :=
  openLoop loops l (statementOf l.text) (column l)

theorem step_marker (hm : isMarker l.shape = true) : step (a, loops) l = ((a, loops), [.kept l.toDraft]) := by
  cases hs : l.shape <;> simp_all [isMarker, step]

theorem step_other (hm : isMarker l.shape = false) : step (a, loops) l =
    match l.field with
    | none => ((a.reportAll (some l.id) (lineIssues a.unitName l), notedLoops loops l),
        [.kept (contents l.toDraft (column l) (statementOf l.text) (rendered a.unitName l))])
    | some k => ((a.reportAll (some l.id) (lineIssues a.unitName l), (notedLoops loops l).erase k),
        labelledLines a.unitName k (statementOf l.text) (column l)
          (((notedLoops loops l).get? k).getD []).reverse l.toDraft (rendered a.unitName l)) := by
  have hc : l.field = (Labelled.split l.text).label := if_neg (by simp [hm])
  have hi : lineIssues a.unitName l = (render a.unitName l.shape (Labelled.split l.text).statement).2 :=
    if_neg (by simp [hm])
  simp only [step]
  split
  iterate 3 next hs => simp [isMarker, hs] at hm
  · rw [hc, hi]
    split <;> next hl => simp only [hl, notedLoops, column, rendered, statementOf, Analysis.unitName_reportAll]

theorem get?_notedLoops : ((notedLoops loops l).get? k).getD [] =
    (loops.get? k).getD [] ++ ([l].filter fun m => target? m == some k).map noted := by
  rw [notedLoops, openLoop]
  by_cases hs : l.shape = .loop
  · have ht : target? l = loopLabel? (statementOf l.text) := if_pos hs
    rw [if_pos (by simpa using hs), ← ht]
    cases h : target? l with
    | none => simp [h]
    | some k' =>
      rw [Assoc.get?_put]
      by_cases hk : k = k'
      · simp [h, hk, noted]
      · simp [h, hk, Ne.symm hk]
  · have ht : target? l = none := if_neg hs
    simp [hs, ht]

theorem nodup_notedLoops {loops : OpenLoops} (h : loops.names.Nodup) (l : Line) :
    (notedLoops loops l).names.Nodup := by
  rw [notedLoops, openLoop]
  split
  · split
    · rw [Assoc.names_put]
      exact nodup_addOnce h _
    · exact h
  · exact h

end Step

/-- The state in which the lines behind `before` are reached. -/
structure Tracks (unit : Text) (before : List Line) (s : Analysis × OpenLoops) : Prop where
  unit_eq : s.1.unitName = unit
  nodup : s.2.names.Nodup
  get?_eq : ∀ k, (s.2.get? k).getD [] = (waiting k before).reverse.map noted

/-- What stands in the place of a line: its label on a line of its own, the line itself, and a brace at
the columns of each of `loops`.  A labelled `continue` is not kept: it turns into the first brace, or
into the line of its label where there is no brace. -/
def Becomes (unit : Text) (l : Line) (loops group : List Line) : Prop :=
  ∃ label own braces : List Line, group = label ++ own ++ braces ∧
    label.map (fun m => (m.text, m.shape)) =
      l.field.toList.map (fun k => (labelName unit k ++ ": ", Shape.label)) ∧
    own.map (·.id) =
      (if l.field.isSome ∧ statementOf l.text = "continue".toList then [] else [l.id]) ∧
    braces.map (fun m => (m.text, m.shape)) = loops.map (fun d => (column d ++ "\x7d", Shape.loopEnd)) ∧
    (own ++ braces ++ label).head?.map (·.id) = some l.id ∧ ∀ m ∈ group, m.origin = l.origin

section Group
variable {unit k : Text} {before : List Line} {s : Analysis × OpenLoops} {l : Line} {next : Nat}

theorem place_endBraces (next : Nat) (loops : List Line) : (Buffer.place l next (endBraces (loops.map noted))).1.map
    (fun m => (m.text, m.shape)) = loops.map (fun d => (column d ++ "\x7d", Shape.loopEnd)) := by
  induction loops generalizing next with
  | nil => rfl
  | cons d loops ih =>
    have hrest := ih (next + 1)
    simp only [endBraces, List.map_cons, Buffer.place] at hrest ⊢
    rw [hrest]
    rfl

theorem labelledLines_bare {indent : Text} {d : Draft} {rendered : Option Text} :
    labelledLines unit k "continue" indent [] d rendered =
      [.kept { d with label := none, text := labelName unit k ++ ": ", shape := .label }] := rfl

theorem becomes_labelled (hc : l.field = some k) (loops : List Line) (rendered : Option Text) :
    Becomes unit l loops (Buffer.place l next (labelledLines unit k (statementOf l.text) (column l)
      (loops.map noted) l.toDraft rendered)).1 := by
  have hlabel : l.field.isSome = true := by rw [hc]; rfl
  have horigin {es : List Entry} : ∀ m ∈ (Buffer.place l next es).1, m.origin = l.origin :=
    fun m hm => (Buffer.mem_place hm).1
  by_cases hs : statementOf l.text = "continue".toList
  · have hown : (if l.field.isSome ∧ statementOf l.text = "continue".toList then [] else [l.id]) = [] :=
      if_pos ⟨hlabel, hs⟩
    cases loops with
    | nil =>
      rw [hs, List.map_nil, labelledLines_bare]
      refine ⟨[_], [], [], rfl, ?_, hown.symm, rfl, rfl, horigin⟩
      rw [hc]
      rfl
    | cons d loops =>
      rw [hs, List.map_cons, labelledLines_continue]
      refine ⟨[_], [], _ :: _, rfl, ?_, hown.symm, ?_, rfl, horigin⟩
      · rw [hc]
        rfl
      · exact congrArg _ (place_endBraces (next + 1) loops)
  · have hown : (if l.field.isSome ∧ statementOf l.text = "continue".toList then [] else [l.id]) =
        [l.id] := if_neg fun h => hs h.2
    rw [labelledLines_other hs]
    refine ⟨[_], [_], _, rfl, ?_, hown.symm, place_endBraces _ loops, rfl, horigin⟩
    rw [hc]
    rfl

theorem becomes_kept (hc : l.field = none) (d : Draft) :
    Becomes unit l [] (Buffer.place l next [.kept d]).1 :=
  ⟨[], [_], [], rfl, by simp [hc], by simp [hc], rfl, rfl, fun _ hm => (Buffer.mem_place hm).1⟩

theorem Tracks.start (a : Analysis) : Tracks a.unitName [] (a, []) :=
  ⟨rfl, List.nodup_nil, fun _ => rfl⟩

/-- One line: what it becomes, and the state behind it. -/
theorem Tracks.step (h : Tracks unit before s) (l : Line) (next : Nat) :
    Becomes unit l (endedAt before l) (Buffer.place l next (Block.step s l).2).1 ∧
      Tracks unit (before ++ [l]) (Block.step s l).1 := by
  obtain ⟨a, loops⟩ := s
  obtain ⟨hunit, hnodup, hloops⟩ := h
  cases hm : isMarker l.shape with
  | true =>
    have hc : l.field = none := if_pos hm
    have ht : target? l = none := if_neg (by rintro hs; simp [hs, isMarker] at hm)
    rw [step_marker a loops hm, endedAt, hc]
    refine ⟨becomes_kept hc _, hunit, hnodup, fun k => ?_⟩
    rw [waiting_append, hc]
    simpa [ht] using hloops k
  | false =>
    have hnoted (k : Text) : ((notedLoops loops l).get? k).getD [] =
        ([l].filter (fun m => target? m == some k) ++ waiting k before).reverse.map noted := by
      rw [get?_notedLoops, hloops k, List.reverse_append, List.map_append]
      congr 1
      by_cases ht : target? l = some k <;> simp [ht]
    rw [step_other a loops hm, endedAt]
    cases hc : l.field with
    | none =>
      refine ⟨becomes_kept hc _, by simpa using hunit, nodup_notedLoops hnodup l, fun k => ?_⟩
      rw [waiting_append, hc, if_neg (by simp)]
      exact hnoted k
    | some k =>
      refine ⟨?_, by simpa using hunit, (nodup_notedLoops hnodup l).sublist (Assoc.names_erase_sublist _ _),
        fun k' => ?_⟩
      · simp only
        rw [hnoted k, ← List.map_reverse, List.reverse_reverse, show a.unitName = unit from hunit]
        exact becomes_labelled hc _ _
      · rw [Assoc.get?_erase, waiting_append, hc]
        by_cases hk : k' = k
        · simp [hk]
        · rw [if_neg hk, if_neg (by simpa using Ne.symm hk)]
          exact hnoted k'

/-- A run: what each line becomes, and the state behind the last. -/
theorem Tracks.editFrom (h : Tracks unit before s) (next : Nat) (lines : List Line) :
    Tracks unit (before ++ lines) (Buffer.editFrom Block.step s next lines).1 ∧
      ∃ groups : List (List Line), (Buffer.editFrom Block.step s next lines).2.1 = groups.flatten ∧
        groups.length = lines.length ∧ ∀ mid l after, lines = mid ++ l :: after →
          ∃ group, groups[mid.length]? = some group ∧ Becomes unit l (endedAt (before ++ mid) l) group := by
  induction lines generalizing before s next with
  | nil => exact ⟨by rwa [List.append_nil], [], rfl, rfl, fun mid l after he => by simp at he⟩
  | cons l lines ih =>
    obtain ⟨hfirst, hnext⟩ := h.step l next
    obtain ⟨htracks, groups, hout, hlen, hgroups⟩ := ih hnext (Buffer.place l next (Block.step s l).2).2
    rw [List.append_assoc, List.singleton_append] at htracks
    refine ⟨htracks, (Buffer.place l next (Block.step s l).2).1 :: groups, ?_, by simp [hlen], ?_⟩
    · rw [List.flatten_cons, ← hout]
      rfl
    · intro mid m after he
      cases mid with
      | nil =>
        obtain ⟨rfl, -⟩ := List.cons.inj he
        exact ⟨_, rfl, by simpa using hfirst⟩
      | cons x mid =>
        obtain ⟨rfl, rfl⟩ := List.cons.inj he
        obtain ⟨group, hg, hb⟩ := hgroups mid m after rfl
        exact ⟨group, by simpa using hg, by simpa using hb⟩

end Group

/-! ### Findings -/

section Findings
open Diagnostic (add ofIssue forLine byCode)
variable {k : Text} {before after : List Line} {loop : Line}

/-- A counted loop without two or three bounds. -/
def boundFaults (l : Line) : List Issue :=
  match WhileLoop.parse? (statementOf l.text), CountedLoop.parse? (statementOf l.text) with
  | none, some c =>
    if c.bounds.splitCommas.1.length = 2 ∨ c.bounds.splitCommas.1.length = 3 then []
    else [.boundCount c.counter c.bounds.splitCommas.1.length]
  | _, _ => []

theorem renderCountedLoop_eq_none (counter : Text) (bounds : List Text) :
    renderCountedLoop counter bounds = none ↔ ¬ (bounds.length = 2 ∨ bounds.length = 3) := by
  rw [renderCountedLoop, ← List.length_map (f := Text.trim)]
  generalize bounds.map Text.trim = trimmed
  rcases trimmed with _ | ⟨_, _ | ⟨_, _ | ⟨step, _ | ⟨_, _⟩⟩⟩⟩
  · simp
  · simp
  · simp
  · cases h : literalStep? step with
    | none => simp [h]
    | some n => cases hn : n.isNegative <;> simp [h, hn]
  · simp

/-- A loop with a label has no other issue about its form than its bounds. -/
theorem filter_lineIssues (unit : Text) (ht : target? loop = some k) :
    (lineIssues unit loop).filter (fun i => i.code == .loopForm) = boundFaults loop := by
  have hs : loop.shape = .loop := by
    by_contra hs
    simp [target?, hs] at ht
  rw [target?, if_pos hs, loopLabel?] at ht
  have hissues : lineIssues unit loop = (renderLoop (statementOf loop.text)).2 := by
    simp [lineIssues, hs, isMarker, render]
  rw [hissues, renderLoop, boundFaults]
  cases hw : WhileLoop.parse? (statementOf loop.text) with
  | some w =>
    simp only
    cases w.condition.closing? <;> rfl
  | none =>
    cases hc : CountedLoop.parse? (statementOf loop.text) with
    | none => simp [hw, hc] at ht
    | some c =>
      rcases hb : c.bounds.splitCommas with ⟨bounds, faults⟩
      have hfaults : (faults.map (Issue.mismatchInBounds · c.counter)).filter
          (fun i => i.code == .loopForm) = [] := by
        simp [Issue.code]
      simp only [hb]
      cases hr : renderCountedLoop c.counter bounds with
      | some text =>
        have hlength : bounds.length = 2 ∨ bounds.length = 3 := by
          by_contra hlength
          simp [(renderCountedLoop_eq_none _ _).2 hlength] at hr
        rw [if_pos hlength]
        exact hfaults
      | none =>
        rw [if_neg ((renderCountedLoop_eq_none _ _).1 hr), List.filter_append, hfaults]
        rfl

/-- The findings of a loop that nothing closes. -/
def openFindings (e : Text × List OpenLoop) : List Diagnostic :=
  e.2.map fun o => ofIssue (some o.line) (.missingLoopEnd e.1)

theorem diagnostics_reportOpen (a : Analysis) (loops : OpenLoops) :
    (reportOpen a loops).diagnostics = (loops.flatMap openFindings).foldl add a.diagnostics := by
  have hreport (label : Text) (unclosed : List OpenLoop) (a : Analysis) :
      (unclosed.foldl (fun a l => a.report l.line (.missingLoopEnd label)) a).diagnostics =
        (openFindings (label, unclosed)).foldl add a.diagnostics := by
    induction unclosed generalizing a with
    | nil => rfl
    | cons o unclosed ih => exact ih _
  induction loops generalizing a with
  | nil => rfl
  | cons e loops ih =>
    rw [List.flatMap_cons, List.foldl_append, ← hreport e.1 e.2 a]
    exact ih _

/-- The findings of a line by itself. -/
def lineFindings (unit : Text) (l : Line) : List Diagnostic :=
  (lineIssues unit l).map (ofIssue (some l.id))

theorem analysis_step (s : Analysis × OpenLoops) (l : Line) :
    (step s l).1.1 = s.1.reportAll (some l.id) (lineIssues s.1.unitName l) := by
  obtain ⟨a, loops⟩ := s
  cases hm : isMarker l.shape with
  | true =>
    rw [step_marker a loops hm, lineIssues, if_pos hm]
    rfl
  | false =>
    rw [step_other a loops hm]
    cases l.field <;> rfl

theorem diagnostics_editFrom (s : Analysis × OpenLoops) (next : Nat) (lines : List Line) :
    (Buffer.editFrom step s next lines).1.1.diagnostics =
      (lines.flatMap (lineFindings s.1.unitName)).foldl add s.1.diagnostics := by
  induction lines generalizing s next with
  | nil => rfl
  | cons l lines ih =>
    have hrest := ih (step s l).1 (Buffer.place l next (step s l).2).2
    rw [analysis_step, Analysis.unitName_reportAll, Analysis.diagnostics_reportAll] at hrest
    rw [List.flatMap_cons, List.foldl_append]
    exact hrest

/-- A finding about the form of the loop at a line. -/
def isAbout (loop : Line) (d : Diagnostic) : Bool := d.line == some loop.id && d.code == .loopForm

theorem isAbout_congr (d e : Diagnostic) (h : d.same e = true) : isAbout loop d = isAbout loop e := by
  simp only [Diagnostic.same, Bool.and_eq_true, beq_iff_eq] at h
  rw [isAbout, isAbout, h.1.1, h.2]

theorem byCode_forLine (ds : List Diagnostic) :
    byCode (forLine ds (some loop.id)) .loopForm = ds.filter (isAbout loop) := by
  rw [byCode, forLine, List.filter_filter]
  congr 1
  funext d
  rw [isAbout, Bool.and_comm]

section Unit
variable {lines : List Line} (hids : (lines.map (·.id)).Nodup) (h : lines = before ++ loop :: after)
include hids h

theorem eq_of_id_eq {m : Line} (hm : m ∈ lines) (he : m.id = loop.id) : m = loop :=
  List.inj_on_of_nodup_map hids hm (h ▸ by simp) he

theorem filter_lineFindings (unit : Text) (ht : target? loop = some k) :
    (lines.flatMap (lineFindings unit)).filter (isAbout loop) =
      (boundFaults loop).map (ofIssue (some loop.id)) := by
  have hother {m : Line} (hm : m ∈ lines) (hne : m ≠ loop) :
      (lineFindings unit m).filter (isAbout loop) = [] := by
    have hid : m.id ≠ loop.id := fun he => hne (eq_of_id_eq hids h hm he)
    simp [lineFindings, isAbout, ofIssue, hid]
  have hown : (lineFindings unit loop).filter (isAbout loop) =
      (boundFaults loop).map (ofIssue (some loop.id)) := by
    rw [← filter_lineIssues unit ht, lineFindings, List.filter_map]
    congr 2
    funext i
    simp [isAbout, ofIssue]
  have hnodup := List.nodup_middle.1 (h ▸ List.Nodup.of_map _ hids)
  have hnone {ls : List Line} (hsub : ∀ m ∈ ls, m ∈ lines ∧ m ≠ loop) :
      (ls.flatMap (lineFindings unit)).filter (isAbout loop) = [] := by
    rw [List.filter_flatMap, List.flatMap_eq_nil_iff]
    exact fun m hm => hother (hsub m hm).1 (hsub m hm).2
  have hbefore : ∀ m ∈ before, m ∈ lines ∧ m ≠ loop := fun m hm =>
    ⟨h ▸ by simp [hm], fun he => (List.nodup_cons.1 hnodup).1 (by simp [← he, hm])⟩
  have hafter : ∀ m ∈ after, m ∈ lines ∧ m ≠ loop := fun m hm =>
    ⟨h ▸ by simp [hm], fun he => (List.nodup_cons.1 hnodup).1 (by simp [← he, hm])⟩
  have hsplit : lines.flatMap (lineFindings unit) = before.flatMap (lineFindings unit) ++
      (lineFindings unit loop ++ after.flatMap (lineFindings unit)) := by
    rw [h, List.flatMap_append, List.flatMap_cons]
  rw [hsplit, List.filter_append, List.filter_append, hown, hnone hbefore, hnone hafter, List.nil_append,
    List.append_nil]

theorem filter_openFindings {unit : Text} {s : Analysis × OpenLoops} (htracks : Tracks unit lines s)
    (ht : target? loop = some k) :
    (s.2.flatMap openFindings).filter (isAbout loop) =
      if loop ∈ waiting k lines then [ofIssue (some loop.id) (.missingLoopEnd k)] else [] := by
  have hmem {m : Line} {k' : Text} (hm : m ∈ waiting k' lines) : m ∈ lines :=
    List.mem_reverse.1 (waiting_sublist.subset hm)
  have hfound (k' : Text) (os : List OpenLoop) : (openFindings (k', os)).filter (isAbout loop) =
      (os.filter fun o => o.line == loop.id).map fun o => ofIssue (some o.line) (.missingLoopEnd k') := by
    rw [openFindings, List.filter_map]
    congr 2
    funext o
    simp [isAbout, ofIssue, Issue.code]
  rw [List.filter_flatMap, Assoc.flatMap_of_other htracks.nodup (k := k)]
  · have hwaiting : (waiting k lines).reverse.filter (fun m => m.id == loop.id) =
        if loop ∈ waiting k lines then [loop] else [] := by
      have hnodup : (waiting k lines).reverse.Nodup := by
        rw [List.nodup_reverse]
        exact (List.nodup_reverse.2 (List.Nodup.of_map _ hids)).sublist waiting_sublist
      have heq : ∀ m ∈ (waiting k lines).reverse, (m.id == loop.id) = (m == loop) := by
        intro m hm
        have hline := eq_of_id_eq hids h (hmem (List.mem_reverse.1 hm))
        rw [Bool.eq_iff_iff, beq_iff_eq, beq_iff_eq]
        exact ⟨hline, fun he => by rw [he]⟩
      rw [List.filter_congr heq, List.filter_beq, hnodup.count]
      by_cases hm : loop ∈ waiting k lines <;> simp [hm]
    have hopen : (s.2.get? k).toList.flatMap (fun os => (openFindings (k, os)).filter (isAbout loop)) =
        (openFindings (k, (s.2.get? k).getD [])).filter (isAbout loop) := by
      cases s.2.get? k <;> simp [openFindings]
    rw [hopen, htracks.get?_eq k, hfound, List.filter_map, List.map_map]
    change List.map _ ((waiting k lines).reverse.filter fun m => m.id == loop.id) = _
    rw [hwaiting]
    split <;> rfl
  · rintro ⟨k', os⟩ he hne
    have hos := htracks.get?_eq k'
    rw [Assoc.get?_of_mem htracks.nodup he, Option.getD_some] at hos
    rw [hfound, hos, List.map_eq_nil_iff, List.filter_eq_nil_iff]
    intro o ho hid
    obtain ⟨m, hm, rfl⟩ := List.mem_map.1 ho
    have hm := List.mem_reverse.1 hm
    obtain rfl := eq_of_id_eq hids h (hmem hm) (by simpa [noted] using hid)
    exact hne (Option.some.inj ((target_of_mem_waiting hm).symm.trans ht))

end Unit

theorem boundFaults_cases (l : Line) : boundFaults l = [] ∨ ∃ c n, boundFaults l = [.boundCount c n] := by
  rw [boundFaults]
  split
  · split
    · exact .inl rfl
    · exact .inr ⟨_, _, rfl⟩
  · exact .inl rfl

theorem distinct_formFindings (line : Option Nat) {missing : List Issue}
    (h : missing = [] ∨ missing = [.missingLoopEnd k]) :
    Diagnostic.Distinct ((boundFaults loop ++ missing).map (ofIssue line)) := by
  have hsame (c : Text) (n : Nat) :
      Diagnostic.same (ofIssue line (.boundCount c n)) (ofIssue line (.missingLoopEnd k)) = false := by
    have hbound : (Issue.boundCount c n).message.head? = some 'D' := rfl
    have hmissing : (Issue.missingLoopEnd k).message.head? = some 'l' := rfl
    have hmessage : (Issue.boundCount c n).message ≠ (Issue.missingLoopEnd k).message := by
      intro he
      rw [he, hmissing] at hbound
      exact absurd hbound (by decide)
    simp [Diagnostic.same, ofIssue, hmessage]
  rcases boundFaults_cases loop with hb | ⟨c, n, hb⟩ <;> rcases h with rfl | rfl <;> rw [hb]
  · exact .nil
  iterate 2 exact List.pairwise_singleton _ _
  · exact List.pairwise_pair.2 (hsame c n)

/-- The findings about the form of a loop with a label. -/
theorem findings_run (a : Analysis) (b : Buffer) (hids : (b.lines.map (·.id)).Nodup)
    (h : b.lines = before ++ loop :: after) (ht : target? loop = some k)
    (hprior : byCode (forLine a.diagnostics (some loop.id)) .loopForm = []) :
    byCode (forLine (run a b).1.diagnostics (some loop.id)) .loopForm =
      (boundFaults loop ++ if loop ∈ waiting k b.lines then [Issue.missingLoopEnd k] else []).map
        (ofIssue (some loop.id)) := by
  have htracks := (Tracks.start a).editFrom b.nextId b.lines |>.1
  rw [byCode_forLine] at hprior ⊢
  have hrun : (run a b).1 = reportOpen (Buffer.editFrom step (a, []) b.nextId b.lines).1.1
    (Buffer.editFrom step (a, []) b.nextId b.lines).1.2 := rfl
  rw [hrun, diagnostics_reportOpen, diagnostics_editFrom, ← List.foldl_append,
    Diagnostic.filter_foldl_add isAbout_congr, hprior, List.filter_append,
    filter_lineFindings hids h _ ht, filter_openFindings hids h htracks ht]
  have hmissing : (if loop ∈ waiting k b.lines then [ofIssue (some loop.id) (.missingLoopEnd k)] else []) =
      (if loop ∈ waiting k b.lines then [Issue.missingLoopEnd k] else []).map (ofIssue (some loop.id)) := by
    split <;> rfl
  rw [hmissing, ← List.map_append]
  refine Diagnostic.foldl_add_of_distinct (distinct_formFindings (k := k) _ ?_)
  split
  · exact .inr rfl
  · exact .inl rfl

/-- Each line becomes its label, itself and the braces of the loops that end there, innermost first.  A
loop with a label ends once, at the first line from it on that carries the label, and is not reported as
open.  Where no line carries the label, it ends nowhere and is reported once.  The one other finding about
its form is a wrong number of bounds. -/
theorem loops_end_once (a : Analysis) (b : Buffer) (hids : (b.lines.map (·.id)).Nodup) :
    (∃ groups : List (List Line), (run a b).2.lines = groups.flatten ∧ groups.length = b.lines.length ∧
      ∀ before l after, b.lines = before ++ l :: after →
        (endedAt before l).Sublist (l :: before.reverse) ∧
        ∃ group, groups[before.length]? = some group ∧ Becomes a.unitName l (endedAt before l) group) ∧
    ∀ before loop after k, b.lines = before ++ loop :: after → target? loop = some k →
      byCode (forLine a.diagnostics (some loop.id)) .loopForm = [] →
      (∀ mid last rest, loop :: after = mid ++ last :: rest → last.field = some k →
        (∀ m ∈ mid, m.field ≠ some k) →
        (∀ before' l after', b.lines = before' ++ l :: after' →
          (endedAt before' l).count loop = if before' = before ++ mid then 1 else 0) ∧
        byCode (forLine (run a b).1.diagnostics (some loop.id)) .loopForm =
          (boundFaults loop).map (ofIssue (some loop.id))) ∧
      ((∀ m ∈ loop :: after, m.field ≠ some k) →
        (∀ before' l after', b.lines = before' ++ l :: after' → loop ∉ endedAt before' l) ∧
        byCode (forLine (run a b).1.diagnostics (some loop.id)) .loopForm =
          (boundFaults loop ++ [Issue.missingLoopEnd k]).map (ofIssue (some loop.id))) := by
  have hnodup : b.lines.Nodup := .of_map _ hids
  constructor
  · obtain ⟨-, groups, hout, hlength, hgroups⟩ := (Tracks.start a).editFrom b.nextId b.lines
    exact ⟨groups, hout, hlength, fun before l after h => ⟨endedAt_sublist, hgroups before l after h⟩⟩
  · intro before loop after k h ht hprior
    have hnew : loop ∉ after := fun hm =>
      (List.nodup_cons.1 (List.nodup_middle.1 (h ▸ hnodup))).1 (List.mem_append_right _ hm)
    have hwaiting : loop ∈ waiting k (before ++ loop :: after) ↔ _ := mem_waiting_iff hnew ht
    have hfound := findings_run a b hids h ht hprior
    rw [← h] at hwaiting
    constructor
    · intro mid last rest hsplit hlast hmid
      constructor
      · exact fun before' l after' h' => count_endedAt hnodup h ht hsplit hlast hmid h'
      · have hclosed : loop ∉ waiting k b.lines := fun hm =>
          hwaiting.1 hm last (by simp [hsplit]) hlast
        rw [hfound, if_neg hclosed, List.append_nil]
    · intro hfree
      constructor
      · intro before' l after' h' hm
        obtain ⟨mid, -, hsplit, hl, -⟩ := (mem_endedAt_iff hnodup h ht h').1 hm
        exact hfree l (by simp [hsplit]) hl
      · rw [hfound, if_pos (hwaiting.2 hfree)]

/-- Two loops that end at one assignment, a loop in them whose label never comes, and a loop behind them
that ends at a second line with the first label. -/
def reusedLabel : List Line :=
  [lineAt 0 "      do 10 i = 1, n", lineAt 1 "         do 10, j = 1, m", lineAt 2 "         do 20 k = 1",
    lineAt 3 "   10    x = 1", lineAt 4 "      do 10 while (y)", lineAt 5 "   10 continue"]

theorem reusedLabel_ends_once :
    (reusedLabel.map (·.id)).Nodup ∧
    (endedAt (reusedLabel.take 3) (lineAt 3 "   10    x = 1")).count (lineAt 0 "      do 10 i = 1, n") = 1 ∧
    (endedAt (reusedLabel.take 5) (lineAt 5 "   10 continue")).count (lineAt 0 "      do 10 i = 1, n") = 0 ∧
    byCode (forLine (run {} ⟨reusedLabel, 6⟩).1.diagnostics (some 0)) .loopForm = [] ∧
    byCode (forLine (run {} ⟨reusedLabel, 6⟩).1.diagnostics (some 2)) .loopForm =
      [ofIssue (some 2) (.boundCount "k" 1), ofIssue (some 2) (.missingLoopEnd "20")] := by
  have hids : (reusedLabel.map (·.id)).Nodup := by decide
  have hloops := (loops_end_once {} ⟨reusedLabel, 6⟩ hids).2
  have hfirst := (hloops [] (lineAt 0 "      do 10 i = 1, n") (reusedLabel.drop 1) "10" rfl (by decide) rfl).1
    (reusedLabel.take 3) _ _ rfl (by decide) (by decide)
  have hopen := (hloops (reusedLabel.take 2) (lineAt 2 "         do 20 k = 1") (reusedLabel.drop 3) "20" rfl
    (by decide) rfl).2 (by decide)
  exact ⟨hids, hfirst.1 _ _ _ rfl, hfirst.1 (reusedLabel.take 5) _ [] rfl, hfirst.2, hopen.2⟩

/-- A loop that stays open and has one bound gets two findings about its form. -/
theorem open_loop_reported_twice :
    target? (lineAt 0 "      do 10 i = 1") = some "10".toList ∧
    (lineAt 0 "      do 10 i = 1").field = none ∧
    byCode (forLine (run {} ⟨[lineAt 0 "      do 10 i = 1"], 1⟩).1.diagnostics (some 0)) .loopForm =
      [ofIssue (some 0) (.boundCount "i" 1), ofIssue (some 0) (.missingLoopEnd "10")] := by
  decide

end Findings

end FixedForm.Block
