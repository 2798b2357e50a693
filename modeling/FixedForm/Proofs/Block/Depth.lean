import FixedForm.Proofs.Block.Closing
import FixedForm.Stage
import Mathlib.Algebra.Ring.Int.Defs

/-! The depth at which lines stand, and what an unlabelled `continue` does to it.  The structure of a unit
does not depend on the numbers of its lines, so that a line that leaves no trace in the state can be put
in anywhere.  An unlabelled `continue` is such a line, but it is written as a closing brace. -/
namespace FixedForm.Block
open Text

/-- How much deeper the lines behind a line stand than the line. -/
def turn (d : Draft) : Int :=
  (if opensBrace d.text then 1 else 0) - (if closesBrace d.text then 1 else 0)

/-- The depth behind some lines. -/
def depth (ds : List Draft) : Int := (ds.map turn).sum

theorem depth_append (ds es : List Draft) : depth (ds ++ es) = depth ds + depth es := by
  rw [depth, List.map_append, List.sum_append]
  rfl

theorem depth_cons (d : Draft) (ds : List Draft) : depth (d :: ds) = turn d + depth ds := by
  rw [depth, List.map_cons, List.sum_cons]
  rfl

/-- The contents of the lines of a unit that is classified and structured. -/
def structured (a : Analysis) (b : Buffer) : List Draft :=
  (Stage.blocks.run a (Stage.shapes.run a b).2).2.lines.map (·.toDraft)

/-- States that differ in the numbers of open loops at most. -/
structure Alike (s s' : Analysis × OpenLoops) : Prop where
  unit_eq : s.1.unitName = s'.1.unitName
  indents_eq : ∀ k, ((s.2.get? k).getD []).map (·.indent) = ((s'.2.get? k).getD []).map (·.indent)

section Alike
variable {s s' : Analysis × OpenLoops} {l l' : Line}

theorem endBraces_congr {ended ended' : List OpenLoop}
    (h : ended.map (·.indent) = ended'.map (·.indent)) : endBraces ended = endBraces ended' := by
  have hmap (ls : List OpenLoop) : endBraces ls =
      (ls.map (·.indent)).map fun i => .fresh { text := i ++ "\x7d", shape := .loopEnd } := by
    rw [endBraces, List.map_map]
    rfl
  rw [hmap, hmap, h]

theorem labelledLines_congr {ended ended' : List OpenLoop}
    (h : ended.map (·.indent) = ended'.map (·.indent)) (unit k s indent : Text) (d : Draft)
    (rendered : Option Text) :
    labelledLines unit k s indent ended d rendered = labelledLines unit k s indent ended' d rendered := by
  by_cases hs : s = "continue".toList
  · subst hs
    match ended, ended', h with
    | [], [], _ => rfl
    | o :: ended, o' :: ended', h =>
      obtain ⟨ho, hrest⟩ := List.cons.inj h
      have ho : o.indent = o'.indent := ho
      rw [labelledLines_continue, labelledLines_continue, ho, endBraces_congr hrest]
  · rw [labelledLines_other hs, labelledLines_other hs, endBraces_congr h]

theorem Alike.refl (s : Analysis × OpenLoops) : Alike s s := ⟨rfl, fun _ => rfl⟩

theorem Alike.step (h : Alike s s') (hl : l.toDraft = l'.toDraft) :
    (Block.step s l).2 = (Block.step s' l').2 ∧ Alike (Block.step s l).1 (Block.step s' l').1 := by
  obtain ⟨a, loops⟩ := s
  obtain ⟨a', loops'⟩ := s'
  obtain ⟨d, i, o⟩ := l
  obtain ⟨d', i', o'⟩ := l'
  obtain rfl : d = d' := hl
  cases hm : isMarker d.shape with
  | true =>
    rw [step_marker a loops hm, step_marker a' loops' hm]
    exact ⟨rfl, h⟩
  | false =>
    have hunit : a.unitName = a'.unitName := h.unit_eq
    have hnoted (k : Text) : (((notedLoops loops ⟨d, i, o⟩).get? k).getD []).map (·.indent) =
        (((notedLoops loops' ⟨d, i', o'⟩).get? k).getD []).map (·.indent) := by
      rw [get?_notedLoops, get?_notedLoops, List.map_append, List.map_append, h.indents_eq k]
      have hown (m : Line) : (([m].filter fun m => target? m == some k).map noted).map (·.indent) =
          if target? m = some k then [column m] else [] := by
        by_cases ht : target? m = some k <;> simp [ht, noted]
      rw [hown, hown]
      rfl
    rw [step_other a loops hm, step_other a' loops' hm]
    cases hc : d.field with
    | none =>
      simp only
      refine ⟨?_, by simpa using hunit, hnoted⟩
      rw [hunit]
      rfl
    | some k =>
      simp only
      refine ⟨?_, by simpa using hunit, fun k' => ?_⟩
      · rw [hunit]
        refine labelledLines_congr ?_ _ _ _ _ _ _
        rw [List.map_reverse, List.map_reverse, hnoted k]
      · rw [Assoc.get?_erase, Assoc.get?_erase]
        split
        · rfl
        · exact hnoted k'

theorem lines_editFrom_cons {σ : Type} (step : σ → Line → σ × List Entry) (s : σ) (next : Nat) (l : Line)
    (lines : List Line) : (Buffer.editFrom step s next (l :: lines)).2.1 =
      (Buffer.place l next (step s l).2).1 ++
        (Buffer.editFrom step (step s l).1 (Buffer.place l next (step s l).2).2 lines).2.1 := rfl

theorem map_toDraft_place (l : Line) (next : Nat) (es : List Entry) :
    (Buffer.place l next es).1.map (·.toDraft) = es.map (·.contents) := by
  induction es generalizing next with
  | nil => rfl
  | cons e es ih =>
    cases e with
    | kept d => exact congrArg (d :: ·) (ih next)
    | fresh d => exact congrArg (d :: ·) (ih (next + 1))

/-- Lines with the same contents become lines with the same contents. -/
theorem Alike.editFrom (h : Alike s s') {lines lines' : List Line}
    (hl : lines.map (·.toDraft) = lines'.map (·.toDraft)) (next next' : Nat) :
    (Buffer.editFrom Block.step s next lines).2.1.map (·.toDraft) =
        (Buffer.editFrom Block.step s' next' lines').2.1.map (·.toDraft) ∧
      Alike (Buffer.editFrom Block.step s next lines).1 (Buffer.editFrom Block.step s' next' lines').1 := by
  induction lines generalizing s s' lines' next next' with
  | nil =>
    obtain rfl : lines' = [] := by simpa using hl.symm
    exact ⟨rfl, h⟩
  | cons l lines ih =>
    obtain ⟨l', rest, rfl, hfirst, hrest⟩ := List.map_eq_cons_iff.1 hl.symm
    have hsame : l.toDraft = l'.toDraft := hfirst.symm
    obtain ⟨hentries, hnext⟩ := h.step hsame
    obtain ⟨hout, hlast⟩ := ih hnext hrest.symm (Buffer.place l next (Block.step s l).2).2
      (Buffer.place l' next' (Block.step s' l').2).2
    refine ⟨?_, hlast⟩
    rw [lines_editFrom_cons, lines_editFrom_cons, List.map_append, List.map_append, map_toDraft_place,
      map_toDraft_place, hout, hentries]

end Alike

section Continue
variable {c : Draft}

/-- An unlabelled `continue` has the shape of the end of a loop. -/
theorem classify_continue (hshape : c.shape ≠ .comment) (hlabel : (Labelled.split c.text).label = none)
    (hs : statementOf c.text = "continue".toList) :
    c.classify = { c with shape := .loopEnd, label := none } := by
  have hclassify : c.classify =
      { c with shape := (Statement.classify c.text).1, label := (Statement.classify c.text).2 } := by
    rw [Draft.classify, if_neg (by simpa using hshape)]
  have hnone : (Statement.classify c.text).2 = none := by
    rw [Statement.classify]
    split_ifs
    · rfl
    · rfl
    · rfl
    · exact hlabel
  have hsays : Says { c.classify with id := 0, origin := 0 } none "continue" :=
    ⟨by rw [hclassify], by rw [hclassify]; exact hlabel, by rw [hclassify]; exact hs⟩
  have hend := hsays.shape_eq (List.append_nil "continue".toList).symm ⟨by decide, .cons (by decide)⟩ .nil
  rw [Statement.shape_continue, hclassify] at hend
  rw [hclassify, hnone]
  exact congrArg (fun shape => { c with shape, label := none }) hend

/-- It becomes a brace and leaves the state as it was. -/
theorem step_continue (s : Analysis × OpenLoops) {l : Line} (hshape : l.shape = .loopEnd)
    (hlabel : (Labelled.split l.text).label = none) :
    (step s l).2 = [.kept { l.toDraft with text := l.text.indent ++ "\x7d" }] ∧ Alike s (step s l).1 := by
  obtain ⟨a, loops⟩ := s
  have hm : isMarker l.shape = false := by rw [hshape]; rfl
  have hfield : l.field = none := by rw [Draft.field, hm]; exact hlabel
  have hcolumn : column l = l.text.indent := by rw [column, hlabel]; rfl
  have hrendered : rendered a.unitName l = some "\x7d".toList := by rw [rendered, hshape]; rfl
  have hloops : notedLoops loops l = loops := by rw [notedLoops, openLoop, hshape]; rfl
  rw [step_other a loops hm, hfield]
  simp only
  rw [hcolumn, hrendered, hloops]
  exact ⟨rfl, (Analysis.unitName_reportAll a _ _).symm, fun _ => rfl⟩

theorem turn_brace {indent : Text} (h : indent.allBlank = true) {d : Draft}
    (hd : d.text = indent ++ "\x7d") : turn d = -1 := by
  have hcloses : closesBrace (indent ++ "\x7d") = true := closesBrace_indented h (by decide)
  have hopens : opensBrace (indent ++ "\x7d") = false := opensBrace_indented
  rw [turn, hd, hcloses, hopens]
  rfl

end Continue

section Insertion

theorem entries_ne_nil (s : Analysis × OpenLoops) (l : Line) : (step s l).2 ≠ [] := by
  obtain ⟨a, loops⟩ := s
  cases hm : isMarker l.shape with
  | true => simp [step_marker a loops hm]
  | false =>
    rw [step_other a loops hm]
    cases l.field with
    | none => simp
    | some k =>
      simp only [labelledLines]
      split
      · split <;> simp
      · simp

/-- The contents of the lines that some lines become. -/
def becoming (s : Analysis × OpenLoops) (lines : List Line) : List Draft :=
  (Buffer.editFrom step s 0 lines).2.1.map (·.toDraft)

theorem Alike.becoming {s s' : Analysis × OpenLoops} (h : Alike s s') {lines lines' : List Line}
    (hl : lines.map (·.toDraft) = lines'.map (·.toDraft)) :
    Block.becoming s lines = Block.becoming s' lines' :=
  (h.editFrom hl 0 0).1

theorem becoming_append (s : Analysis × OpenLoops) (lines lines' : List Line) :
    becoming s (lines ++ lines') =
      becoming s lines ++ becoming (Buffer.editFrom step s 0 lines).1 lines' := by
  rw [becoming, Buffer.editFrom_append rfl rfl, List.map_append, becoming]
  congr 1
  exact ((Alike.refl _).editFrom rfl _ 0).1

theorem becoming_cons (s : Analysis × OpenLoops) (l : Line) (lines : List Line) :
    becoming s (l :: lines) = (step s l).2.map (·.contents) ++ becoming (step s l).1 lines := by
  rw [becoming, lines_editFrom_cons, List.map_append, map_toDraft_place]
  congr 1
  exact ((Alike.refl _).editFrom rfl _ 0).1

theorem becoming_eq_nil (s : Analysis × OpenLoops) (lines : List Line) :
    becoming s lines = [] ↔ lines = [] := by
  cases lines with
  | nil => exact ⟨fun _ => rfl, fun _ => rfl⟩
  | cons l lines => simp [becoming_cons, entries_ne_nil]

theorem becoming_continue (s : Analysis × OpenLoops) {l : Line} (hshape : l.shape = .loopEnd)
    (hlabel : (Labelled.split l.text).label = none) (lines : List Line) :
    becoming s (l :: lines) =
      { l.toDraft with text := l.text.indent ++ "\x7d" } :: becoming s lines := by
  obtain ⟨hentries, halike⟩ := step_continue s hshape hlabel
  rw [becoming_cons, hentries, ← halike.becoming rfl]
  rfl

/-- Lines with the given contents. -/
def bare (ds : List Draft) : List Line := ds.map fun d => { d with id := 0, origin := 0 }

theorem map_toDraft_bare (ds : List Draft) : (bare ds).map (·.toDraft) = ds := by
  rw [bare, List.map_map]
  exact List.map_id ds

theorem structured_eq (a : Analysis) {b : Buffer} {ds : List Draft} (h : b.lines.map (·.toDraft) = ds) :
    structured a b = becoming (a, []) (bare (ds.map Draft.classify)) := by
  refine ((Alike.refl _).editFrom ?_ b.nextId 0).1
  rw [map_toDraft_bare, ← h, List.map_map]
  exact List.map_map

/-- An unlabelled `continue` puts one brace in its place.  All else is written as it would be without, so
that the lines in front stand where they stood and those behind stand one lower.  The depth of every
other line is kept only where nothing follows. -/
theorem continue_lowers_rest (a : Analysis) (xs ys : List Draft) (c : Draft) (hshape : c.shape ≠ .comment)
    (hlabel : (Labelled.split c.text).label = none) (hs : statementOf c.text = "continue".toList)
    (b b' : Buffer) (hb : b.lines.map (·.toDraft) = xs ++ ys)
    (hb' : b'.lines.map (·.toDraft) = xs ++ c :: ys) :
    ∃ front back brace, structured a b = front ++ back ∧ structured a b' = front ++ brace :: back ∧
      (∀ b₀ : Buffer, b₀.lines.map (·.toDraft) = xs → structured a b₀ = front) ∧
      brace.text = c.text.indent ++ "\x7d" ∧
      (∀ mid rest, back = mid ++ rest → depth (front ++ brace :: mid) = depth (front ++ mid) - 1) ∧
      ((∀ mid l rest, back = mid ++ l :: rest → depth (front ++ brace :: mid) = depth (front ++ mid)) ↔
        ys = []) := by
  have hclass := classify_continue hshape hlabel hs
  let brace : Draft := { c.classify with text := c.text.indent ++ "\x7d" }
  let front := becoming (a, []) (bare (xs.map Draft.classify))
  let s := (Buffer.editFrom step (a, []) 0 (bare (xs.map Draft.classify))).1
  let back := becoming s (bare (ys.map Draft.classify))
  have hout : structured a b = front ++ back := by
    rw [structured_eq a hb, List.map_append, bare, List.map_append]
    exact becoming_append _ _ _
  have hout' : structured a b' = front ++ brace :: back := by
    have htext : c.classify.text = c.text := by rw [hclass]
    have hbrace := becoming_continue s (l := ⟨c.classify, 0, 0⟩) (by rw [hclass]) (by rw [hclass]; exact hlabel)
      (bare (ys.map Draft.classify))
    rw [structured_eq a hb', List.map_append, List.map_cons, bare, List.map_append, List.map_cons]
    refine (becoming_append _ _ _).trans (congrArg (front ++ ·) (hbrace.trans ?_))
    rw [htext]
  have hturn : turn brace = -1 := turn_brace (allBlank_indent _) rfl
  have hlower (mid : List Draft) : depth (front ++ brace :: mid) = depth (front ++ mid) - 1 := by
    rw [depth_append, depth_append, depth_cons, hturn]
    omega
  refine ⟨front, back, brace, hout, hout', fun b₀ h₀ => structured_eq a h₀, rfl, fun mid _ _ => hlower mid, ?_⟩
  constructor
  · intro hkept
    by_contra hne
    obtain ⟨l, rest, hback⟩ := List.exists_cons_of_ne_nil
      (l := back) fun h => hne (by simpa [bare] using (becoming_eq_nil _ _).1 h)
    have hfirst := hkept [] l rest hback
    rw [hlower] at hfirst
    omega
  · rintro rfl mid l rest hback
    simp [back, becoming, bare, Buffer.editFrom] at hback

/-- A `continue` in a loop closes it. -/
theorem continue_lowers_loop :
    ∃ front back brace,
      structured {} (Buffer.ofTexts ["      do i = 1, n", "      x = 1", "      enddo"] .other) = front ++ back ∧
      structured {}
        (Buffer.ofTexts ["      do i = 1, n", "      continue", "      x = 1", "      enddo"] .other) =
          front ++ brace :: back ∧
      brace.text = "      \x7d".toList ∧
      ∀ mid rest, back = mid ++ rest → depth (front ++ brace :: mid) = depth (front ++ mid) - 1 := by
  obtain ⟨front, back, brace, hout, hout', -, htext, hlower, -⟩ :=
    continue_lowers_rest {} [{ text := "      do i = 1, n", shape := .other }]
      [{ text := "      x = 1", shape := .other }, { text := "      enddo", shape := .other }]
      { text := "      continue", shape := .other } (by decide) (by decide) (by decide)
      (Buffer.ofTexts ["      do i = 1, n", "      x = 1", "      enddo"] .other)
      (Buffer.ofTexts ["      do i = 1, n", "      continue", "      x = 1", "      enddo"] .other) rfl rfl
  exact ⟨front, back, brace, hout, hout', htext, hlower⟩

end Insertion

end FixedForm.Block
