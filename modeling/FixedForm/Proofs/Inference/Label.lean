import FixedForm.Proofs.Block.Grammar
import FixedForm.Proofs.Inference.Unit
import FixedForm.Proofs.Statement.Field
import FixedForm.Proofs.Statement.Shape
import Mathlib.Data.Option.Basic

/-! Labels through inference.  A statement that is kept or rewritten keeps its label, and added lines
have none; only statements without a counterpart in the output lose theirs. -/
namespace FixedForm
open Text

/-- The label of the statement that a line holds. -/
def Draft.field (d : Draft) : Option Text :=
  if Block.isMarker d.shape then none else (Labelled.split d.text).label

def Entry.contents : Entry → Draft
  | .kept d | .fresh d => d

def Entry.field (e : Entry) : Option Text := e.contents.field

/-- A comment, or a line of the shape that its text gives it. -/
def Draft.IsClassified (d : Draft) : Prop :=
  d.shape = .comment ∨ Statement.classify d.text = (d.shape, d.label)

theorem classify_statement (t : Text) (h : Block.isMarker (Statement.classify t).1 = false) :
    (Statement.classify t).1 = Statement.shape (statementOf t) := by
  revert h
  fun_cases Statement.classify t
  case case1 | case2 | case3 =>
    intro h
    cases h
  case case4 =>
    intro _
    rfl

theorem Draft.IsClassified.shape_eq {d : Draft} (h : d.IsClassified)
    (hm : Block.isMarker d.shape = false) : d.shape = Statement.shape (statementOf d.text) := by
  rcases h with h | h
  · rw [h] at hm
    cases hm
  · have hs : (Statement.classify d.text).1 = d.shape := congrArg Prod.fst h
    rw [← hs] at hm ⊢
    exact classify_statement _ hm

theorem field_unlabelled {d : Draft} {g t : Text} (hd : d.text = g ++ t) (hg : g.allBlank = true)
    (ht : startsSolid t = true) : d.field = none := by
  rw [Draft.field, hd, label_none hg ht]
  split <;> rfl

theorem startsSolid_append {t : Text} (h : startsSolid t = true) (u : Text) :
    startsSolid (t ++ u) = true := by
  cases t with
  | nil => simp [startsSolid] at h
  | cons c t => exact h

theorem label_of_after? {t lead rest : Text} (hl : startsSolid lead = true)
    (h : after? lead t.trimStart = some rest) : (Labelled.split t).label = none := by
  have ht : t = t.takeWhile isBlank ++ (lead ++ rest) := by
    rw [← eq_of_after? h]
    exact List.takeWhile_append_dropWhile.symm
  rw [ht]
  exact label_none allBlank_takeWhile (startsSolid_append hl rest)

theorem HasLabel.word? {t blanks digits rest : Text} (h : HasLabel t blanks digits rest) :
    Text.word? t.trimStart = some (digits, rest) := by
  have hstart : t.trimStart = digits ++ rest := by
    rw [h.text_eq, trimStart_run h.allBlank (h.outside_blank rest)]
  rw [hstart]
  refine word?_run (fun c hc => word_of_digit (h.allDigit c hc)) h.ne_nil (h.ends.mono ?_)
  intro c hc
  simp [not_blank_of_word hc]

theorem startsSolid_targetType (base : Option BaseType) : startsSolid (targetType base) = true := by
  cases base with
  | none => rfl
  | some b => cases b <;> rfl

namespace Declaration

theorem ofName?_digits {digits : Text} (hd : ∀ c ∈ digits, c.isDigit = true) :
    BaseType.ofName? digits = none := by
  refine List.find?_eq_none.2 fun b _ hb => ?_
  rw [← eq_of_beq hb] at hd
  cases b <;> exact absurd (hd _ (List.mem_cons_self)) (by decide)

theorem parse?_unlabelled {t : Text} {d : Declaration} (h : parse? t = some d) :
    (Labelled.split t).label = none ∧ d.indent.allBlank = true := by
  simp only [parse?, Option.bind_eq_bind, Option.bind_eq_some_iff] at h
  obtain ⟨⟨word, rest⟩, hw, base, hb, -, -, hd⟩ := h
  cases hd
  refine ⟨?_, allBlank_takeWhile⟩
  rcases split_cases t with ⟨blanks, digits, rest', hl⟩ | hn
  · obtain ⟨rfl, rfl⟩ := Prod.mk.inj (Option.some.inj (hl.word?.symm.trans hw))
    rw [ofName?_digits hl.allDigit] at hb
    cases hb
  · rw [hn]

end Declaration

namespace Analysis

theorem startsSolid_localDeclaration (s : Symbol) : startsSolid s.localDeclaration.1 = true := by
  have htype (u : Text) : startsSolid (targetType s.baseType ++ u) = true :=
    startsSolid_append (startsSolid_targetType s.baseType) u
  rw [Symbol.localDeclaration]
  split
  · rfl
  · split <;> simp only [List.append_assoc, htype]
  · split <;> simp only [List.append_assoc, htype]
  · simp only [List.append_assoc, htype]

theorem startsSolid_record (a : Analysis) (line : Nat) (base : BaseType) (e : DeclaredEntry)
    {t : Text} (h : (a.record line base e).2 = some t) : startsSolid t = true := by
  simp only [record] at h
  split at h
  · cases h
  · split at h
    · cases h
    · split at h
      · cases h
      · cases h
        exact startsSolid_localDeclaration _

/-- The lines of a declaration are those of the entries that declare local variables. -/
theorem mem_recordAll {line : Nat} {d : Declaration} {pieces : List Text} {a : Analysis} {draft : Draft}
    (h : draft ∈ (a.recordAll line d pieces).2) :
    ∃ (a : Analysis) (e : DeclaredEntry) (t : Text), (a.record line d.baseType e).2 = some t ∧
      draft = { text := d.indent ++ t, shape := .declaration, declares := some e.name } := by
  induction pieces generalizing a with
  | nil => cases h
  | cons piece pieces ih =>
    simp only [recordAll] at h
    split at h
    · exact ih h
    · next e _ =>
      rcases List.mem_append.1 h with h | h
      · obtain ⟨t, ht, rfl⟩ := Option.map_eq_some_iff.1 (Option.mem_toList.1 h)
        exact ⟨_, _, t, ht, rfl⟩
      · exact ih h

theorem shape_recordAll (line : Nat) (d : Declaration) (pieces : List Text) (a : Analysis) :
    ∀ draft ∈ (a.recordAll line d pieces).2, draft.shape = .declaration := by
  intro draft hm
  obtain ⟨_, _, _, -, rfl⟩ := mem_recordAll hm
  rfl

/-- The lines of local variables have no label. -/
theorem field_recordAll (line : Nat) {d : Declaration} (hd : d.indent.allBlank = true)
    (pieces : List Text) (a : Analysis) :
    ∀ draft ∈ (a.recordAll line d pieces).2, draft.field = none := by
  intro draft hm
  obtain ⟨_, _, _, ht, rfl⟩ := mem_recordAll hm
  exact field_unlabelled rfl hd (startsSolid_record _ _ _ _ ht)

end Analysis

namespace Inference

/-- Statements that inference leaves out or makes comments of. -/
def drops (statement : Text) : Bool :=
  match Statement.shape statement with
  | .intrinsic | .implicit => true
  | .other => (Statement.unsupported? statement).isSome
  | _ => false

/-- A statement behind the columns of a label. -/
theorem field_columns {t blanks digits rest : Text} (h : HasLabel t blanks digits rest)
    (hr : rest.takeWhile isBlank ≠ []) (u : Text) {shape : Shape}
    (hs : Block.isMarker shape = false) :
    Draft.field { text := blanks ++ digits ++ rest.takeWhile isBlank ++ u, shape } = some digits := by
  have hends : StartsOutside (!isBlank ·) (rest.takeWhile isBlank ++ u) := by
    refine .append hr fun c hc => ?_
    have hb := mem_of_allBlank (allBlank_takeWhile (t := rest)) c (List.mem_of_mem_head? hc)
    simp [hb]
  have hl : HasLabel (blanks ++ digits ++ rest.takeWhile isBlank ++ u) blanks digits
      (rest.takeWhile isBlank ++ u) :=
    { h with text_eq := by simp, ends := hends }
  rw [Draft.field, hs, hl.split_eq]
  rfl

/-- The label of `end` goes to the first line in its place. -/
theorem field_endLines (a : Analysis) (previous : Option Shape) {t : Text}
    (ht : Statement.isEnd (statementOf t) = true) :
    (endLines a previous t).filterMap Draft.field = (Labelled.split t).label.toList := by
  rcases split_cases t with ⟨blanks, digits, rest, hl⟩ | hn
  · have hr : rest.takeWhile isBlank ≠ [] := by
      rw [statementOf, hl.split_eq] at ht
      cases rest with
      | nil => cases ht
      | cons c rest =>
        have hc : isBlank c = true := hl.head_field rfl
        simp [hc]
    have hfirst := field_columns hl hr
    have hbrace (n : Nat) : Draft.field { text := spaces n ++ "\x7d", shape := .other } = none :=
      field_unlabelled rfl (allBlank_spaces n) rfl
    simp only [endLines, hl.split_eq, Option.isSome_some, Bool.true_or, Bool.and_true, if_true]
    cases isFunctionUnit a with
    | false =>
      exact List.filterMap_cons_some (hfirst _ rfl)
    | true =>
      refine (List.filterMap_cons_some (hfirst _ rfl)).trans ?_
      exact congrArg (digits :: ·) (List.filterMap_cons_none (hbrace _))
  · have hnone (u : Text) (hu : startsSolid u = true) (shape : Shape) :
        Draft.field { text := t.indent ++ u, shape } = none :=
      field_unlabelled rfl (allBlank_indent t) hu
    simp only [endLines, hn, Option.isSome_none, Bool.false_or, Bool.false_eq_true, if_false]
    split
    · rw [List.append_assoc]
      refine (List.filterMap_cons_none (hnone _ rfl _)).trans ?_
      exact List.filterMap_cons_none (hnone _ rfl _)
    · exact List.filterMap_cons_none (hnone _ rfl _)

theorem label_returnResult (name t : Text) :
    (Labelled.split (returnResult name t)).label = (Labelled.split t).label := by
  simp only [returnResult]
  split
  · next before hb =>
    split
    · have he : t.trimEnd = before.reverse ++ "return" := by
        have := congrArg List.reverse (eq_of_after? hb)
        simpa using this
      have hd : Decides (before.reverse ++ "return") :=
        decides_of_mem (c := 'r') (by simp) (by decide) (by decide)
      refine label_congr hd ⟨" " ++ name, ?_⟩ (he ▸ trimEnd_lead t)
      simp
    · rfl
  · rfl

theorem externalNames?_unlabelled {t indent : Text} {names : List Text}
    (h : externalNames? t = some (indent, names)) :
    (Labelled.split t).label = none ∧ indent.allBlank = true := by
  simp only [externalNames?, Option.bind_eq_bind, Option.bind_eq_some_iff] at h
  obtain ⟨rest, hr, list, -, -, -, hi⟩ := h
  cases hi
  exact ⟨label_of_after? rfl hr, allBlank_takeWhile⟩

/-- After a label there is no statement function: the name would have to follow it. -/
theorem statementFunction?_unlabelled {a : Analysis} {t : Text} {f : StatementFunction}
    (hs : Statement.isAssignment (statementOf t) = true) (h : statementFunction? a t = some f) :
    (Labelled.split t).label = none := by
  rcases split_cases t with ⟨blanks, digits, rest, hl⟩ | hn
  · rw [statementOf, hl.split_eq] at hs
    simp only [statementFunction?, hl.word?, Option.bind_eq_bind, Option.bind_some,
      Option.bind_eq_some_iff, Option.guard_eq_some', Bool.and_eq_true] at h
    obtain ⟨-, ⟨⟨-, hparen⟩, -⟩, -⟩ := h
    have hout : StartsOutside isWord rest.trimStart := by
      obtain ⟨v, hv⟩ := Option.isSome_iff_exists.1 hparen
      rw [eq_of_after? hv]
      exact .cons (by decide)
    have hnone : rest.trim.word? = none := word?_of_outside (hout.of_lead (trimEnd_lead _))
    rw [Statement.isAssignment, hnone] at hs
    cases hs
  · rw [hn]

theorem field_fresh {drafts : List Draft} (h : ∀ d ∈ drafts, d.field = none) :
    (drafts.map Entry.fresh).filterMap Entry.field = [] := by
  rw [List.filterMap_map]
  exact List.filterMap_eq_nil_iff.2 h

theorem field_of_shape {l : Line} (h : Block.isMarker l.shape = false) :
    l.field = (Labelled.split l.text).label := by
  rw [Draft.field, h]
  rfl

/-- The labels among the lines in place of a statement: that of the statement, unless it is dropped. -/
theorem field_inferLine (a : Analysis) (previous : Option Shape) {l : Line}
    (h : l.toDraft.IsClassified) :
    (inferLine a previous l).2.filterMap Entry.field =
      (if drops (statementOf l.text) then none else l.field).toList := by
  have hkeep (d : Draft) : [Entry.kept d].filterMap Entry.field = d.field.toList := by
    cases hf : d.field <;> simp [Entry.field, Entry.contents, hf]
  have hshape {s : Shape} (hs : l.shape = s) (hm : Block.isMarker s = false) :
      Statement.shape (statementOf l.text) = s := (h.shape_eq (hs ▸ hm)).symm.trans hs
  have hfield {s : Shape} (hs : l.shape = s) (hm : Block.isMarker s = false) :
      l.field = (Labelled.split l.text).label := field_of_shape (hs ▸ hm)
  generalize hr : inferLine a previous l = r
  cases infers hr with
  | kept hk =>
    rw [hkeep]
    split
    · next hd =>
      cases hm : Block.isMarker l.shape with
      | true =>
        rw [Draft.field, hm]
        rfl
      | false =>
        rw [drops, hshape rfl hm] at hd
        rw [replaces] at hk
        split at hd <;> simp_all
    · rfl
  | opened hs =>
    rw [drops, hshape hs rfl]
    exact hkeep l.toDraft
  | closed hs =>
    have hend := field_endLines a previous (Statement.isEnd_of_shape (hshape hs rfl))
    rw [drops, hshape hs rfl, List.filterMap_map, hfield hs rfl]
    exact hend
  | declared hs hd =>
    obtain ⟨hl, hi⟩ := Declaration.parse?_unlabelled hd
    rw [drops, hshape hs rfl, hfield hs rfl, hl]
    exact field_fresh (Analysis.field_recordAll l.id hi _ _)
  | listed hs hn =>
    obtain ⟨hl, hi⟩ := externalNames?_unlabelled hn
    rw [drops, hshape hs rfl, hfield hs rfl, hl]
    refine List.filterMap_eq_nil_iff.2 fun e he => ?_
    obtain ⟨n, -, rfl⟩ := List.mem_map.1 he
    exact field_unlabelled (List.append_assoc _ _ _) hi rfl
  | dropped hs =>
    rcases hs with hs | hs <;> rw [drops, hshape hs rfl] <;> rfl
  | refused issue hs hk =>
    rcases hs with hs | hs
    · rw [drops, hshape hs rfl]
      rfl
    · simp only [replaces, hs] at hk
      simp only [drops, hshape hs rfl, hk]
      rfl
  | defined hs hf =>
    have hassign := Statement.isAssignment_of_shape (hshape hs rfl)
    rw [drops, hshape hs rfl, hfield hs rfl, statementFunction?_unlabelled hassign hf]
    rfl
  | returned hs =>
    rw [hkeep]
    rcases hs with hs | hs <;>
      simp only [drops, hshape hs rfl, Draft.field, hs, label_returnResult, Bool.false_eq_true, if_false]

/-- What stands in the place of a line is the line itself, or has another shape than a label. -/
theorem shape_inferLine (a : Analysis) (previous : Option Shape) (l : Line) :
    ∀ e ∈ (inferLine a previous l).2, e = .kept l.toDraft ∨ e.contents.shape ≠ .label := by
  generalize hr : inferLine a previous l = r
  intro e he
  cases infers hr with
  | kept | opened => exact .inl (List.mem_singleton.1 he)
  | closed =>
    obtain ⟨d, hd, rfl⟩ := List.mem_map.1 he
    exact .inr (endLines_plain a previous l.text d hd).1
  | declared =>
    obtain ⟨d, hd, rfl⟩ := List.mem_map.1 he
    exact .inr (by simp [Entry.contents, Analysis.shape_recordAll _ _ _ _ d hd])
  | listed =>
    obtain ⟨n, -, rfl⟩ := List.mem_map.1 he
    exact .inr (by simp [Entry.contents])
  | dropped => cases he
  | refused | defined =>
    rw [List.mem_singleton.1 he]
    exact .inr (by simp [commentOut, Entry.contents])
  | returned hs =>
    rw [List.mem_singleton.1 he]
    exact .inr (by rcases hs with hs | hs <;> simp [Entry.contents, hs])

end Inference

end FixedForm
