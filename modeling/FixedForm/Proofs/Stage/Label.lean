import FixedForm.Proofs.Inference.Label
import FixedForm.Proofs.Spelling.Capital
import FixedForm.Proofs.Stage.Heading
import FixedForm.Proofs.Stage.Numbering
import Mathlib.Data.List.Find

/-! Statement labels from the cards to the end of inference: which statements still have theirs. -/
namespace FixedForm
open Text

/-- The label of a statement as it is spelled, unless inference drops the statement. -/
def keptLabel (t : Text) : Option Text :=
  let spelled := (Spelling.normalize t).1
  if Inference.drops (statementOf spelled) then none else (Labelled.split spelled).label

/-- A statement that opens a unit. -/
def opensUnit (l : Line) : Bool :=
  l.shape == .other && (Statement.classify (Spelling.normalize l.text).1).1 == .header

/-- A label of the output is not among the lines that the shape `label` was read off. -/
def Draft.IsPlain (d : Draft) : Prop := d.shape = .label → Spelling.hasCapital d.text = false

theorem Buffer.map_map (f g : Draft → Draft) (b : Buffer) :
    ((b.map fun l => f l.toDraft).map fun l => g l.toDraft) = b.map fun l => g (f l.toDraft) := by
  simp [Buffer.map, Function.comp_def]

theorem text_classify (d : Draft) : d.classify.text = d.text := by
  rw [Draft.classify]
  split <;> rfl

theorem shape_classify {d : Draft} (h : d.shape = .other) :
    d.classify.shape = (Statement.classify d.text).1 := by
  rw [Draft.classify, if_neg (by simp [h])]

/-- A labelled line is classified as a statement. -/
theorem field_classify {d : Draft} (h : d.shape = .other) :
    d.classify.field = (Labelled.split d.text).label := by
  rw [Draft.field, shape_classify h, text_classify]
  rcases split_cases d.text with ⟨blanks, digits, rest, hl⟩ | hn
  · rw [Statement.classify_labelled hl, Block.isMarker_shape]
    rfl
  · rw [hn]
    exact ite_self _

theorem isClassified_classify (d : Draft) : d.classify.IsClassified := by
  rw [Draft.classify]
  split
  · next h => exact .inl (by simpa using h)
  · exact .inr rfl

/-- The contents of a line after spelling. -/
def Stage.spelled (d : Draft) : Draft :=
  if d.shape.isSilent then d else { d with text := (Spelling.normalize d.text).1 }

theorem Stage.edit_spell (a : Analysis) (b : Buffer) :
    (b.edit spell a).2 = b.map fun l => spelled l.toDraft := by
  refine Buffer.edit_eq_map (fun a l => ?_) a b
  rw [spell, spelled]
  split <;> rfl

namespace Inference

/-- The contents of a line after its constants are taken. -/
def withoutConstants (d : Draft) : Draft :=
  if d.shape != .parameter then d
  else
    match Constants.statement? d.text with
    | none => d
    | some (indent, _) => { d with text := indent ++ "// " ++ d.text.trim, shape := .comment }

theorem edit_collectConstants (a : Analysis) (b : Buffer) :
    (b.edit collectConstants a).2 = b.map fun l => withoutConstants l.toDraft := by
  refine Buffer.edit_eq_map (fun a l => ?_) a b
  rw [collectConstants, withoutConstants]
  split
  · rfl
  · cases Constants.statement? l.text <;> rfl

/-- The label that a statement has after inference. -/
def keptField (d : Draft) : Option Text := if drops (statementOf d.text) then none else d.field

theorem keptField_none {d : Draft} (h : d.field = none) : keptField d = none := by
  rw [keptField, h]
  exact ite_self _

/-- Lines as inference goes through them. -/
structure IsReady (d : Draft) : Prop where
  classified : d.IsClassified
  plain : d.IsPlain

theorem withoutConstants_spec {d : Draft} (h : IsReady d) :
    IsReady (withoutConstants d) ∧ keptField (withoutConstants d) = keptField d := by
  rw [withoutConstants]
  split
  · exact ⟨h, rfl⟩
  · next hs =>
    split
    · exact ⟨h, rfl⟩
    · next indent list hc =>
      simp only [Constants.statement?, Option.bind_eq_bind, Option.bind_eq_some_iff] at hc
      obtain ⟨rest, hrest, -⟩ := hc
      have hd : d.field = none := by
        rw [Draft.field, label_of_after? rfl hrest]
        exact ite_self _
      exact ⟨⟨.inl rfl, fun hl => by cases hl⟩, (keptField_none rfl).trans (keptField_none hd).symm⟩

end Inference

open Inference (IsReady keptField drops withoutConstants)

theorem isLabelLine_of_classify {t : Text} (h : (Statement.classify t).1 = .label) :
    Statement.isLabelLine t.trim = true := by
  revert h
  fun_cases Statement.classify t
  case case1 | case2 =>
    intro h
    cases h
  case case3 hl =>
    exact fun _ => hl
  case case4 line =>
    intro (h : Statement.shape line.statement = .label)
    have hm := Block.isMarker_shape line.statement
    rw [h] at hm
    cases hm

/-- What is read from a card, spelled and classified. -/
theorem Stage.spelled_spec {l : Line} (h : Card.IsRead l) :
    IsReady (spelled l.toDraft).classify ∧
      keptField (spelled l.toDraft).classify = (if l.shape == .other then keptLabel l.text else none) ∧
      ((spelled l.toDraft).classify.shape == .header) = opensUnit l := by
  rcases h with h | ⟨h, ht⟩ | h
  · have hd : (spelled l.toDraft).classify = l.toDraft := by
      simp [spelled, Draft.classify, h, Shape.isSilent]
    rw [hd, opensUnit, h]
    exact ⟨⟨.inl h, fun hl => by simp [h] at hl⟩,
      Inference.keptField_none (by simp [Draft.field, h, Block.isMarker]), rfl⟩
  · have hd : (spelled l.toDraft).classify.shape = .blank := by
      simp [spelled, h, ht, Shape.isSilent, Draft.classify, Statement.classify, allBlank]
    rw [hd, opensUnit, h]
    exact ⟨⟨isClassified_classify _, fun hl => by simp [hd] at hl⟩,
      Inference.keptField_none (by simp [Draft.field, hd, Block.isMarker]), rfl⟩
  · have hshape : (spelled l.toDraft).shape = .other := by
      simp [spelled, h, Shape.isSilent]
    have htext : (spelled l.toDraft).text = (Spelling.normalize l.text).1 := by
      simp [spelled, h, Shape.isSilent]
    refine ⟨⟨isClassified_classify _, fun hl => ?_⟩, ?_, ?_⟩
    · rw [shape_classify hshape, htext] at hl
      rw [text_classify, htext]
      exact Spelling.hasCapital_of_isLabelLine (isLabelLine_of_classify hl)
    · rw [h, keptField, keptLabel, field_classify hshape, text_classify, htext]
      rfl
    · rw [shape_classify hshape, htext, opensUnit, h]
      rfl

namespace Inference

theorem countP_field (k : Text) (es : List Entry) :
    es.countP (fun e => e.field == some k) = (es.filterMap Entry.field).count k := by
  rw [List.count, List.countP_filterMap]
  congr 1
  funext e
  cases e.field <;> simp

/-- The lines that `inferLine` puts in the place of a line, the first line of the unit apart, have
the label that the line keeps. -/
theorem countP_inferLine (a : Analysis) (previous : Option Shape) {anchor : Option Nat} {l : Line}
    (hl : l.toDraft.IsClassified) (hhead : anchor = some l.id → l.shape = .header) {next : Nat}
    (hn : ∀ i, anchor = some i → i < next) (k : Text) :
    (Buffer.place l next (inferLine a previous l).2).1.countP
        (fun m => m.field == some k && anchor != some m.id) =
      [l].countP fun l => keptField l.toDraft == some k && anchor != some l.id := by
  by_cases hi : anchor = some l.id
  · have hkeep : (inferLine a previous l).2 = [.kept l.toDraft] := by
      simp only [inferLine, hhead hi]
    simp [hkeep, Buffer.place, hi]
  · have hfresh (d : Draft) (i : Nat) (hle : next ≤ i) :
        (d.field == some k && anchor != some i) = (d.field == some k) := by
      have hne : anchor ≠ some i := fun he => absurd (hn i he) (Nat.not_lt.2 hle)
      simp [hne]
    calc _ = (inferLine a previous l).2.countP fun e => e.field == some k := by
          rw [Buffer.countP_place hfresh]
          congr 1
          funext e
          cases e <;> simp [hi, Entry.field, Entry.contents]
      _ = (keptField l.toDraft).toList.count k := by rw [countP_field, field_inferLine a previous hl]; rfl
      _ = _ := by cases hf : keptField l.toDraft <;> simp [hf, hi, List.count_cons]

theorem anchor?_inferLine (a : Analysis) (previous : Option Shape) {l : Line}
    (hl : l.toDraft.IsClassified) : (inferLine a previous l).1.anchor? =
      a.anchor?.or (if l.shape == .header then some l.id else none) := by
  by_cases hs : l.shape = .header
  · have hshape : Statement.shape (statementOf l.text) = .header :=
      (hl.shape_eq (by rw [hs]; rfl)).symm.trans hs
    simp only [inferLine, hs]
    exact anchor?_openUnit a (Statement.header_of_shape hshape)
  · rw [Analysis.anchor?_congr (heading_inferLine a previous hs)]
    simp [hs]

/-- The first header among the lines. -/
def firstHeader (lines : List Line) : Option Nat := (lines.find? (·.shape == .header)).map (·.id)

theorem anchor?_editFrom (s : Analysis × Option Shape) (n : Nat) {lines : List Line}
    (hl : ∀ l ∈ lines, l.toDraft.IsClassified) : (Buffer.editFrom step s n lines).1.1.anchor? =
      s.1.anchor?.or (firstHeader lines) := by
  induction lines generalizing s n with
  | nil => simp [Buffer.editFrom, firstHeader]
  | cons l lines ih =>
    have hstep : (step s l).1.1.anchor? = _ := anchor?_inferLine s.1 s.2 (hl l (by simp))
    have hrest := ih (step s l).1 (Buffer.place l n (step s l).2).2 fun m hm => hl m (by simp [hm])
    refine hrest.trans ?_
    rw [hstep, Option.or_assoc, firstHeader, firstHeader, List.find?_cons]
    cases l.shape == .header <;> simp

theorem anchored_firstHeader {b : Buffer} (hb : b.Numbered) :
    b.Anchored (fun d => d.shape = .header) (firstHeader b.lines) := by
  have hanchor (i : Nat) (hi : firstHeader b.lines = some i) :
      ∃ l ∈ b.lines, l.shape = .header ∧ l.id = i := by
    obtain ⟨l, hl, rfl⟩ := Option.map_eq_some_iff.1 hi
    have hs := List.find?_some hl
    exact ⟨l, List.mem_of_find?_eq_some hl, by simpa using hs, rfl⟩
  constructor
  · intro l hl hi
    obtain ⟨m, hm, hshape, he⟩ := hanchor l.id hi
    rw [hb.eq_of_id hl hm he.symm]
    exact hshape
  · intro i hi
    obtain ⟨m, hm, -, rfl⟩ := hanchor i hi
    exact hb.below m hm

theorem header_edit {anchor : Option Nat} {b : Buffer} (s : Analysis × Option Shape)
    (h : b.Anchored (fun d => d.shape = .header) anchor) :
    (b.edit step s).2.Anchored (fun d => d.shape = .header) anchor := by
  refine h.edit (fun s l d hl hd => ?_) s
  simp only [step, inferLine, show l.shape = .header from hl, List.mem_singleton] at hd
  cases hd
  exact hl

section Step
variable {anchor : Option Nat} {b : Buffer} (s : Analysis × Option Shape)
  (hready : ∀ l ∈ b.lines, IsReady l.toDraft)
include hready

theorem countP_edit (h : b.Anchored (fun d => d.shape = .header) anchor) (k : Text) :
    (b.edit step s).2.lines.countP (fun l => l.field == some k && anchor != some l.id) =
      b.lines.countP fun l => keptField l.toDraft == some k && anchor != some l.id :=
  Buffer.countP_editFrom (P := fun _ => True) trivial fun s _ l hl => ⟨trivial, fun _ hn =>
    countP_inferLine s.1 s.2 (hready l hl).classified (h.holds l hl)
      (fun i hi => Nat.lt_of_lt_of_le (h.below i hi) hn) k⟩

theorem isPlain_edit : ∀ l ∈ (b.edit step s).2.lines, l.toDraft.IsPlain :=
  Buffer.forall_mem_editFrom (P := fun _ => True) trivial fun s _ l hl => ⟨trivial, fun _ _ m hm => by
    have hentry (e : Entry) (he : e ∈ (inferLine s.1 s.2 l).2) : e.contents.IsPlain := by
      rcases shape_inferLine s.1 s.2 l e he with rfl | hs
      · exact (hready l hl).plain
      · exact fun h => absurd h hs
    obtain ⟨-, ⟨hd, -⟩ | ⟨hd, -⟩⟩ := Buffer.mem_place hm
    · exact hentry _ hd
    · exact hentry _ hd⟩

end Step

theorem label_header (p : Procedure) : (Labelled.split p.header).label = none := by
  have hresult : startsSolid p.result = true := by
    rw [Procedure.result]
    split
    · exact startsSolid_targetType _
    · rfl
  have hsolid : startsSolid p.header = true := by
    simp only [Procedure.header, List.append_assoc]
    exact startsSolid_append hresult _
  exact label_none (g := []) rfl hsolid

/-- The lines behind the header have no label, and are none. -/
theorem openingLines_spec (p : Procedure) :
    ∀ d ∈ openingLines p, d.field = none ∧ d.shape ≠ .label := by
  have hindent : bodyIndent.allBlank = true := by decide
  intro d hd
  rcases List.mem_cons.1 hd with rfl | hd
  · exact ⟨field_unlabelled rfl hindent rfl, by simp⟩
  · split at hd
    · cases hd
    · rw [List.mem_singleton.1 hd]
      refine ⟨field_unlabelled (by simp only [List.append_assoc]; rfl) hindent ?_, by simp⟩
      exact startsSolid_append (startsSolid_targetType _) _

theorem writeHeader_spec (p : Procedure) (b : Buffer) :
    ∃ extra : List Line, (writeHeader p b).lines.Perm
        ((b.modify p.anchor fun d => { d with text := p.header }).lines ++ extra) ∧
      (∀ m ∈ extra, m.toDraft ∈ openingLines p ∧ b.nextId ≤ m.id) ∧
      b.nextId ≤ (writeHeader p b).nextId := by
  refine ⟨_, Buffer.insertAfter_perm (unitLine p) _ _, fun m hm => ?_, Nat.le_add_right _ _⟩
  obtain ⟨hd, -, hi, -⟩ := Buffer.mem_added hm
  exact ⟨hd, hi⟩

theorem countP_writeHeader (p : Procedure) (b : Buffer) (k : Text) :
    (writeHeader p b).lines.countP (fun l => l.field == some k) =
      b.lines.countP fun l => l.field == some k && some p.anchor != some l.id := by
  obtain ⟨extra, hperm, hextra, -⟩ := writeHeader_spec p b
  have hnone : extra.countP (fun l => l.field == some k) = 0 := by
    refine List.countP_eq_zero.2 fun m hm => ?_
    simp [(openingLines_spec p _ (hextra m hm).1).1]
  rw [hperm.countP_eq, List.countP_append, hnone, Nat.add_zero, Buffer.modify, Buffer.map,
    List.countP_map]
  refine List.countP_congr fun l _ => ?_
  by_cases hi : l.id = p.anchor
  · simp [Draft.field, hi, label_header]
  · simp [hi, Ne.symm hi]

/-- Behind inference: the first line of the unit is a header without a label, and no line is a label
of the output yet. -/
structure Settled (anchor : Option Nat) (b : Buffer) : Prop where
  anchored : b.Anchored (fun d => d.shape = .header ∧ d.field = none) anchor
  plain : ∀ l ∈ b.lines, l.toDraft.IsPlain

theorem settled_writeHeader {p : Procedure} {b : Buffer}
    (h : b.Anchored (fun d => d.shape = .header) (some p.anchor))
    (hplain : ∀ l ∈ b.lines, l.toDraft.IsPlain) : Settled (some p.anchor) (writeHeader p b) := by
  obtain ⟨extra, hperm, hextra, hnext⟩ := writeHeader_spec p b
  have hmem {l : Line} (hl : l ∈ (writeHeader p b).lines) :
      (∃ m ∈ b.lines, l = { (if m.id == p.anchor then { m.toDraft with text := p.header } else m.toDraft)
        with id := m.id, origin := m.origin }) ∨ l ∈ extra := by
    rcases List.mem_append.1 (hperm.mem_iff.1 hl) with hl | hl
    · obtain ⟨m, hm, rfl⟩ := List.mem_map.1 hl
      exact .inl ⟨m, hm, rfl⟩
    · exact .inr hl
  refine ⟨⟨fun l hl hi => ?_, fun i hi => ?_⟩, fun l hl => ?_⟩
  · rcases hmem hl with ⟨m, hm, rfl⟩ | hl
    · have hs := h.holds m hm hi
      have hid : p.anchor = m.id := Option.some.inj hi
      simp [hid, hs, Draft.field, label_header]
    · have hle := (hextra l hl).2
      have hlt := h.below l.id hi
      omega
  · exact Nat.lt_of_lt_of_le (h.below i hi) hnext
  · rcases hmem hl with ⟨m, hm, rfl⟩ | hl
    · split
      · next hid =>
        have hs := h.holds m hm (by simpa using (eq_of_beq hid).symm)
        intro hl
        simp [hs] at hl
      · exact hplain m hm
    · exact fun hs => absurd hs (openingLines_spec p _ (hextra l hl).1).2

theorem settled_finishUnit {a : Analysis} {b : Buffer}
    (h : b.Anchored (fun d => d.shape = .header) a.anchor?)
    (hplain : ∀ l ∈ b.lines, l.toDraft.IsPlain) : Settled a.anchor? (finishUnit a b).2 := by
  cases hp : a.procedure with
  | none =>
    have ha : a.anchor? = none := by simp [Analysis.anchor?, hp]
    rw [finishUnit_none hp]
    exact ⟨⟨fun l _ hi => by simp [ha] at hi, h.below⟩, hplain⟩
  | some p =>
    have ha : a.anchor? = some (settle a p).2.anchor := by
      simp [Analysis.anchor?, hp, anchor_settle a p]
    rw [ha] at h ⊢
    rw [finishUnit_some hp]
    exact settled_writeHeader h hplain

/-- The end of the stage changes the text of the header and adds the lines behind it. -/
theorem cases_of_mem_finishUnit {a : Analysis} {b : Buffer} {m : Line} (h : m ∈ (finishUnit a b).2.lines) :
    (∃ l ∈ b.lines, m = l ∨ a.anchor? = some m.id ∧ m = { l with text := m.text }) ∨
      ∃ p, m.toDraft ∈ openingLines p := by
  cases hp : a.procedure with
  | none =>
    rw [finishUnit_none hp] at h
    exact .inl ⟨m, h, .inl rfl⟩
  | some p =>
    rw [finishUnit_some hp] at h
    obtain ⟨extra, hperm, hextra, -⟩ := writeHeader_spec (settle a p).2 b
    rcases List.mem_append.1 (hperm.mem_iff.1 h) with hm | hm
    · obtain ⟨l, hl, rfl⟩ := List.mem_map.1 hm
      refine .inl ⟨l, hl, ?_⟩
      by_cases hi : l.id = (settle a p).2.anchor
      · right
        rw [anchor_settle a p] at hi
        simp [Analysis.anchor?, hp, hi, anchor_settle a p]
      · left
        simp [hi]
    · exact .inr ⟨_, (hextra m hm).1⟩

theorem countP_finishUnit (a : Analysis) (b : Buffer) (k : Text) :
    (finishUnit a b).2.lines.countP (fun l => l.field == some k) =
      b.lines.countP fun l => l.field == some k && a.anchor? != some l.id := by
  cases hp : a.procedure with
  | none =>
    rw [finishUnit_none hp]
    exact List.countP_congr fun l _ => by simp [Analysis.anchor?, hp]
  | some p =>
    rw [finishUnit_some hp, countP_writeHeader, anchor_settle a p]
    simp [Analysis.anchor?, hp]

/-- The lines after their constants are taken. -/
theorem ready_collectConstants (a : Analysis) {b : Buffer}
    (hready : ∀ l ∈ b.lines, IsReady l.toDraft) :
    ∀ l ∈ (b.edit collectConstants a).2.lines, IsReady l.toDraft := by
  rw [edit_collectConstants]
  intro l hl
  obtain ⟨m, hm, rfl⟩ := List.mem_map.1 hl
  exact (withoutConstants_spec (hready m hm)).1

theorem countP_collectConstants (a : Analysis) {b : Buffer}
    (hready : ∀ l ∈ b.lines, IsReady l.toDraft) (anchor : Option Nat) (k : Text) :
    (b.edit collectConstants a).2.lines.countP
        (fun l => keptField l.toDraft == some k && anchor != some l.id) =
      b.lines.countP fun l => keptField l.toDraft == some k && anchor != some l.id := by
  rw [edit_collectConstants, Buffer.map, List.countP_map]
  refine List.countP_congr fun l hl => ?_
  simp [(withoutConstants_spec (hready l hl)).2]

theorem firstHeader_collectConstants (a : Analysis) (b : Buffer) :
    firstHeader (b.edit collectConstants a).2.lines = firstHeader b.lines := by
  have hshape (d : Draft) : ((withoutConstants d).shape == .header) = (d.shape == .header) := by
    rw [withoutConstants]
    split
    · rfl
    · next hs =>
      split
      · rfl
      · have hp : d.shape = .parameter := by simpa using hs
        simp [hp]
  rw [edit_collectConstants, firstHeader, Buffer.map, List.find?_map, Option.map_map]
  simp only [Function.comp_def, hshape]
  rfl

/-- The whole stage: the labels that are left are those of the statements that are not dropped, the
header apart. -/
theorem run_labels {a : Analysis} (ha : a.anchor? = none) {b : Buffer} (hb : b.Numbered)
    (hready : ∀ l ∈ b.lines, IsReady l.toDraft) :
    (run a b).1.anchor? = firstHeader b.lines ∧ Settled (firstHeader b.lines) (run a b).2 ∧
      ∀ k, (run a b).2.lines.countP (fun l => l.field == some k) = b.lines.countP fun l =>
        keptField l.toDraft == some k && firstHeader b.lines != some l.id := by
  have ha₁ : (b.edit collectConstants a).1.anchor? = none :=
    (Analysis.anchor?_congr (Buffer.edit_view Analysis.heading heading_collectConstants a b)).trans ha
  have hready₁ := ready_collectConstants a hready
  have hcount₁ := countP_collectConstants a hready
  have hfirst := firstHeader_collectConstants a b
  have hanchor := anchored_firstHeader (hb.edit kept_collectConstants a)
  simp only [run]
  generalize b.edit collectConstants a = e at ha₁ hready₁ hcount₁ hfirst hanchor ⊢
  rw [hfirst] at hanchor
  have hplain := isPlain_edit (e.1, none) hready₁
  have hcount := countP_edit (e.1, none) hready₁ hanchor
  have hheader := header_edit (e.1, none) hanchor
  have hopened : (e.2.edit step (e.1, none)).1.1.anchor? = firstHeader b.lines := by
    refine (anchor?_editFrom (e.1, none) e.2.nextId fun l hl => (hready₁ l hl).classified).trans ?_
    rw [hfirst]
    exact ha₁ ▸ Option.none_or
  generalize e.2.edit step (e.1, none) = e' at hplain hcount hheader hopened ⊢
  have hnames : (reportUndeclared e'.1.1 e'.2.lines).anchor? = firstHeader b.lines :=
    (Analysis.anchor?_congr (heading_reportUndeclared _ _)).trans hopened
  generalize reportUndeclared e'.1.1 e'.2.lines = a' at hnames ⊢
  rw [← hnames] at hheader hcount ⊢
  refine ⟨?_, settled_finishUnit hheader hplain, fun k => ?_⟩
  · exact Analysis.anchor?_congr ((Analysis.heading_reportAll _ _ _).trans (heading_finishUnit _ _))
  · rw [countP_finishUnit, hcount, hcount₁]

end Inference

/-- The lines that inference starts with. -/
def Card.classified (source : Text) : Buffer :=
  (Card.read source).map fun l => (Stage.spelled l.toDraft).classify

namespace Card
variable (source : Text)

theorem ready_classified : ∀ l ∈ (classified source).lines, IsReady l.toDraft := by
  intro l hl
  obtain ⟨m, hm, rfl⟩ := List.mem_map.1 hl
  exact (Stage.spelled_spec (isRead_read hm)).1

/-- The line that opens the unit. -/
def opening? : Option Nat := ((read source).lines.find? opensUnit).map (·.id)

theorem firstHeader_classified :
    Inference.firstHeader (classified source).lines = opening? source := by
  have hfind : ((read source).lines.find? fun l =>
      (Stage.spelled l.toDraft).classify.shape == .header) = (read source).lines.find? opensUnit :=
    List.find?_congr fun l hl => (Stage.spelled_spec (isRead_read hl)).2.2
  rw [classified, Inference.firstHeader, Buffer.map, List.find?_map, Option.map_map, opening?, ← hfind]
  rfl

theorem countP_classified (anchor : Option Nat) (k : Text) :
    (classified source).lines.countP (fun l => keptField l.toDraft == some k && anchor != some l.id) =
      (read source).lines.countP fun l =>
        l.shape == .other && keptLabel l.text == some k && anchor != some l.id := by
  rw [classified, Buffer.map, List.countP_map]
  refine List.countP_congr fun l hl => ?_
  have hkept := (Stage.spelled_spec (isRead_read hl)).2.1
  cases hs : l.shape == .other <;> simp [hkept, hs]

end Card

theorem Stage.analysis_apply (stage : Stage) (p : Progress) :
    (stage.apply p).analysis = (stage.run p.analysis p.buffer).1 := rfl

theorem Stage.buffer_apply (stage : Stage) (p : Progress) :
    (stage.apply p).buffer = (stage.run p.analysis p.buffer).2 := rfl

theorem Progress.runAll_inference (options : Options) (source : Text) :
    let r := Inference.run ((Card.read source).edit Stage.spell { options }).1 (Card.classified source)
    let p := (Progress.start options (Card.read source)).runAll [.spelling, .shapes, .inference]
    p.analysis = r.1 ∧ p.buffer = r.2 := by
  have hclassified : (((Card.read source).edit Stage.spell { options }).2.map
      fun l => l.toDraft.classify) = Card.classified source := by
    rw [Stage.edit_spell, Buffer.map_map Stage.spelled]
    rfl
  simp only [Progress.start, Progress.runAll, List.foldl_cons, List.foldl_nil,
    Stage.analysis_apply, Stage.buffer_apply, Stage.run, hclassified, and_self]

/-- A line as inference comes to it. -/
def Line.prepared (l : Line) : Line :=
  { Inference.withoutConstants (Stage.spelled l.toDraft).classify with id := l.id, origin := l.origin }

namespace Inference

/-- What is known of a unit before any statement but the PARAMETER ones is read. -/
def opening (options : Options) (source : Text) : Analysis :=
  ((Card.classified source).edit collectConstants ((Card.read source).edit Stage.spell { options }).1).1

/-- What is known of a unit when inference comes to the line behind `before`. -/
def known (options : Options) (source : Text) (before : List Line) : Analysis × Option Shape :=
  (before.map Line.prepared).foldl (fun s l => (step s l).1) (opening options source, none)

theorem lines_collectConstants (options : Options) (source : Text) :
    ((Card.classified source).edit collectConstants
      ((Card.read source).edit Stage.spell { options }).1).2.lines =
        (Card.read source).lines.map Line.prepared := by
  rw [edit_collectConstants, Card.classified, Buffer.map, Buffer.map, List.map_map]
  rfl

end Inference

/-- Behind inference the first header is the first line of the unit, and all other statements have
their labels, unless they are dropped. -/
theorem Progress.inference_labels (options : Options) (source : Text) :
    let p := (Progress.start options (Card.read source)).runAll [.spelling, .shapes, .inference]
    p.analysis.anchor? = Card.opening? source ∧
      Inference.Settled (Card.opening? source) p.buffer ∧
      ∀ k, p.buffer.lines.countP (fun l => l.field == some k) = (Card.read source).lines.countP
        fun l => l.shape == .other && keptLabel l.text == some k &&
          Card.opening? source != some l.id := by
  have hspell : ((Card.read source).edit Stage.spell { options }).1.anchor? = none := by
    refine Analysis.anchor?_congr (Buffer.edit_view Analysis.heading (fun a l => ?_) { options } _)
    rw [Stage.spell]
    split
    · rfl
    · exact a.heading_reportAll _ _
  have hlabels := Inference.run_labels hspell (b := Card.classified source)
    ((Card.numbered_read source).map _) (Card.ready_classified source)
  obtain ⟨ha, hb⟩ := Progress.runAll_inference options source
  rw [← ha, ← hb] at hlabels
  simp only [Card.firstHeader_classified, Card.countP_classified] at hlabels
  exact hlabels

end FixedForm
