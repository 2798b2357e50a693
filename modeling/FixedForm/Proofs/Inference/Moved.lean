import FixedForm.Proofs.Inference.Facts
import FixedForm.Proofs.Line.Without
import FixedForm.Proofs.Stage.Label

/-! Where a PARAMETER statement stands.  Its values are known before any declaration is read, and from then
on it is a comment, so inference settles the same wherever it stands. -/
namespace FixedForm

/-- Values of more constants. -/
def Analysis.learn (a : Analysis) (es : List (Text × Text)) : Analysis :=
  { a with constants := a.constants.putAll es }

namespace Constants
open Text

/-- A whole statement without a label: blanks at most stand before its word and around the parentheses,
which are closed.  A list that goes beyond the end of a line counts as open. -/
structure IsClosed (list t : Text) : Prop where
  written : ∃ indent gap tail : Text, indent.allBlank = true ∧ gap.allBlank = true ∧ tail.allBlank = true ∧
    t = indent ++ "parameter" ++ gap ++ "(" ++ list ++ ")" ++ tail
  oneLine : list.hasLineEnd = false

theorem IsClosed.statement? {list t : Text} (h : IsClosed list t) :
    Constants.statement? t = some (t.takeWhile isBlank, list) := by
  obtain ⟨⟨indent, gap, tail, hindent, hgap, htail, ht⟩, hline⟩ := h
  have hopen : StartsOutside isBlank ("(" ++ list ++ ")" ++ tail) := .cons (by decide)
  have hlead : trimStart t = "parameter" ++ (gap ++ ("(" ++ list ++ ")" ++ tail)) := by
    simp only [ht, List.append_assoc]
    exact trimStart_run hindent (.cons (by decide))
  have hbody : trim (gap ++ ("(" ++ list ++ ")" ++ tail)) = "(" ++ list ++ ")" := by
    rw [trim_blanks hgap, trim, trimStart_of_outside hopen, trimEnd_blanks htail]
    exact trimEnd_of_last (by decide)
  have hinner : between? '(' ')' ("(" ++ list ++ ")") = some list := by simp [between?]
  rw [Constants.statement?, hlead, after?_append]
  simp only [Option.bind_eq_bind, Option.bind_some, hbody, hinner, hline]
  rfl

end Constants

namespace Inference
open Analysis
variable {a a' : Analysis} {i : Nat}

/-- What a line says about constants. -/
def constantsOf (l : Line) : List (Text × Text) :=
  if l.shape = .parameter then ((Constants.statement? l.text).map fun s => Constants.parse s.2).getD []
  else []

theorem facts_collectConstants (a : Analysis) (l : Line) :
    (collectConstants a l).1.facts = (a.learn (constantsOf l)).facts := by
  rw [collectConstants, constantsOf]
  by_cases hs : l.shape = .parameter
  · rw [if_neg (by simp [hs]), if_pos hs]
    cases Constants.statement? l.text <;> rfl
  · rw [if_pos (by simpa using hs), if_neg hs]
    rfl

theorem facts_learn (h : a.facts = a'.facts) (es : List (Text × Text)) :
    (a.learn es).facts = (a'.learn es).facts := by
  obtain ⟨hsymbols, hprocedure, hexternals, hvalue⟩ := Facts.mk.inj h
  simp only [facts, learn, hsymbols, hprocedure, hexternals, Assoc.get?_putAll_congr hvalue]

theorem learn_append (a : Analysis) (es es' : List (Text × Text)) :
    a.learn (es ++ es') = (a.learn es).learn es' := by
  simp only [learn, Assoc.putAll, List.foldl_append]

/-- All constants are known before the first step. -/
theorem facts_edit_collectConstants (a : Analysis) (b : Buffer) :
    (b.edit collectConstants a).1.facts = (a.learn (b.lines.flatMap constantsOf)).facts := by
  have hfrom (a : Analysis) (n : Nat) (lines : List Line) :
      (Buffer.editFrom collectConstants a n lines).1.facts = (a.learn (lines.flatMap constantsOf)).facts := by
    induction lines generalizing a n with
    | nil => rfl
    | cons l lines ih =>
      rw [List.flatMap_cons, learn_append]
      exact (ih _ _).trans (facts_learn (facts_collectConstants a l) _)
  exact hfrom a b.nextId b.lines

/-- Constants of names that come nowhere else may be known first. -/
theorem facts_learn_moved (a : Analysis) {before es : List (Text × Text)} (after : List (Text × Text))
    (h : ∀ n ∈ before.map Prod.fst, n ∉ es.map Prod.fst) :
    (a.learn (before ++ (es ++ after))).facts = (a.learn (es ++ (before ++ after))).facts := by
  simp only [learn_append]
  refine facts_learn ?_ after
  simp only [facts, learn, Assoc.get?_putAll_comm _ h]

/-- The stage after the constants are collected. -/
def conclude (a : Analysis) (b : Buffer) : Analysis × Buffer :=
  let e := b.edit step (a, none)
  let r := finishUnit (reportUndeclared e.1.1 e.2.lines) e.2
  (reportUntyped r.1, r.2)

theorem conclude_congr (h : a.facts = a'.facts) (b : Buffer) :
    (conclude a b).2 = (conclude a' b).2 ∧ (conclude a b).1.facts = (conclude a' b).1.facts := by
  have hstart : seen (a, none) = seen (a', none) := congrArg (fun f => (f, none)) h
  obtain ⟨hbuffer, hlast⟩ := Buffer.edit_congr seen step_congr hstart b
  have hfacts : (b.edit step (a, none)).1.1.facts = (b.edit step (a', none)).1.1.facts :=
    congrArg Prod.fst hlast
  simp only [conclude, hbuffer]
  generalize b.edit step (a, none) = e at hfacts ⊢
  generalize b.edit step (a', none) = e' at hfacts ⊢
  have hreported : (reportUndeclared e.1.1 e'.2.lines).facts = (reportUndeclared e'.1.1 e'.2.lines).facts := by
    rw [quiet_facts.reportUndeclared, quiet_facts.reportUndeclared, hfacts]
  obtain ⟨hlines, hfinish⟩ := finishUnit_congr hreported e'.2
  refine ⟨hlines, ?_⟩
  rw [reportUntyped, reportUntyped, quiet_facts.reportAll, quiet_facts.reportAll, hfinish]

theorem writeHeader_without {p : Procedure} (hp : p.anchor ≠ i) {b : Buffer} (hi : i < b.nextId) :
    writeHeader p (b.without i) = (writeHeader p b).without i := by
  have hne : (unitLine p).id ≠ i := hp
  rw [writeHeader, Buffer.modify_without]
  refine Buffer.insertAfter_without ?_ hne _
  exact hi

theorem finishUnit_without (ha : a.anchor? ≠ some i) {b : Buffer} (hi : i < b.nextId) :
    finishUnit a (b.without i) = ((finishUnit a b).1, (finishUnit a b).2.without i) := by
  cases hp : a.procedure with
  | none => rw [finishUnit_none hp, finishUnit_none hp]
  | some p =>
    have hanchor : (settle a p).2.anchor ≠ i := by
      rw [anchor_settle]
      simpa [anchor?, hp] using ha
    rw [finishUnit_some hp, finishUnit_some hp, writeHeader_without hanchor hi]

/-- Comments are passed over. -/
theorem step_comment {l : Line} (h : l.shape = .comment) (s : Analysis × Option Shape) :
    step s l = (s, [.kept l.toDraft]) := by
  simp [step, inferLine, h, Shape.isSilent]

theorem anchor?_openUnit_ne {l : Line} (hl : l.id ≠ i) (ha : a.anchor? ≠ some i) :
    (openUnit a l).anchor? ≠ some i := by
  cases hh : (Header.parse? (statementOf l.text)).isSome with
  | false =>
    rw [openUnit, Option.isSome_eq_false_iff, Option.isNone_iff_eq_none] at *
    simpa only [hh] using ha
  | true =>
    rw [anchor?_openUnit a hh]
    cases ha' : a.anchor? with
    | none => simpa using hl
    | some k => simpa [ha'] using ha

/-- The unit is not anchored at a comment. -/
theorem anchor?_edit_ne {b : Buffer} (ha : a.anchor? ≠ some i)
    (hb : ∀ l ∈ b.lines, l.id = i → l.shape = .comment) : (b.edit step (a, none)).1.1.anchor? ≠ some i := by
  refine Buffer.editFrom_state (P := fun s : Analysis × Option Shape => s.1.anchor? ≠ some i) b.nextId ha
    fun s hs l hl => ?_
  by_cases hh : l.shape = .header
  · have hid : l.id ≠ i := fun hid => by simp [hb l hl hid] at hh
    rw [step_header s hh]
    exact anchor?_openUnit_ne hid hs
  · have hkept := anchor?_congr (heading_inferLine s.1 s.2 hh)
    simp only [step, hkept]
    exact hs

/-- A comment changes nothing of what is settled, nor of the other lines. -/
theorem conclude_without {b : Buffer} (ha : a.anchor? ≠ some i) (hi : i < b.nextId)
    (hb : ∀ l ∈ b.lines, l.id = i → l.shape = .comment) :
    (conclude a (b.without i)).2 = (conclude a b).2.without i ∧
      (conclude a (b.without i)).1.facts = (conclude a b).1.facts := by
  have hsteps := Buffer.edit_without hi
    (fun s l hl hid => ⟨l.toDraft, step_comment (hb l hl hid) s⟩) ((a, none) : Analysis × Option Shape)
  have hanchor := anchor?_edit_ne ha hb
  have hnext : i < (b.edit step (a, none)).2.nextId :=
    Nat.lt_of_lt_of_le hi (Buffer.le_editFrom (a, none) b.nextId b.lines)
  simp only [conclude, hsteps]
  generalize b.edit step (a, none) = e at hanchor hnext ⊢
  have hreported (lines : List Line) : (reportUndeclared e.1.1 lines).anchor? ≠ some i := by
    rwa [anchor?_congr (heading_reportUndeclared e.1.1 lines)]
  have hquiet : (reportUndeclared e.1.1 (e.2.without i).lines).facts =
      (reportUndeclared e.1.1 e.2.lines).facts := by
    rw [quiet_facts.reportUndeclared, quiet_facts.reportUndeclared]
  obtain ⟨hlines, hfacts⟩ := finishUnit_congr hquiet (e.2.without i)
  rw [finishUnit_without (hreported e.2.lines) hnext] at hlines hfacts
  refine ⟨hlines, ?_⟩
  rw [reportUntyped, reportUntyped, quiet_facts.reportAll, quiet_facts.reportAll, hfacts]

theorem withoutConstants_closed {m : Line} {list : Text} (hm : m.shape = .parameter)
    (hclosed : Constants.IsClosed list m.text) : (withoutConstants m.toDraft).shape = .comment := by
  rw [withoutConstants, if_neg (by simp [hm]), hclosed.statement?]

section Moved
variable {m : Line} {list : Text} {before after : List Line} {next : Nat} (hm : m.shape = .parameter)
  (hclosed : Constants.IsClosed list m.text)
  (hnames : ∀ l ∈ before ++ after, ∀ n ∈ (constantsOf l).map Prod.fst,
    n ∉ (Constants.parse list).map Prod.fst)
include hm hclosed

theorem constantsOf_closed : constantsOf m = Constants.parse list := by
  rw [constantsOf, if_pos hm, hclosed.statement?]
  rfl

include hnames

/-- The constants of the statement may be known first. -/
theorem facts_collect_moved (a : Analysis) :
    (Buffer.edit collectConstants a ⟨before ++ m :: after, next⟩).1.facts =
      (Buffer.edit collectConstants (a.learn (Constants.parse list)) ⟨before ++ after, next⟩).1.facts := by
  rw [facts_edit_collectConstants, facts_edit_collectConstants, ← learn_append, List.flatMap_append,
    List.flatMap_append, List.flatMap_cons, constantsOf_closed hm hclosed]
  refine facts_learn_moved a _ fun n hn => ?_
  obtain ⟨e, he, rfl⟩ := List.mem_map.1 hn
  obtain ⟨l, hl, he⟩ := List.mem_flatMap.1 he
  exact hnames l (List.mem_append_left _ hl) _ (List.mem_map_of_mem he)

/-- Inference does the same as if the values of a PARAMETER statement were known from the start, and the
statement was not there. -/
theorem run_learn {a : Analysis} (hanchor : a.anchor? ≠ some m.id)
    (hnumbered : Buffer.NumberedBelow next (m :: (before ++ after))) :
    let first := run a ⟨before ++ m :: after, next⟩
    let other := run (a.learn (Constants.parse list)) ⟨before ++ after, next⟩
    first.2.without m.id = other.2 ∧ first.1.facts = other.1.facts := by
  intro first other
  have hfacts : (Buffer.edit collectConstants a ⟨before ++ m :: after, next⟩).1.facts = _ :=
    facts_collect_moved hm hclosed hnames a
  have hlines := edit_collectConstants a ⟨before ++ m :: after, next⟩
  have hothers := edit_collectConstants (a.learn (Constants.parse list)) ⟨before ++ after, next⟩
  rw [← Buffer.without_insert hnumbered, Buffer.map_without, ← hlines, Buffer.without_insert hnumbered] at hothers
  have hheading := Buffer.edit_view Analysis.heading heading_collectConstants a ⟨before ++ m :: after, next⟩
  have hcomment : ∀ l ∈ (Buffer.edit collectConstants a ⟨before ++ m :: after, next⟩).2.lines,
      l.id = m.id → l.shape = .comment := by
    rw [hlines]
    intro l hl hid
    obtain ⟨k, hk, rfl⟩ := List.mem_map.1 hl
    obtain rfl := hnumbered.eq_of_id (List.perm_middle.mem_iff.1 hk) List.mem_cons_self hid
    exact withoutConstants_closed hm hclosed
  have hbelow : m.id < (Buffer.edit collectConstants a ⟨before ++ m :: after, next⟩).2.nextId := by
    rw [hlines]
    exact hnumbered.below m List.mem_cons_self
  have hstart := hanchor
  rw [← anchor?_congr hheading] at hstart
  obtain ⟨hwithout, hkept⟩ := conclude_without hstart hbelow hcomment
  obtain ⟨hsame, hsettled⟩ := conclude_congr hfacts
    (Buffer.edit collectConstants (a.learn (Constants.parse list)) ⟨before ++ after, next⟩).2
  rw [← hothers] at hwithout hkept
  exact ⟨hwithout.symm.trans hsame, hkept.symm.trans hsettled⟩

end Moved

/-- A PARAMETER statement that is closed and has no label may stand anywhere, if no other one sets its
names.  The symbols, the procedure and the values of all constants come out the same, and so do all other
lines. -/
theorem run_constants_moved {a : Analysis} {m : Line} {list : Text} {before after before' after' : List Line}
    {next : Nat} (hm : m.shape = .parameter) (hclosed : Constants.IsClosed list m.text)
    (hnames : ∀ l ∈ before ++ after, ∀ n ∈ (constantsOf l).map Prod.fst,
      n ∉ (Constants.parse list).map Prod.fst)
    (hanchor : a.anchor? ≠ some m.id) (hnumbered : Buffer.NumberedBelow next (m :: (before ++ after)))
    (hmoved : before ++ after = before' ++ after') :
    let first := run a ⟨before ++ m :: after, next⟩
    let second := run a ⟨before' ++ m :: after', next⟩
    first.1.symbols = second.1.symbols ∧ first.1.procedure = second.1.procedure ∧
      first.1.externals = second.1.externals ∧
      (∀ n, first.1.constants.get? n = second.1.constants.get? n) ∧
      first.2.lines.filter (·.id != m.id) = second.2.lines.filter (·.id != m.id) := by
  intro first second
  obtain ⟨hlines, hfacts⟩ := run_learn hm hclosed hnames hanchor hnumbered
  rw [hmoved] at hnames hnumbered hlines hfacts
  obtain ⟨hlines', hfacts'⟩ := run_learn hm hclosed hnames hanchor hnumbered
  obtain ⟨hsymbols, hprocedure, hexternals, hvalue⟩ := Facts.mk.inj (hfacts.trans hfacts'.symm)
  exact ⟨hsymbols, hprocedure, hexternals, congrFun hvalue,
    congrArg Buffer.lines (hlines.trans hlines'.symm)⟩

def sampleConstants : Line :=
  { text := "      parameter (n = 3)", shape := .parameter, id := 4, origin := 5 }

def sampleUnit : Buffer :=
  (Buffer.ofTexts ["      subroutine s(x)", "      integer n", "      integer x(n)", "      end"] .other).map
    (·.toDraft.classify)

/-- Behind the unit, or between its header and the declaration that takes the value. -/
theorem run_constants_moved_sample :
    let first := run {} ⟨sampleUnit.lines ++ sampleConstants :: [], 5⟩
    let second := run {} ⟨sampleUnit.lines.take 1 ++ sampleConstants :: sampleUnit.lines.drop 1, 5⟩
    first.2.texts.drop 2 =
      ["      const int n = 3".toList, "      \x7d".toList, "      // parameter (n = 3)".toList] ∧
    first.1.symbols = second.1.symbols ∧ first.1.procedure = second.1.procedure ∧
      first.1.externals = second.1.externals ∧
      (∀ n, first.1.constants.get? n = second.1.constants.get? n) ∧
      first.2.lines.filter (·.id != sampleConstants.id) = second.2.lines.filter (·.id != sampleConstants.id) := by
  have hclosed : Constants.IsClosed "n = 3" sampleConstants.text :=
    ⟨⟨"      ", " ", "", by decide, by decide, by decide, by decide⟩, by decide⟩
  refine ⟨by decide +kernel, ?_⟩
  exact run_constants_moved rfl hclosed (by decide +kernel) (by decide) ⟨by decide, by decide⟩ (by decide)

end Inference

end FixedForm
