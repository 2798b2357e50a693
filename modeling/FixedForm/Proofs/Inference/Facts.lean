import FixedForm.Proofs.Assoc
import FixedForm.Proofs.Stage.Heading

/-! What inference goes by.  Findings, and the order in which constants became known, have no influence on
the lines that it writes or on anything else that it settles. -/
namespace FixedForm

/-- What inference goes by. -/
structure Facts where
  symbols : SymbolTable
  procedure : Option Procedure
  externals : List Text
  /-- The values of named constants. -/
  value : Text → Option Text

namespace Analysis
variable {a a' : Analysis}

def facts (a : Analysis) : Facts := ⟨a.symbols, a.procedure, a.externals, a.constants.get?⟩

theorem quiet_facts : Quiet facts := fun _ _ _ => rfl

theorem facts_symbols (h : a.facts = a'.facts) (symbols : SymbolTable) :
    { a with symbols }.facts = { a' with symbols }.facts :=
  congrArg (fun f : Facts => { f with symbols }) h

theorem facts_procedure (h : a.facts = a'.facts) (procedure : Option Procedure) :
    { a with procedure }.facts = { a' with procedure }.facts :=
  congrArg (fun f : Facts => { f with procedure }) h

theorem facts_externals (h : a.facts = a'.facts) (externals : List Text) :
    { a with externals }.facts = { a' with externals }.facts :=
  congrArg (fun f : Facts => { f with externals }) h

theorem facts_reportAll (h : a.facts = a'.facts) (line : Option Nat) (issues : List Issue) :
    (a.reportAll line issues).facts = (a'.reportAll line issues).facts := by
  rw [quiet_facts.reportAll, quiet_facts.reportAll, h]

theorem symbol_congr (h : a.facts = a'.facts) (e : DeclaredEntry) (baseType : BaseType) :
    e.symbol baseType a.constants = e.symbol baseType a'.constants := by
  obtain ⟨-, -, -, hvalue⟩ := Facts.mk.inj h
  rw [DeclaredEntry.symbol, DeclaredEntry.symbol, hvalue]

theorem isOwnFunction_congr (h : a.facts = a'.facts) (name : Text) :
    a.isOwnFunction name = a'.isOwnFunction name := by
  obtain ⟨hsymbols, hprocedure, -, -⟩ := Facts.mk.inj h
  rw [isOwnFunction, isOwnFunction, hsymbols, hprocedure]

theorem record_congr (h : a.facts = a'.facts) (line : Nat) (baseType : BaseType) (e : DeclaredEntry) :
    (a.record line baseType e).2 = (a'.record line baseType e).2 ∧
      (a.record line baseType e).1.facts = (a'.record line baseType e).1.facts := by
  have hfacts := facts_reportAll h line e.rankIssues
  simp only [record]
  generalize a.reportAll line e.rankIssues = b at hfacts ⊢
  generalize a'.reportAll line e.rankIssues = b' at hfacts ⊢
  rw [symbol_congr hfacts, isOwnFunction_congr hfacts, (Facts.mk.inj hfacts).1]
  split
  · exact ⟨rfl, facts_symbols hfacts _⟩
  · split
    · refine ⟨rfl, ?_⟩
      dsimp only
      split
      · exact facts_symbols hfacts _
      · exact facts_reportAll (facts_symbols hfacts _) _ _
    · split
      · exact ⟨rfl, hfacts⟩
      · exact ⟨rfl, facts_reportAll (facts_symbols hfacts _) _ _⟩

theorem recordAll_congr (h : a.facts = a'.facts) (line : Nat) (d : Declaration) (pieces : List Text) :
    (a.recordAll line d pieces).2 = (a'.recordAll line d pieces).2 ∧
      (a.recordAll line d pieces).1.facts = (a'.recordAll line d pieces).1.facts := by
  induction pieces generalizing a a' with
  | nil => exact ⟨rfl, h⟩
  | cons piece pieces ih =>
    have hfacts := facts_reportAll h line (DeclaredEntry.parse piece).2
    simp only [recordAll]
    split
    · exact ih hfacts
    · next e _ =>
      obtain ⟨htext, hrecord⟩ := record_congr hfacts line d.baseType
        { e with length := if d.baseType == .character then e.length <|> d.length else e.length }
      obtain ⟨hdrafts, hrest⟩ := ih hrecord
      exact ⟨by rw [htext, hdrafts], hrest⟩

theorem declare_congr (h : a.facts = a'.facts) (line : Nat) (d : Declaration) :
    (a.declare line d).2 = (a'.declare line d).2 ∧
      (a.declare line d).1.facts = (a'.declare line d).1.facts :=
  recordAll_congr (facts_reportAll h line _) line d _

theorem unitName_of_facts (h : a.facts = a'.facts) : a.unitName = a'.unitName := by
  rw [unitName, unitName, (Facts.mk.inj h).2.1]

end Analysis

namespace Inference
open Analysis
variable {a a' : Analysis}

theorem isFunctionUnit_congr (h : a.facts = a'.facts) : isFunctionUnit a = isFunctionUnit a' := by
  rw [isFunctionUnit, isFunctionUnit, (Facts.mk.inj h).2.1]

theorem endLines_congr (h : a.facts = a'.facts) (previous : Option Shape) (text : Text) :
    endLines a previous text = endLines a' previous text := by
  rw [endLines, endLines, isFunctionUnit_congr h, unitName_of_facts h]

theorem statementFunction?_congr (h : a.facts = a'.facts) (text : Text) :
    statementFunction? a text = statementFunction? a' text := by
  obtain ⟨hsymbols, hprocedure, -, -⟩ := Facts.mk.inj h
  rw [statementFunction?, statementFunction?, hsymbols, hprocedure]

theorem openUnit_congr (h : a.facts = a'.facts) (l : Line) : (openUnit a l).facts = (openUnit a' l).facts := by
  obtain ⟨hsymbols, hprocedure, hexternals, hvalue⟩ := Facts.mk.inj h
  simp only [openUnit, hprocedure]
  split
  · exact h
  · split
    · exact h
    · split
      · simp only [facts, report, hsymbols, hexternals, hvalue]
      · simp only [facts, hsymbols, hexternals, hvalue]

/-- A step goes by the facts, and by the shape of the last statement. -/
theorem inferLine_congr (h : a.facts = a'.facts) (previous : Option Shape) (l : Line) :
    (inferLine a previous l).2 = (inferLine a' previous l).2 ∧
      (inferLine a previous l).1.facts = (inferLine a' previous l).1.facts := by
  obtain ⟨-, hprocedure, hexternals, -⟩ := Facts.mk.inj h
  simp only [inferLine]
  split
  · exact ⟨rfl, openUnit_congr h l⟩
  · exact ⟨by rw [endLines_congr h], by rw [hprocedure]; exact facts_procedure h _⟩
  · split
    · exact ⟨rfl, h⟩
    · obtain ⟨hdrafts, hfacts⟩ := declare_congr h l.id _
      exact ⟨by rw [hdrafts], hfacts⟩
  · split
    · exact ⟨rfl, h⟩
    · exact ⟨rfl, by rw [hexternals]; exact facts_externals h _⟩
  · exact ⟨rfl, h⟩
  · split <;> exact ⟨rfl, h⟩
  · rw [statementFunction?_congr h]
    split
    · exact ⟨rfl, h⟩
    · exact ⟨rfl, by rw [hprocedure]; exact facts_procedure h _⟩
  · rw [isFunctionUnit_congr h, unitName_of_facts h]
    split <;> exact ⟨rfl, h⟩
  · rw [isFunctionUnit_congr h, unitName_of_facts h]
    split <;> exact ⟨rfl, h⟩
  · split <;> exact ⟨rfl, h⟩
  · exact ⟨rfl, h⟩

/-- What a step goes by. -/
def seen (s : Analysis × Option Shape) : Facts × Option Shape := (s.1.facts, s.2)

theorem step_congr {s s' : Analysis × Option Shape} (h : seen s = seen s') (l : Line) :
    (step s l).2 = (step s' l).2 ∧ seen (step s l).1 = seen (step s' l).1 := by
  obtain ⟨hfacts, hprevious⟩ := Prod.mk.inj h
  obtain ⟨hentries, hafter⟩ := inferLine_congr hfacts s.2 l
  rw [hprevious] at hentries hafter
  refine ⟨?_, ?_⟩
  · simp only [step, hprevious, hentries]
  · simp only [step, seen, hprevious, hafter]

theorem facts_settleArgument (a : Analysis) (p : Procedure) (arg : Text) :
    (settleArgument a p arg).1.facts = a.facts := by
  rw [settleArgument]
  dsimp only
  split <;> rfl

theorem facts_settleResult (a : Analysis) (p : Procedure) : (settleResult a p).1.facts = a.facts := by
  rw [settleResult]
  split
  · rfl
  · dsimp only
    split <;> rfl

theorem settle_congr (h : a.facts = a'.facts) (p : Procedure) :
    (settle a p).2 = (settle a' p).2 ∧ (settle a p).1.facts = (settle a' p).1.facts := by
  have harguments := List.foldl_rel (l := (closeUnit p).arguments)
    (f := fun (s : Analysis × Procedure) arg => settleArgument s.1 s.2 arg)
    (g := fun (s : Analysis × Procedure) arg => settleArgument s.1 s.2 arg)
    (a := (if p.active then a.report p.anchor (.noEnd p.name) else a, closeUnit p))
    (b := (if p.active then a'.report p.anchor (.noEnd p.name) else a', closeUnit p))
    (r := fun s s' => s.2 = s'.2 ∧ s.1.facts = s'.1.facts)
    ⟨rfl, by split <;> exact h⟩ fun arg _ s s' hs => by
      refine ⟨?_, ?_⟩
      · simp only [settleArgument, hs.1, (Facts.mk.inj hs.2).1]
      · rw [facts_settleArgument, facts_settleArgument, hs.2]
  rw [settle, settle]
  generalize List.foldl _ _ (closeUnit p).arguments = s at harguments ⊢
  generalize List.foldl _ _ (closeUnit p).arguments = s' at harguments ⊢
  obtain ⟨hprocedure, hfacts⟩ := harguments
  refine ⟨?_, ?_⟩
  · simp only [settleResult, hprocedure, (Facts.mk.inj hfacts).1]
    split <;> rfl
  · rw [facts_settleResult, facts_settleResult, hfacts]

theorem finishUnit_congr (h : a.facts = a'.facts) (b : Buffer) :
    (finishUnit a b).2 = (finishUnit a' b).2 ∧
      (finishUnit a b).1.facts = (finishUnit a' b).1.facts := by
  have hprocedure := (Facts.mk.inj h).2.1
  cases hp : a'.procedure with
  | none =>
    rw [finishUnit_none hp, finishUnit_none (hprocedure.trans hp)]
    exact ⟨rfl, h⟩
  | some p =>
    obtain ⟨hsettled, hfacts⟩ := settle_congr h p
    rw [finishUnit_some hp, finishUnit_some (hprocedure.trans hp)]
    exact ⟨by rw [hsettled], by rw [hsettled]; exact facts_procedure hfacts _⟩

end Inference

end FixedForm
