import FixedForm.Proofs.Call.Silent
import FixedForm.Proofs.Stage.Target

/-! Calls in a whole conversion.  When calls are resolved, nothing is declared yet, and the first line of
the unit is a header; then each name that is asked for is met once. -/
namespace FixedForm

theorem Analysis.apart_declarations : Apart declarations :=
  ⟨fun _ _ _ => rfl, fun _ _ => rfl, fun _ _ => rfl⟩

namespace Inference
open Analysis (apart_declarations)
variable (a : Analysis)

theorem declarations_openUnit (l : Line) : (openUnit a l).declarations = a.declarations := by
  simp only [openUnit]
  split
  · rfl
  · split
    · rfl
    · dsimp only
      split <;> rfl

theorem declarations_inferLine (previous : Option Shape) (l : Line) :
    (inferLine a previous l).1.declarations = a.declarations := by
  generalize hr : inferLine a previous l = r
  cases infers hr with
  | opened => exact declarations_openUnit a l
  | declared => exact apart_declarations.declare a _ _
  | _ => rfl

theorem declarations_step (s : Analysis × Option Shape) (l : Line) :
    (step s l).1.1.declarations = s.1.declarations :=
  declarations_inferLine s.1 s.2 l

theorem declarations_finishUnit (b : Buffer) : (finishUnit a b).1.declarations = a.declarations :=
  apart_declarations.report.finishUnit a (fun _ _ => rfl) b

theorem declarations_run (b : Buffer) : (run a b).1.declarations = a.declarations := by
  have hconstants := Buffer.edit_view Analysis.declarations apart_declarations.collectConstants a b
  simp only [run]
  generalize b.edit collectConstants a = s at hconstants ⊢
  have hsteps := Buffer.edit_view (fun s : Analysis × Option Shape => s.1.declarations)
    declarations_step (s.1, none) s.2
  exact (apart_declarations.report.reportAll _ _ _).trans ((declarations_finishUnit _ _).trans
    ((apart_declarations.report.reportUndeclared _ _).trans (hsteps.trans hconstants)))

end Inference

namespace Resolution

/-- The calls of a unit are resolved: each name that is asked for is met once, from its first site. -/
structure Resolved (a : Analysis) (b : Buffer) (r : Analysis × Buffer) : Prop where
  /-- No name is asked for twice. -/
  distinct : ((demands a.symbols b.lines).map (·.name)).Nodup
  /-- Inline functions and prototypes are declared in the order of the demands, and nothing else is. -/
  declarations : r.1.declarations = (demands a.symbols b.lines).flatMap (Demand.declarations a)
  /-- An argument of the unit becomes a pointer in the header. -/
  pointers : ∀ d ∈ demands a.symbols b.lines, d.isPointer a = true →
    ∃ p, r.1.procedure = some p ∧ p.renderings.get? d.name = some d.pointer ∧
      ∀ l ∈ r.2.lines, l.id = p.anchor → l.text = p.header
  /-- The issues of the demands follow what was found before, -/
  diagnostics : r.1.diagnostics =
    Demand.noted a.diagnostics ((demands a.symbols b.lines).flatMap (Demand.issues a))
  /-- and each is there once. -/
  reported : ∀ d ∈ demands a.symbols b.lines, ∀ i ∈ d.issues a,
    r.1.diagnostics.countP (Diagnostic.same (.ofIssue i.1 i.2)) = 1
  /-- No EXTERNAL name of a demand is left, and no local variable that is a function. -/
  cleared : ∀ l ∈ r.2.lines, (∀ d ∈ demands a.symbols b.lines, d.isExtern l = false) ∧
    ∀ d ∈ functions a.symbols b.lines, d.isLocal l = false
  /-- All other lines are left. -/
  kept : r.2.lines.map (·.id) = (b.lines.filter (isLeft a.symbols b.lines)).map (·.id)
  /-- What silent literals hold is not asked for. -/
  silent : ∀ lines, List.Forall₂ (Kin a.symbols) b.lines lines →
    demands a.symbols lines = demands a.symbols b.lines

theorem resolved_run {a : Analysis} {b : Buffer} (hheaded : Headed a.anchor? b.lines)
    (hnone : a.declarations = []) (hdistinct : Diagnostic.Distinct a.diagnostics) :
    Resolved a b (run a b) := by
  have hdiagnostics : (run a b).1.diagnostics =
      Demand.noted a.diagnostics ((demands a.symbols b.lines).flatMap (Demand.issues a)) := by
    rw [run_fst]
    exact Demand.diagnostics_settleAll a _
  refine ⟨nodup_demands _ _, ?_, fun d hd hp => ?_, hdiagnostics, fun d hd i hi => ?_, fun l hl => ?_,
    map_id_run hheaded, fun lines hlines => ?_⟩
  · have hdeclarations := Demand.declarations_settleAll a (demands a.symbols b.lines)
    rw [hnone, List.nil_append] at hdeclarations
    rw [run_fst]
    exact hdeclarations
  · have hprocedure : (run a b).1.procedure = a.procedure.map fun p =>
        { p with renderings :=
                    Demand.point p.renderings ((demands a.symbols b.lines).filter (Demand.isPointer a)) } := by
      rw [run_fst]
      exact Demand.procedure_settleAll a _
    cases hunit : a.procedure with
    | none => simp [Demand.isPointer, hunit] at hp
    | some p =>
      rw [hunit, Option.map_some] at hprocedure
      refine ⟨_, hprocedure, ?_, written_run hd hp _ hprocedure⟩
      exact Demand.get?_point ((nodup_demands _ _).sublist (List.filter_sublist.map _))
        (List.mem_filter.2 ⟨hd, hp⟩)
  · refine ((reports_run a b).distinct hdistinct).countP_same ?_
    rw [hdiagnostics]
    exact Demand.any_noted (.inr ⟨i, List.mem_flatMap.2 ⟨d, hd, hi⟩, rfl⟩)
  · have hleft := isLeft_run hheaded hl
    simp only [isLeft, Bool.and_eq_true, Bool.not_eq_true', List.any_eq_false, Bool.not_eq_true] at hleft
    exact hleft
  · rw [demands, demands, called_kin hlines, functions_kin hlines]

end Resolution

namespace Progress
open Analysis (apart_declarations)
variable (options : Options) (source : Text)

/-- A unit as it reaches the resolution of calls. -/
def beforeCalls : Progress :=
  (Progress.start options (Card.read source)).runAll [.spelling, .shapes, .inference, .references, .blocks]

theorem beforeCalls_eq :
    let p := (Progress.start options (Card.read source)).runAll [.spelling, .shapes, .inference]
    let e := p.buffer.edit Analysis.linearizeLine p.analysis
    (beforeCalls options source).analysis = (Block.run e.1 e.2).1 ∧
      (beforeCalls options source).buffer = (Block.run e.1 e.2).2 := by
  simp only [beforeCalls, Progress.runAll, List.foldl_cons, List.foldl_nil, Stage.analysis_apply,
    Stage.buffer_apply, Stage.run, and_self]

theorem declarations_beforeCalls : (beforeCalls options source).analysis.declarations = [] := by
  obtain ⟨ha, -⟩ := beforeCalls_eq options source
  obtain ⟨hi, -⟩ := Progress.runAll_inference options source
  rw [ha]
  refine (apart_declarations.report.blockRun _ _).trans ?_
  refine (Buffer.edit_view Analysis.declarations apart_declarations.report.linearizeLine _ _).trans ?_
  rw [hi]
  refine (Inference.declarations_run _ _).trans ?_
  exact Buffer.edit_view Analysis.declarations apart_declarations.report.spell { options } (Card.read source)

theorem headed_beforeCalls : Resolution.Headed (beforeCalls options source).analysis.anchor?
    (beforeCalls options source).buffer.lines := by
  obtain ⟨ha, hb⟩ := beforeCalls_eq options source
  obtain ⟨hanchor, hsettled, -⟩ := Progress.inference_labels options source
  rw [ha, hb]
  generalize (Progress.start options (Card.read source)).runAll [.spelling, .shapes, .inference] = p
    at hanchor hsettled ⊢
  have hheading := Buffer.edit_view Analysis.heading Analysis.heading_linearizeLine p.analysis p.buffer
  have hreferences := Analysis.settled_references p.analysis hsettled
  generalize p.buffer.edit Analysis.linearizeLine p.analysis = e at hheading hreferences ⊢
  rw [Analysis.anchor?_congr ((Block.heading_run e.1 e.2).trans hheading), hanchor]
  exact (Block.anchored_run e.1 hreferences).holds

theorem distinct_beforeCalls :
    Diagnostic.Distinct (beforeCalls options source).analysis.diagnostics := by
  have hreports := (Progress.start options (Card.read source)).reports_runAll
    [.spelling, .shapes, .inference, .references, .blocks]
  have hstart : Diagnostic.Distinct (Progress.start options (Card.read source)).analysis.diagnostics :=
    List.Pairwise.nil
  rw [beforeCalls]
  exact hreports.distinct hstart

/-- In every conversion each name that is asked for is met once, from its first site. -/
theorem calls_resolved_once (options : Options) (source : Text) :
    let p := beforeCalls options source
    Resolution.Resolved p.analysis p.buffer (Resolution.run p.analysis p.buffer) :=
  Resolution.resolved_run (headed_beforeCalls options source) (declarations_beforeCalls options source)
    (distinct_beforeCalls options source)

/-- Calls of a subroutine, of an argument and of a statement function. -/
def sampleCalls : Text :=
  "      subroutine s(g, n)\n      integer n, sq\n      sq(i) = i * i\n" ++
    "      call w(\x27n\x27, n)\n      call g(sq(n))\n      end\n"

theorem calls_resolved_sampleCalls :
    let p := beforeCalls {} sampleCalls
    let r := Resolution.run p.analysis p.buffer
    r.1.declarations =
        ["void w(const char *, int);", "static inline int sq(int i)\x7b return i * i; \x7d"] ∧
      Resolution.Resolved p.analysis p.buffer r := by
  have hsource : sampleCalls = _ ++ _ := congrArg₂ (· ++ ·) String.toList_ofList String.toList_ofList
  refine ⟨?_, calls_resolved_once {} sampleCalls⟩
  rw [hsource]
  decide +kernel

end Progress

end FixedForm
