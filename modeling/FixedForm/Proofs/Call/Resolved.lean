import FixedForm.Proofs.Call.Demand
import FixedForm.Proofs.Declaration.History

/-! What is known of a unit, and which lines are left, when all its demands are met. -/
namespace FixedForm

namespace Demand

/-- The analyses agree on what a demand is looked up in. -/
structure SameUnit (a a' : Analysis) : Prop where
  options : a'.options = a.options
  symbols : a'.symbols = a.symbols
  procedure : (a'.procedure.map fun p => (p.arguments, p.functions)) =
    a.procedure.map fun p => (p.arguments, p.functions)

namespace SameUnit
variable {a a' : Analysis} (h : SameUnit a a')
include h

theorem isPointer_eq (d : Demand) : d.isPointer a' = d.isPointer a := by
  have hview (a : Analysis) : d.isPointer a =
      ((a.procedure.map fun p => (p.arguments, p.functions)).map (·.1.contains d.name)).getD false := by
    rw [Option.map_map]
    rfl
  rw [hview, h.procedure, ← hview]

theorem function?_eq (d : Demand) : d.function? a' = d.function? a := by
  have hview (a : Analysis) : d.function? a =
      (a.procedure.map fun p => (p.arguments, p.functions)).bind (·.2.get? d.name) := by
    rw [Option.bind_map]
    rfl
  rw [hview, h.procedure, ← hview]

theorem referenceScope_eq : a'.referenceScope = a.referenceScope := by
  simp only [Analysis.referenceScope, h.options, h.symbols]

theorem declarations_eq : declarations a' = declarations a := by
  funext d
  rw [declarations, declarations, h.isPointer_eq, h.function?_eq, h.referenceScope_eq]

theorem issues_eq : issues a' = issues a := by
  funext d
  rw [issues, issues, h.isPointer_eq, h.function?_eq, h.referenceScope_eq]

end SameUnit

theorem sameUnit_settle (a : Analysis) (d : Demand) : SameUnit a (d.settle a) := by
  refine ⟨?_, Resolution.symbols_settle a d, ?_⟩
  · exact foldl_view Analysis.options (f := fun a (i : Option Nat × Issue) => a.report i.1 i.2)
      (fun _ _ => rfl) (d.issues a) a
  · simp only [settle]
    split
    · rw [Option.map_map]
      rfl
    · rfl

/-- What is known of the unit once all demands are met. -/
def settleAll (a : Analysis) (ds : List Demand) : Analysis := ds.foldl (fun a d => d.settle a) a

theorem sameUnit_settleAll (a : Analysis) (ds : List Demand) : SameUnit a (settleAll a ds) := by
  induction ds generalizing a with
  | nil => exact ⟨rfl, rfl, rfl⟩
  | cons d ds ih =>
    have hfirst := sameUnit_settle a d
    have hrest := ih (d.settle a)
    exact ⟨hrest.options.trans hfirst.options, hrest.symbols.trans hfirst.symbols,
      hrest.procedure.trans hfirst.procedure⟩

theorem declarations_settleAll (a : Analysis) (ds : List Demand) :
    (settleAll a ds).declarations = a.declarations ++ ds.flatMap (declarations a) := by
  induction ds generalizing a with
  | nil => simp [settleAll]
  | cons d ds ih =>
    have hrest := ih (d.settle a)
    rw [(sameUnit_settle a d).declarations_eq] at hrest
    rw [List.flatMap_cons, ← List.append_assoc]
    exact hrest

/-- The findings that the issues add. -/
def noted (found : List Diagnostic) (issues : List (Option Nat × Issue)) : List Diagnostic :=
  issues.foldl (fun ds i => Diagnostic.add ds (.ofIssue i.1 i.2)) found

theorem any_noted {found : List Diagnostic} {issues : List (Option Nat × Issue)} {d : Diagnostic}
    (h : found.any (Diagnostic.same d) = true ∨ ∃ i ∈ issues, Diagnostic.ofIssue i.1 i.2 = d) :
    (noted found issues).any (Diagnostic.same d) = true := by
  induction issues generalizing found with
  | nil => exact h.resolve_right (by simp)
  | cons i issues ih =>
    refine ih ?_
    rcases h with h | ⟨j, hj, he⟩
    · exact .inl (Diagnostic.any_add (.inl h))
    · rcases List.mem_cons.1 hj with rfl | hj
      · exact .inl (Diagnostic.any_add (.inr he))
      · exact .inr ⟨j, hj, he⟩

theorem diagnostics_settle (a : Analysis) (d : Demand) :
    (d.settle a).diagnostics = noted a.diagnostics (d.issues a) := by
  have hfold (issues : List (Option Nat × Issue)) (a : Analysis) :
      (issues.foldl (fun a i => a.report i.1 i.2) a).diagnostics = noted a.diagnostics issues := by
    induction issues generalizing a with
    | nil => rfl
    | cons i issues ih => exact ih (a.report i.1 i.2)
  exact hfold (d.issues a) a

theorem diagnostics_settleAll (a : Analysis) (ds : List Demand) :
    (settleAll a ds).diagnostics = noted a.diagnostics (ds.flatMap (issues a)) := by
  induction ds generalizing a with
  | nil => rfl
  | cons d ds ih =>
    have hrest := ih (d.settle a)
    rw [(sameUnit_settle a d).issues_eq, diagnostics_settle] at hrest
    rw [List.flatMap_cons, noted, List.foldl_append]
    exact hrest

/-- The arguments that are called, as pointers. -/
def point (m : Assoc Text) (ds : List Demand) : Assoc Text :=
  ds.foldl (fun m d => m.put d.name d.pointer) m

theorem procedure_settleAll (a : Analysis) (ds : List Demand) : (settleAll a ds).procedure =
    a.procedure.map fun p => { p with renderings := point p.renderings (ds.filter (isPointer a)) } := by
  induction ds generalizing a with
  | nil => simp [settleAll, point]
  | cons d ds ih =>
    have hpointer : isPointer (d.settle a) = isPointer a :=
      funext fun e => (sameUnit_settle a d).isPointer_eq e
    have hrest := ih (d.settle a)
    rw [hpointer] at hrest
    refine hrest.trans ?_
    rw [List.filter_cons, settle]
    split
    · rw [Option.map_map]
      rfl
    · rfl

theorem get?_point_other {m : Assoc Text} {ds : List Demand} {name : Text}
    (h : name ∉ ds.map (·.name)) : (point m ds).get? name = m.get? name := by
  induction ds generalizing m with
  | nil => rfl
  | cons d ds ih =>
    rw [List.map_cons, List.mem_cons, not_or] at h
    exact (ih h.2).trans (m.get?_put_other d.name h.1 d.pointer)

/-- Of distinct names, each becomes the pointer that its demand says. -/
theorem get?_point {m : Assoc Text} {ds : List Demand} (hn : (ds.map (·.name)).Nodup) {d : Demand}
    (hd : d ∈ ds) : (point m ds).get? d.name = some d.pointer := by
  induction ds generalizing m with
  | nil => cases hd
  | cons e ds ih =>
    obtain ⟨hnew, hrest⟩ := List.nodup_cons.1 hn
    rcases List.mem_cons.1 hd with rfl | hd
    · exact (get?_point_other hnew).trans (m.get?_put_self d.name d.pointer)
    · exact ih hrest hd

theorem settleAll_append (a : Analysis) (ds es : List Demand) :
    settleAll a (ds ++ es) = settleAll (settleAll a ds) es :=
  List.foldl_append

theorem anchor?_settle (a : Analysis) (d : Demand) : (d.settle a).anchor? = a.anchor? := by
  simp only [Analysis.anchor?, settle]
  split
  · rw [Option.map_map]
    rfl
  · rfl

end Demand

/-- A line, without its text if it is the first one of the unit. -/
def Line.headless (anchor : Option Nat) (l : Line) : Line :=
  if anchor = some l.id then { l with text := [] } else l

section Headless
variable (anchor : Option Nat) (l : Line)

theorem Line.id_headless : (l.headless anchor).id = l.id := by
  rw [headless]
  split <;> rfl

theorem Line.shape_headless : (l.headless anchor).shape = l.shape := by
  rw [headless]
  split <;> rfl

theorem Line.declares_headless : (l.headless anchor).declares = l.declares := by
  rw [headless]
  split <;> rfl

end Headless

namespace Resolution
open Demand

theorem foldl_meet_fst (ds : List Demand) (s : Analysis × Buffer) :
    (ds.foldl meet s).1 = settleAll s.1 ds := by
  induction ds generalizing s with
  | nil => rfl
  | cons d ds ih => exact ih (meet s d)

theorem foldl_meetFunction_fst (ds : List Demand) (s : Analysis × Buffer) :
    (ds.foldl meetFunction s).1 = settleAll s.1 ds := by
  induction ds generalizing s with
  | nil => rfl
  | cons d ds ih => exact ih (meetFunction s d)

/-- What is known of the unit when all its demands are met. -/
theorem run_fst (a : Analysis) (b : Buffer) : (run a b).1 =
    { settleAll a (demands a.symbols b.lines) with symbols := marked a.symbols b.lines } := by
  rw [run_eq, demands, settleAll_append, foldl_meetFunction_fst, foldl_meet_fst]

/-- The line is not one that a demand takes the place of. -/
def isLeft (symbols : SymbolTable) (lines : List Line) (l : Line) : Bool :=
  !(demands symbols lines).any (·.isExtern l) && !(functions symbols lines).any (·.isLocal l)

section Lines
variable {anchor : Option Nat}

/-- The first line of the unit, if it is there, is a header. -/
def Headed (anchor : Option Nat) (lines : List Line) : Prop :=
  ∀ l ∈ lines, anchor = some l.id → l.shape = .header

theorem shape_rewritten (symbols : SymbolTable) (l : Line) : (rewritten symbols l).shape = l.shape := by
  rw [rewritten]
  split <;> rfl

theorem declares_rewritten (symbols : SymbolTable) (l : Line) :
    (rewritten symbols l).declares = l.declares := by
  rw [rewritten]
  split <;> rfl

theorem Headed.rewritten {b : Buffer} (h : Headed anchor b.lines) (symbols : SymbolTable) :
    Headed anchor (b.map (rewritten symbols)).lines := by
  intro l hl hi
  obtain ⟨m, hm, rfl⟩ := List.mem_map.1 hl
  exact (shape_rewritten symbols m).trans (h m hm hi)

theorem Headed.filter {xs ys : List Line} {p : Line → Bool} (h : Headed anchor xs)
    (he : ys.map (Line.headless anchor) = (xs.map (Line.headless anchor)).filter p) :
    Headed anchor ys := by
  intro l hl hi
  have hm : l.headless anchor ∈ ys.map (Line.headless anchor) := List.mem_map_of_mem hl
  rw [he] at hm
  obtain ⟨m, hm, he⟩ := List.mem_map.1 (List.mem_of_mem_filter hm)
  rw [← Line.shape_headless anchor l, ← he, Line.shape_headless]
  rw [← Line.id_headless anchor l, ← he, Line.id_headless] at hi
  exact h m hm hi

theorem isExtern_headless {lines : List Line} (h : Headed anchor lines) (d : Demand) {l : Line}
    (hl : l ∈ lines) : d.isExtern (l.headless anchor) = d.isExtern l := by
  rw [Line.headless]
  split
  · next ha =>
    simp only [isExtern, h l hl ha]
    rfl
  · rfl

theorem isLocal_headless (d : Demand) (l : Line) : d.isLocal (l.headless anchor) = d.isLocal l := by
  rw [isLocal, isLocal, Line.shape_headless, Line.declares_headless]

theorem headless_modify {i : Nat} (h : anchor = some i) (t : Text) (b : Buffer) :
    (b.modify i fun c => { c with text := t }).lines.map (Line.headless anchor) =
      b.lines.map (Line.headless anchor) := by
  rw [Buffer.modify, Buffer.map, List.map_map]
  refine List.map_congr_left fun l _ => ?_
  by_cases hi : l.id = i
  · simp [Line.headless, h, hi]
  · simp [Line.headless, h, hi, Ne.symm hi]

theorem headless_meet {s : Analysis × Buffer} (h : Headed s.1.anchor? s.2.lines) (d : Demand) :
    (meet s d).2.lines.map (Line.headless s.1.anchor?) =
      (s.2.lines.map (Line.headless s.1.anchor?)).filter fun l => !d.isExtern l := by
  have hremove : (s.2.remove d.isExtern).lines.map (Line.headless s.1.anchor?) =
      (s.2.lines.map (Line.headless s.1.anchor?)).filter fun l => !d.isExtern l := by
    rw [List.filter_map]
    refine congrArg _ (List.filter_congr fun l hl => ?_)
    exact congrArg (!·) (isExtern_headless h d hl).symm
  simp only [meet, clear]
  split
  · next p hp =>
    have hanchor : s.1.anchor? = some p.anchor := by
      rw [← anchor?_settle s.1 d, Analysis.anchor?, hp]
      rfl
    split
    · exact (headless_modify hanchor _ _).trans hremove
    · exact hremove
  · exact hremove

theorem headless_meetFunction {s : Analysis × Buffer} (h : Headed s.1.anchor? s.2.lines)
    (d : Demand) : (meetFunction s d).2.lines.map (Line.headless s.1.anchor?) =
      (s.2.lines.map (Line.headless s.1.anchor?)).filter fun l => !(d.isExtern l || d.isLocal l) := by
  have hremove : (meetFunction s d).2.lines.map (Line.headless s.1.anchor?) =
      ((meet s d).2.lines.map (Line.headless s.1.anchor?)).filter fun l => !d.isLocal l := by
    rw [List.filter_map]
    simp only [Function.comp_def, isLocal_headless]
    rfl
  rw [hremove, headless_meet h, List.filter_filter]
  exact List.filter_congr fun l _ => by rw [Bool.not_or, Bool.and_comm]

/-- Steps that only take lines away, over all demands. -/
theorem headless_foldl {f : Analysis × Buffer → Demand → Analysis × Buffer}
    {p : Demand → Line → Bool} (ha : ∀ s d, (f s d).1.anchor? = s.1.anchor?)
    (hf : ∀ s d, Headed s.1.anchor? s.2.lines → (f s d).2.lines.map (Line.headless s.1.anchor?) =
      (s.2.lines.map (Line.headless s.1.anchor?)).filter fun l => !p d l)
    (ds : List Demand) {s : Analysis × Buffer} (h : Headed s.1.anchor? s.2.lines) :
    (ds.foldl f s).2.lines.map (Line.headless s.1.anchor?) =
      (s.2.lines.map (Line.headless s.1.anchor?)).filter fun l => !ds.any fun d => p d l := by
  induction ds generalizing s with
  | nil => simp
  | cons d ds ih =>
    have hstep := hf s d h
    have hrest := ih (s := f s d) (by rw [ha]; exact h.filter hstep)
    rw [ha, hstep, List.filter_filter] at hrest
    refine hrest.trans (List.filter_congr fun l _ => ?_)
    rw [List.any_cons, Bool.not_or, Bool.and_comm]

end Lines

/-- Which lines are left when all demands are met: the text of the header apart, they are as they were
after their calls were taken. -/
theorem headless_run {a : Analysis} {b : Buffer} (h : Headed a.anchor? b.lines) :
    (run a b).2.lines.map (Line.headless a.anchor?) =
      ((b.map (rewritten a.symbols)).lines.map (Line.headless a.anchor?)).filter
        (isLeft a.symbols b.lines) := by
  have hrewritten := h.rewritten a.symbols
  have hcalled := headless_foldl (f := meet) (p := Demand.isExtern) (fun s d => anchor?_settle s.1 d)
    (fun _ d hs => headless_meet hs d) (called a.symbols b.lines)
    (s := (a, b.map (rewritten a.symbols))) hrewritten
  have hheaded := hrewritten.filter hcalled
  rw [run_eq]
  -- The functions are met in the state that the subroutines leave.
  generalize hs : (called a.symbols b.lines).foldl meet (a, b.map (rewritten a.symbols)) = s
    at hcalled hheaded ⊢
  have hanchor : s.1.anchor? = a.anchor? := by
    rw [← hs]
    exact foldl_view (fun s : Analysis × Buffer => s.1.anchor?) (fun s d => anchor?_settle s.1 d) _ _
  have hfunctions := headless_foldl (f := meetFunction) (p := fun d l => d.isExtern l || d.isLocal l)
    (fun s d => anchor?_settle s.1 d) (fun _ d hs => headless_meetFunction hs d)
    (functions a.symbols b.lines) (hanchor ▸ hheaded)
  rw [hanchor, hcalled, List.filter_filter] at hfunctions
  refine hfunctions.trans (List.filter_congr fun l _ => ?_)
  have hany : ((functions a.symbols b.lines).any fun d => d.isExtern l || d.isLocal l) =
      ((functions a.symbols b.lines).any (·.isExtern l) ||
        (functions a.symbols b.lines).any (·.isLocal l)) := by
    refine Bool.eq_iff_iff.2 ?_
    simp only [Bool.or_eq_true, List.any_eq_true, and_or_left, exists_or]
  rw [isLeft, demands, List.any_append, hany, Bool.not_or, Bool.not_or, Bool.and_comm, Bool.and_assoc]

/-- A line after its calls are taken, without its text if it is the first one of the unit. -/
def taken (a : Analysis) (l : Line) : Line :=
  Line.headless a.anchor? { rewritten a.symbols l with id := l.id, origin := l.origin }

/-- Taking the calls of a line does not change whether it is left. -/
theorem isLeft_taken {a : Analysis} {b : Buffer} (h : Headed a.anchor? b.lines) {l : Line}
    (hl : l ∈ b.lines) : isLeft a.symbols b.lines (taken a l) = isLeft a.symbols b.lines l := by
  have hexternal (d : Demand) : d.isExtern (taken a l) = d.isExtern l := by
    by_cases hs : l.shape = .external
    · have hl' : rewritten a.symbols l = l.toDraft := by
        simp [rewritten, lineCall?, lineReferences, hs, holdsCalls]
      have hne : a.anchor? ≠ some l.id := fun ha => by simp [h l hl ha] at hs
      simp only [taken, hl', Line.headless, if_neg hne]
    · have hshape : (taken a l).shape ≠ .external := by
        rw [taken, Line.shape_headless]
        exact fun hs' => hs ((shape_rewritten a.symbols l).symm.trans hs')
      rw [isExtern, isExtern, beq_eq_false_iff_ne.2 hs, beq_eq_false_iff_ne.2 hshape]
      rfl
  have hlocal (d : Demand) : d.isLocal (taken a l) = d.isLocal l := by
    rw [isLocal, isLocal, taken, Line.shape_headless, Line.declares_headless]
    exact congrArg₂ (fun shape declares => shape == .declaration && declares == some d.name)
      (shape_rewritten a.symbols l) (declares_rewritten a.symbols l)
  simp only [isLeft, hlocal, hexternal]

/-- The lines that are left, in terms of the lines before. -/
theorem headless_run_eq {a : Analysis} {b : Buffer} (h : Headed a.anchor? b.lines) :
    (run a b).2.lines.map (Line.headless a.anchor?) =
      (b.lines.filter (isLeft a.symbols b.lines)).map (taken a) := by
  have hfilter := List.filter_congr fun l (hl : l ∈ b.lines) => isLeft_taken h hl
  rw [headless_run h, Buffer.map, List.map_map, List.filter_map, ← hfilter]
  rfl

/-- The numbers of the lines that are left. -/
theorem map_id_run {a : Analysis} {b : Buffer} (h : Headed a.anchor? b.lines) :
    (run a b).2.lines.map (·.id) = (b.lines.filter (isLeft a.symbols b.lines)).map (·.id) := by
  have hids : (run a b).2.lines.map (·.id) =
      ((run a b).2.lines.map (Line.headless a.anchor?)).map (·.id) := by
    rw [List.map_map]
    exact List.map_congr_left fun l _ => (l.id_headless a.anchor?).symm
  rw [hids, headless_run_eq h, List.map_map]
  exact List.map_congr_left fun l _ => Line.id_headless a.anchor? _

/-- The first line of the unit shows what is known of it. -/
def Written (s : Analysis × Buffer) : Prop :=
  ∀ p, s.1.procedure = some p → ∀ l ∈ s.2.lines, l.id = p.anchor → l.text = p.header

theorem written_meet {s : Analysis × Buffer} {d : Demand} (h : d.isPointer s.1 = true ∨ Written s) :
    Written (meet s d) := by
  intro p (hp : (d.settle s.1).procedure = some p) l hl hi
  simp only [meet, clear, hp] at hl
  split at hl
  · obtain ⟨m, -, rfl⟩ := List.mem_map.1 hl
    have hm : (m.id == p.anchor) = true := by simpa using hi
    simp [hm]
  · next hpointer =>
    have hsame : (d.settle s.1).procedure = s.1.procedure := by
      simp only [settle, hpointer, Bool.false_eq_true, if_false]
    exact (h.resolve_left hpointer) p (hsame ▸ hp) l (List.mem_of_mem_filter hl) hi

theorem written_meetFunction {s : Analysis × Buffer} {d : Demand}
    (h : d.isPointer s.1 = true ∨ Written s) : Written (meetFunction s d) :=
  fun p hp l hl hi => written_meet h p hp l (List.mem_of_mem_filter hl) hi

/-- A pointer among the demands, or a header that was right before, leaves a header that is right. -/
theorem written_foldl {f : Analysis × Buffer → Demand → Analysis × Buffer}
    (ha : ∀ s d, (f s d).1 = d.settle s.1)
    (hf : ∀ s d, d.isPointer s.1 = true ∨ Written s → Written (f s d)) (ds : List Demand)
    {s : Analysis × Buffer} (h : (∃ d ∈ ds, d.isPointer s.1 = true) ∨ Written s) :
    Written (ds.foldl f s) := by
  induction ds generalizing s with
  | nil => exact h.resolve_left (by simp)
  | cons d ds ih =>
    refine ih ?_
    rcases h with ⟨e, he, hp⟩ | h
    · rcases List.mem_cons.1 he with rfl | he
      · exact .inr (hf s e (.inl hp))
      · refine .inl ⟨e, he, ?_⟩
        rw [ha, (sameUnit_settle s.1 d).isPointer_eq, hp]
    · exact .inr (hf s d (.inr h))

/-- Where an argument is called, the header shows what became of the arguments. -/
theorem written_run {a : Analysis} {b : Buffer} {d : Demand} (hd : d ∈ demands a.symbols b.lines)
    (hp : d.isPointer a = true) : Written (run a b) := by
  rw [run_eq]
  have hcalled := written_foldl (f := meet) (fun _ _ => rfl) (fun s d => written_meet)
    (called a.symbols b.lines) (s := (a, b.map (rewritten a.symbols)))
  have hfirst := foldl_meet_fst (called a.symbols b.lines) (a, b.map (rewritten a.symbols))
  generalize (called a.symbols b.lines).foldl meet (a, b.map (rewritten a.symbols)) = s
    at hcalled hfirst ⊢
  have hfunctions := written_foldl (f := meetFunction) (fun _ _ => rfl) (fun s d => written_meetFunction)
    (functions a.symbols b.lines) (s := s)
  refine hfunctions ?_
  rcases List.mem_append.1 hd with hd | hd
  · exact .inr (hcalled (.inl ⟨d, hd, hp⟩))
  · refine .inl ⟨d, hd, ?_⟩
    rw [hfirst, (sameUnit_settleAll a _).isPointer_eq, hp]

/-- No name is asked for twice. -/
theorem nodup_demands (symbols : SymbolTable) (lines : List Line) :
    ((demands symbols lines).map (·.name)).Nodup := by
  rw [demands, List.map_append]
  refine List.nodup_append.2 ⟨nodup_firstsBy _, ?_, fun n hn m hm he => ?_⟩
  · exact (nodup_firstsBy _).sublist (List.filter_sublist.map _)
  · obtain ⟨d, hd, rfl⟩ := List.mem_map.1 hn
    obtain ⟨e, he', rfl⟩ := List.mem_map.1 hm
    have hnot := (List.mem_filter.1 he').2
    have hcalled : isCalled symbols lines e.name = true :=
      List.any_eq_true.2 ⟨d, hd, by simp [he]⟩
    simp [hcalled] at hnot

/-- The lines that are left are none that a demand takes the place of. -/
theorem isLeft_run {a : Analysis} {b : Buffer} (h : Headed a.anchor? b.lines) {l : Line}
    (hl : l ∈ (run a b).2.lines) : isLeft a.symbols b.lines l = true := by
  have hm : l.headless a.anchor? ∈ (run a b).2.lines.map (Line.headless a.anchor?) :=
    List.mem_map_of_mem hl
  rw [headless_run h] at hm
  have hleft := (List.mem_filter.1 hm).2
  have hexternal (d : Demand) := isExtern_headless ((h.rewritten a.symbols).filter (headless_run h)) d hl
  simp only [isLeft, hexternal, isLocal_headless] at hleft ⊢
  exact hleft

end Resolution

end FixedForm
