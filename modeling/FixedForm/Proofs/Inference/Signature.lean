import FixedForm.Proofs.Assoc
import FixedForm.Proofs.Inference.Local

/-! The arguments of a unit.  The first header fixes them and brings them into the symbol table; when
all declarations are known, each of them is written once, as its symbol says. -/
namespace FixedForm

namespace Assoc
variable {α : Type}

/-- Names that all get the values of one function. -/
def tabulate (f : Text → α) (m : Assoc α) (names : List Text) : Assoc α :=
  names.foldl (fun m name => m.put name (f name)) m

variable (f : Text → α)

theorem get?_tabulate (m : Assoc α) (names : List Text) (k : Text) :
    (tabulate f m names).get? k = if k ∈ names then some (f k) else m.get? k := by
  induction names generalizing m with
  | nil => rfl
  | cons n names ih =>
    rw [tabulate, List.foldl_cons]
    refine (ih _).trans ?_
    by_cases hk : k = n
    · simp [hk]
    · simp [hk, get?_put]

theorem names_tabulate (m : Assoc α) (names : List Text) :
    (tabulate f m names).names = names.foldl addOnce m.names := by
  induction names generalizing m with
  | nil => rfl
  | cons n names ih =>
    rw [tabulate, List.foldl_cons]
    refine (ih _).trans ?_
    rw [names_put]
    rfl

theorem nodup_names_tabulate {m : Assoc α} (h : m.names.Nodup) (names : List Text) :
    (tabulate f m names).names.Nodup := by
  rw [names_tabulate]
  exact List.foldlRecOn names addOnce (motive := List.Nodup) h fun _ hm k _ => nodup_addOnce hm k

theorem mem_names_tabulate (m : Assoc α) (names : List Text) (k : Text) :
    k ∈ (tabulate f m names).names ↔ k ∈ m.names ∨ k ∈ names := by
  induction names generalizing m with
  | nil => simp [tabulate]
  | cons n names ih =>
    rw [tabulate, List.foldl_cons]
    refine (ih _).trans ?_
    rw [names_put, mem_addOnce, List.mem_cons, or_assoc]

end Assoc

/-- What the header says of the unit, and how its arguments are written so far. -/
structure Signature where
  name : Text
  arguments : List Text
  renderings : Assoc Text

/-- The signature with its arguments written as the table says. -/
def Signature.settled (g : Signature) (table : SymbolTable) : Signature :=
  { g with renderings :=
      g.renderings.tabulate (fun arg => renderParameter (table.lookup? arg) arg) g.arguments }

def Procedure.signature (p : Procedure) : Signature := ⟨p.name, p.arguments, p.renderings⟩

def Analysis.signature? (a : Analysis) : Option Signature := a.procedure.map (·.signature)

namespace Inference
variable {l : Line}

theorem apart_signature? : Analysis.Apart Analysis.signature? := ⟨fun _ _ _ => rfl, fun _ _ => rfl, fun _ _ => rfl⟩

/-- Only a header changes the signature. -/
theorem signature?_inferLine (a : Analysis) (previous : Option Shape) (hh : l.shape ≠ .header) :
    (inferLine a previous l).1.signature? = a.signature? := by
  generalize hr : inferLine a previous l = r
  cases infers hr with
  | opened hs => exact absurd hs hh
  | closed | defined =>
    rw [Analysis.signature?, Option.map_map]
    rfl
  | declared => exact apart_signature?.declare a l.id _
  | _ => rfl

/-- The header that opens the unit: its name and its arguments come into the table. -/
structure Opens (a a' : Analysis) (h : Header) : Prop where
  closed : a.procedure = none
  signature : a'.signature? = some ⟨h.name, arguments h, []⟩
  symbols : a'.symbols = (headerSymbols h).foldl SymbolTable.declare a.symbols

theorem openUnit_cases (a : Analysis) (l : Line) :
    (openUnit a l).signature? = a.signature? ∧ (openUnit a l).symbols = a.symbols ∨
      ∃ h, Opens a (openUnit a l) h := by
  simp only [openUnit]
  split
  · exact .inl ⟨rfl, rfl⟩
  · next h _ =>
    split
    · exact .inl ⟨rfl, rfl⟩
    · next hp =>
      refine .inr ⟨h, by simpa using hp, rfl, ?_⟩
      dsimp only
      split <;> rfl

theorem step_cases (s : Analysis × Option Shape) (l : Line) :
    (step s l).1.1.signature? = s.1.signature? ∧ (l.shape = .header → (step s l).1.1.symbols = s.1.symbols) ∨
      ∃ h, Opens s.1 (step s l).1.1 h := by
  by_cases hh : l.shape = .header
  · rw [step_header s hh]
    exact (openUnit_cases s.1 l).imp_left fun h => ⟨h.1, fun _ => h.2⟩
  · exact .inl ⟨signature?_inferLine s.1 s.2 hh, fun h => absurd h hh⟩

/-- An open unit keeps its signature. -/
theorem signature?_after {s : Analysis × Option Shape} {g : Signature} (h : s.1.signature? = some g)
    (lines : List Line) : (after s lines).1.signature? = some g := by
  refine List.foldlRecOn lines _
    (motive := fun s : Analysis × Option Shape => s.1.signature? = some g) h fun s hs l _ => ?_
  rcases step_cases s l with ⟨hsame, -⟩ | ⟨header, hopens⟩
  · exact hsame.trans hs
  · rw [Analysis.signature?, hopens.closed] at hs
    cases hs

/-- A unit whose name and arguments are in the table, and whose arguments are not written yet. -/
def Signed (a : Analysis) : Prop :=
  ∀ g, a.signature? = some g → g.renderings = [] ∧ ∀ arg ∈ g.arguments, a.symbols.has arg = true

theorem has_header (h : Header) (table : SymbolTable) {n : Text} :
    ((headerSymbols h).foldl SymbolTable.declare table).has n = (table.has n ||
      (h.name.lower == n.lower || (arguments h).any fun arg => arg.lower == n.lower)) := by
  rw [SymbolTable.has_foldl_declare, headerSymbols, List.any_cons, List.any_map]
  rfl

theorem signed_after {s : Analysis × Option Shape} (h : Signed s.1) {lines : List Line}
    (hl : ∀ l ∈ lines, l.declares = none) : Signed (after s lines).1 := by
  refine List.foldlRecOn lines _ (motive := fun s : Analysis × Option Shape => Signed s.1) h
    fun s hs l hm => ?_
  rcases step_cases s l with ⟨hsame, -⟩ | ⟨header, hopens⟩
  · intro g hg
    obtain ⟨hr, hargs⟩ := hs g (hsame.symm.trans hg)
    exact ⟨hr, fun arg ha => (tracks_step s (hl l hm)).keeps (hargs arg ha)⟩
  · intro g hg
    obtain rfl := Option.some.inj (hopens.signature.symm.trans hg)
    refine ⟨rfl, fun arg ha => ?_⟩
    rw [hopens.symbols, has_header]
    have hany : ((arguments header).any fun x => x.lower == arg.lower) = true :=
      List.any_eq_true.2 ⟨arg, ha, by simp⟩
    simp [hany]

theorem signature_settleArguments (s : Analysis × Procedure) (args : List Text) :
    (args.foldl (fun s arg => settleArgument s.1 s.2 arg) s).2.signature =
      { s.2.signature with
        renderings := s.2.renderings.tabulate (fun arg => renderParameter (s.1.symbols.lookup? arg) arg)
          args } := by
  induction args generalizing s with
  | nil => rfl
  | cons arg args ih =>
    have hsymbols : (settleArgument s.1 s.2 arg).1.symbols = s.1.symbols := by
      simp only [settleArgument]
      split <;> rfl
    rw [List.foldl_cons, ih, hsymbols]
    rfl

theorem signature_settleResult (a : Analysis) (p : Procedure) :
    (settleResult a p).2.signature = p.signature := by
  rw [settleResult]
  split <;> rfl

/-- Each argument is written once, as its symbol says. -/
theorem signature_settle (a : Analysis) (p : Procedure) :
    (settle a p).2.signature = p.signature.settled a.symbols := by
  have hsymbols : (if p.active then a.report p.anchor (.noEnd p.name) else a).symbols = a.symbols := by
    split <;> rfl
  simp only [settle]
  rw [signature_settleResult, signature_settleArguments, hsymbols]
  rfl

/-- At the end of the stage the arguments are written as the whole table says. -/
theorem signature?_run (a : Analysis) (b : Buffer) :
    let e := b.edit collectConstants a
    (run a b).1.signature? =
      (after (e.1, none) e.2.lines).1.signature?.map (·.settled (run a b).1.symbols) := by
  have hquiet : Analysis.Quiet Analysis.signature? := apart_signature?.report
  have hsymbols := symbols_run a b
  revert hsymbols
  simp only [run]
  generalize b.edit collectConstants a = e
  have hstate : (e.2.edit step (e.1, none)).1 = after (e.1, none) e.2.lines := after_editFrom _ _ _
  generalize e.2.edit step (e.1, none) = e' at hstate ⊢
  intro hsymbols
  rw [hsymbols, ← hstate, reportUntyped, hquiet.reportAll,
    ← hquiet.reportUndeclared e'.1.1 e'.2.lines,
    ← Analysis.quiet_symbols.reportUndeclared e'.1.1 e'.2.lines]
  generalize reportUndeclared e'.1.1 e'.2.lines = a'
  cases hp : a'.procedure with
  | none => rw [finishUnit_none hp, Analysis.signature?, hp]; rfl
  | some p =>
    rw [finishUnit_some hp, Analysis.signature?, Analysis.signature?, hp]
    exact congrArg some (signature_settle a' p)

end Inference

namespace Progress
open Inference

theorem signature?_opening (options : Options) (source : Text) :
    (opening options source).signature? = none := by
  have hspell : ((Card.read source).edit Stage.spell { options }).1.signature? = none :=
    Buffer.edit_view Analysis.signature? apart_signature?.report.spell { options } _
  rw [opening, ← hspell]
  exact Buffer.edit_view Analysis.signature? (fun a l => apart_signature?.collectConstants a l) _ _

theorem signature?_inference (options : Options) (source : Text) :
    (inferred options source).analysis.signature? =
      (known options source (Card.read source).lines).1.signature?.map
        (·.settled (inferred options source).analysis.symbols) := by
  obtain ⟨ha, -⟩ := runAll_inference options source
  rw [inferred, ha, signature?_run, lines_collectConstants, known_eq]
  rfl

/-- After inference the arguments of the unit are in the table, and each of them is written once, as its
symbol says. -/
theorem arguments_written {options : Options} {source : Text} {q : Procedure}
    (hq : (inferred options source).analysis.procedure = some q) :
    q.renderings.names.Nodup ∧ (∀ arg, arg ∈ q.renderings.names ↔ arg ∈ q.arguments) ∧
      ∀ arg ∈ q.arguments, (inferred options source).analysis.symbols.has arg = true ∧
        q.renderings.get? arg =
          some (renderParameter ((inferred options source).analysis.symbols.lookup? arg) arg) := by
  have hsignature := signature?_inference options source
  have hsymbols := symbols_inference options source
  generalize inferred options source = p at hq hsignature hsymbols ⊢
  have hsigned : Signed (known options source (Card.read source).lines).1 := by
    refine signed_after (fun g hg => ?_) (declares_lines source)
    rw [signature?_opening] at hg
    cases hg
  obtain ⟨g, hg, hsettled⟩ : ∃ g, (known options source (Card.read source).lines).1.signature? = some g ∧
      g.settled p.analysis.symbols = q.signature := by
    rw [Analysis.signature?, hq] at hsignature
    exact Option.map_eq_some_iff.1 hsignature.symm
  obtain ⟨hempty, hhas⟩ := hsigned g hg
  have hargs : g.arguments = q.arguments := congrArg Signature.arguments hsettled
  have hrender : q.renderings = Assoc.tabulate
      (fun arg => renderParameter (p.analysis.symbols.lookup? arg) arg) [] q.arguments := by
    have h := congrArg Signature.renderings hsettled
    rw [Signature.settled, hempty, hargs] at h
    exact h.symm
  rw [hrender]
  refine ⟨Assoc.nodup_names_tabulate (m := []) _ List.nodup_nil _, fun arg => ?_, fun arg harg => ⟨?_, ?_⟩⟩
  · rw [Assoc.mem_names_tabulate]
    simp [Assoc.names]
  · rw [hsymbols]
    exact hhas arg (hargs ▸ harg)
  · rw [Assoc.get?_tabulate, if_pos harg]

/-- A name that comes in with a header is that of the unit or of an argument. -/
theorem named_of_enters {options : Options} {source n : Text} {l : Line} (h : Enters options source n l)
    (hl : l.prepared.shape = .header) :
    ∃ q, (inferred options source).analysis.procedure = some q ∧
      (q.name.lower = n.lower ∨ ∃ arg ∈ q.arguments, arg.lower = n.lower) := by
  obtain ⟨before, rest, hcards, hb, ha⟩ := h
  have hstep : known options source (before ++ [l]) =
      (step (known options source before) l.prepared).1 := by
    simp only [known, List.map_append, List.foldl_append, List.map_cons, List.map_nil, List.foldl_cons,
      List.foldl_nil]
  have hrest : known options source (Card.read source).lines =
      after (known options source (before ++ [l])) (rest.map Line.prepared) := by
    simp only [hcards, known, after, List.map_append, List.map_cons, List.foldl_append, List.foldl_cons,
      List.map_nil, List.foldl_nil]
  rw [hstep] at ha hrest
  rcases step_cases (known options source before) l.prepared with ⟨-, hsame⟩ | ⟨header, hopens⟩
  · rw [hsame hl, hb] at ha
    cases ha
  · have hsignature := signature?_inference options source
    have hafter := signature?_after hopens.signature (rest.map Line.prepared)
    rw [hrest, hafter, Option.map_some] at hsignature
    obtain ⟨q, hq, hg⟩ := Option.map_eq_some_iff.1 hsignature
    have hname : q.name = header.name := congrArg Signature.name hg
    have hargs : q.arguments = arguments header := congrArg Signature.arguments hg
    refine ⟨q, hq, ?_⟩
    rw [hopens.symbols, has_header, hb, Bool.false_or, Bool.or_eq_true, List.any_eq_true] at ha
    rw [hname, hargs]
    simpa using ha

end Progress

end FixedForm
