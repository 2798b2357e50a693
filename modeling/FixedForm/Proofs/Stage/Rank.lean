import FixedForm.Proofs.Stage.Calls
import FixedForm.Proofs.Stage.Declared
import FixedForm.Proofs.Symbol.Rank

/-! The symbol table of a conversion, from one change to the next.  Headers, declarations and calls change
it, and between any two of their changes the kinds of all symbols go with their extents. -/
namespace FixedForm
open SymbolTable (Ranked)

namespace Analysis
variable {a : Analysis}

theorem ranked_reportAll (h : a.symbols.Ranked) (line : Option Nat) (issues : List Issue) :
    (a.reportAll line issues).symbols.Ranked := by
  rw [quiet_symbols.reportAll]
  exact h

theorem ranked_record (h : a.symbols.Ranked) (line : Nat) (baseType : BaseType) (e : DeclaredEntry) :
    (a.record line baseType e).1.symbols.Ranked := by
  have hb := ranked_reportAll h line e.rankIssues
  rw [record_eq]
  generalize a.reportAll line e.rankIssues = b at hb ⊢
  have hsymbol := e.ranks_symbol baseType b.constants
  split
  · exact hb.modify (fun _ => rfl) fun s hs => hb.ranks_lookup? (s := s) hs
  · split
    · exact ranked_reportAll (a := { b with symbols := _ }) (hb.classify hsymbol e.name _) _ _
    · split
      · exact hb
      · exact ranked_reportAll (a := { b with symbols := _ }) (hb.declare hsymbol) _ _

theorem ranked_recordAll (h : a.symbols.Ranked) (line : Nat) (d : Declaration) (pieces : List Text) :
    (a.recordAll line d pieces).1.symbols.Ranked := by
  induction pieces generalizing a with
  | nil => exact h
  | cons piece pieces ih =>
    have hr := ranked_reportAll h line (DeclaredEntry.parse piece).2
    simp only [recordAll]
    split
    · exact ih hr
    · exact ih (ranked_record hr _ _ _)

/-- A declaration up to its entry number `n`. -/
def declareFirst (a : Analysis) (line : Nat) (d : Declaration) (n : Nat) : Analysis :=
  ((a.reportAll line (d.list.splitCommas.2.map .mismatch)).recordAll line d (d.list.splitCommas.1.take n)).1

theorem ranked_declareFirst (h : a.symbols.Ranked) (line : Nat) (d : Declaration) (n : Nat) :
    (a.declareFirst line d n).symbols.Ranked :=
  ranked_recordAll (ranked_reportAll h _ _) line d _

end Analysis

namespace Inference
open Analysis (quiet_symbols)
variable {a : Analysis} {l : Line}

theorem ranks_headerSymbols (h : Header) : ∀ s ∈ headerSymbols h, s.kind.Ranks s.dimensions := by
  intro s hs
  rcases List.mem_cons.1 hs with rfl | hs
  · cases h.kind <;> exact Kind.ranks_nil rfl
  · obtain ⟨arg, -, rfl⟩ := List.mem_map.1 hs
    exact Kind.ranks_nil rfl

theorem ranked_openUnit (h : a.symbols.Ranked) (l : Line) : (openUnit a l).symbols.Ranked := by
  simp only [openUnit]
  split
  · exact h
  · next header _ =>
    split
    · exact h
    · dsimp only
      refine Ranked.foldl_declare ?_ (ranks_headerSymbols header)
      split <;> exact h

theorem ranked_inferLine (h : a.symbols.Ranked) (previous : Option Shape) (l : Line) :
    (inferLine a previous l).1.symbols.Ranked := by
  generalize hr : inferLine a previous l = r
  cases infers hr with
  | opened => exact ranked_openUnit h l
  | declared => exact Analysis.ranked_recordAll (Analysis.ranked_reportAll h _ _) _ _ _
  | _ => exact h

/-- Any number of lines. -/
theorem ranked_steps {s : Analysis × Option Shape} (h : s.1.symbols.Ranked) (lines : List Line) :
    (lines.foldl (fun s l => (step s l).1) s).1.symbols.Ranked :=
  List.foldlRecOn lines _ (motive := fun s : Analysis × Option Shape => s.1.symbols.Ranked) h
    fun s hs l _ => ranked_inferLine hs s.2 l

theorem ranked_run (h : a.symbols.Ranked) (b : Buffer) : (run a b).1.symbols.Ranked := by
  have hconstants := symbols_collectConstants a b
  simp only [run]
  generalize b.edit collectConstants a = e at hconstants ⊢
  have hlines : (e.2.edit step (e.1, none)).1.1.symbols.Ranked :=
    Buffer.editFrom_state (P := fun s : Analysis × Option Shape => s.1.symbols.Ranked) e.2.nextId
      (hconstants ▸ h) fun s hs l _ => ranked_inferLine hs s.2 l
  generalize e.2.edit step (e.1, none) = e' at hlines ⊢
  refine Analysis.ranked_reportAll ?_ none _
  rw [symbols_finishUnit, quiet_symbols.reportUndeclared]
  exact hlines

end Inference

namespace Resolution

/-- The calls of a unit. -/
def sites (a : Analysis) (b : Buffer) : Sites := (b.edit (collect a.symbols) {}).1

theorem symbols_run (a : Analysis) (b : Buffer) : (run a b).1.symbols = mark a.symbols (sites a b) := by
  rw [run_eq, sites, edit_collect, marked_eq, foldl_addFirst_nil, foldl_addFirst_nil]

/-- What is called as a function was a scalar. -/
theorem isCallable_sites {a : Analysis} {b : Buffer} {name : Text}
    (h : name ∈ (sites a b).functions.names) : a.symbols.isCallable name = true := by
  rw [sites, edit_collect, foldl_addFirst_nil, foldl_addFirst_nil] at h
  obtain ⟨entry, hentry, rfl⟩ := List.mem_map.1 h
  obtain ⟨site, hsite, rfl⟩ := List.mem_map.1 hentry
  obtain ⟨l, -, hl⟩ := List.mem_flatMap.1 (mem_of_mem_firstsBy hsite)
  rw [lineReferences] at hl
  split at hl
  · obtain ⟨r, hr, rfl⟩ := List.mem_map.1 hl
    exact (List.mem_filter.1 hr).2
  · cases hl

section Mark
variable {a : Analysis} (h : a.symbols.Ranked) (b : Buffer)
include h

/-- The table after all subroutines and some of the functions are marked. -/
theorem ranked_marks {names : List Text} (hn : names ⊆ (sites a b).functions.names) :
    (names.foldl markFunction
      ((sites a b).subroutines.names.foldl markSubroutine a.symbols)).Ranked :=
  ranked_functions (ranked_subroutines h _) fun _ hm =>
    flat_subroutines (flat_of_isCallable h (isCallable_sites (hn hm))) _

theorem ranked_run : (run a b).1.symbols.Ranked := by
  rw [symbols_run]
  exact ranked_marks h b (List.Subset.refl _)

end Mark

end Resolution

/-- Every stage keeps the kinds and the extents together. -/
theorem Stage.ranked_run {a : Analysis} (h : a.symbols.Ranked) (stage : Stage) (b : Buffer) :
    (stage.run a b).1.symbols.Ranked := by
  have hquiet := Analysis.quiet_symbols
  cases stage with
  | spelling =>
    rw [Stage.run, Buffer.edit_view Analysis.symbols hquiet.spell]
    exact h
  | shapes => exact h
  | inference => exact Inference.ranked_run h b
  | references =>
    rw [Stage.run, Buffer.edit_view Analysis.symbols hquiet.linearizeLine]
    exact h
  | blocks =>
    rw [Stage.run, hquiet.blockRun]
    exact h
  | calls => exact Resolution.ranked_run h b
  | intrinsics => exact h
  | remarks => exact h

theorem Progress.ranked_runAll {p : Progress} (h : p.analysis.symbols.Ranked) (stages : List Stage) :
    (p.runAll stages).analysis.symbols.Ranked :=
  List.foldlRecOn stages _ (motive := fun p : Progress => p.analysis.symbols.Ranked) h
    fun p hp stage _ => Stage.ranked_run hp stage p.buffer

theorem Inference.ranked_known (options : Options) (source : Text) (before : List Line) :
    (known options source before).1.symbols.Ranked := by
  refine ranked_steps ?_ _
  rw [opening, symbols_collectConstants, Buffer.edit_view Analysis.symbols Analysis.quiet_symbols.spell]
  exact .empty

namespace Conversion
open Inference (known headerSymbols)
open Resolution (sites markSubroutine markFunction)

/-- The tables that a conversion passes through. -/
inductive Passes (options : Options) (source : Text) : SymbolTable → Prop
  /-- Some stages are over. -/
  | stages {stages : List Stage} (h : stages <+: Stage.all) :
    Passes options source ((Progress.start options (Card.read source)).runAll stages).analysis.symbols
  /-- Inference comes to a line. -/
  | lines {before after : List Line} (h : (Card.read source).lines = before ++ after) :
    Passes options source (known options source before).1.symbols
  /-- The first header declares its name and some of its arguments. -/
  | header {before after : List Line} {l : Line} {h : Header}
    (hl : (Card.read source).lines = before ++ l :: after) (hs : l.prepared.shape = .header)
    (hh : Header.parse? (statementOf l.prepared.text) = some h)
    (hfirst : (known options source before).1.procedure = none) (n : Nat) :
    Passes options source
      (((headerSymbols h).take n).foldl SymbolTable.declare (known options source before).1.symbols)
  /-- Some entries of a declaration are read. -/
  | entries {before after : List Line} {l : Line} {d : Declaration}
    (hl : (Card.read source).lines = before ++ l :: after) (hs : l.prepared.shape = .declaration)
    (hd : Declaration.parse? l.prepared.text = some d) (n : Nat) :
    Passes options source ((known options source before).1.declareFirst l.id d n).symbols
  /-- Some subroutines are marked. -/
  | subroutines {p : Progress} (hp : p = Progress.beforeCalls options source) (n : Nat) :
    Passes options source
      (((sites p.analysis p.buffer).subroutines.names.take n).foldl markSubroutine p.analysis.symbols)
  /-- All subroutines and some functions are marked. -/
  | functions {p : Progress} (hp : p = Progress.beforeCalls options source) (n : Nat) :
    Passes options source (((sites p.analysis p.buffer).functions.names.take n).foldl markFunction
      ((sites p.analysis p.buffer).subroutines.names.foldl markSubroutine p.analysis.symbols))

theorem Passes.ranked {options : Options} {source : Text} {table : SymbolTable}
    (h : Passes options source table) : table.Ranked := by
  have hstages (stages : List Stage) :
      ((Progress.start options (Card.read source)).runAll stages).analysis.symbols.Ranked :=
    Progress.ranked_runAll .empty stages
  have hcalls {p : Progress} (hp : p = Progress.beforeCalls options source) : p.analysis.symbols.Ranked := by
    rw [hp, Progress.beforeCalls]
    exact hstages _
  cases h with
  | stages h => exact hstages _
  | lines h => exact Inference.ranked_known options source _
  | @header before _ _ h _ _ _ _ n =>
    exact (Inference.ranked_known options source before).foldl_declare fun s hs =>
      Inference.ranks_headerSymbols h s (List.mem_of_mem_take hs)
  | entries _ _ _ n => exact Analysis.ranked_declareFirst (Inference.ranked_known options source _) _ _ n
  | subroutines hp n => exact Resolution.ranked_subroutines (hcalls hp) _
  | functions hp n => exact Resolution.ranked_marks (hcalls hp) _ (List.take_subset n _)

/-- In every table that a conversion passes through, each symbol stands under its name in lower case, kinds
go with extents, and a matrix has the leading extent that its subscripts are written with. -/
theorem tables_ranked {options : Options} {source : Text} {table : SymbolTable}
    (h : Passes options source table) :
    table.Ranked ∧ (∀ s ∈ table.entries, table.lookup? s.name = some s) ∧
      ∀ name s, table.array? name = some s → s.kind = .matrix →
        ∃ leading second, s.dimensions = [leading, second] ∧ ∀ reference terms row column,
          (Reference.bracket? s reference terms [row, column]).1 =
            some (matrixSubscript row column leading) := by
  have hr := h.ranked
  refine ⟨hr, fun s hs => hr.lookup?_name hs, fun name s hs hk => ?_⟩
  obtain ⟨leading, second, hd⟩ := hr.matrix_dimensions (Option.filter_eq_some_iff.1 hs).1 hk
  refine ⟨leading, second, hd, fun reference terms row column => ?_⟩
  simp [Reference.bracket?, Reference.leadingDimension, hk, hd]

/-- A matrix, and a scalar that is called. -/
def sampleRanks : Text :=
  "      subroutine s(a)\n      real*8 a(n,3), f\n      b = f(n)\n      end\n"

def sampleTable : SymbolTable where
  entries :=
    [{ name := "s", kind := .subroutine },
      { name := "a", kind := .matrix, baseType := some .doubleprecision, dimensions := ["n", "3"]
        isArgument := true },
      { name := "f", kind := .function, baseType := some .doubleprecision }]

theorem tables_ranked_sampleTable : Passes {} sampleRanks sampleTable ∧ sampleTable.Ranked ∧
    ∃ s, sampleTable.array? "a" = some s ∧ s.kind = .matrix ∧ ∀ reference terms row column,
      (Reference.bracket? s reference terms [row, column]).1 = some (matrixSubscript row column "n") := by
  have hsource : sampleRanks = _ := String.toList_ofList
  have htable : ((Progress.start {} (Card.read sampleRanks)).runAll
      (Stage.all.take 6)).analysis.symbols = sampleTable := by
    rw [hsource]
    decide +kernel
  have hpasses : Passes {} sampleRanks sampleTable := htable ▸ .stages (List.take_prefix 6 _)
  obtain ⟨hranked, -, hmatrix⟩ := tables_ranked hpasses
  obtain ⟨leading, second, hd, hbracket⟩ := hmatrix "a" _ rfl rfl
  obtain ⟨rfl, -⟩ := List.cons_eq_cons.1 hd
  exact ⟨hpasses, hranked, _, rfl, rfl, hbracket⟩

end Conversion

end FixedForm
