import FixedForm.Call.Resolution
import FixedForm.Declaration.Record
import FixedForm.Proofs.Symbol.Table
import FixedForm.Proofs.Text.Lower
import Mathlib.Data.List.Nodup

/-! Kinds and ranks.  The kind of a symbol and the number of its extents say the same, and every change of
a table keeps it so: a name is declared, described once, typed or marked as a procedure. -/
namespace FixedForm
open Text (lower_lower)

/-- The kind that goes with a number of extents.  A name of unknown kind has none of them, or too many. -/
structure Kind.Ranks (kind : Kind) (dimensions : List Text) : Prop where
  vector : kind = .vector ↔ dimensions.length = 1
  matrix : kind = .matrix ↔ dimensions.length = 2
  plain : kind = .scalar ∨ kind = .parameter ∨ kind = .subroutine ∨ kind = .function → dimensions = []
  unknown : kind = .unknown → dimensions = [] ∨ 3 ≤ dimensions.length

theorem Kind.ranks_nil {kind : Kind} (h : kind.isArray = false) : kind.Ranks [] := by
  cases kind with
  | vector | matrix => cases h
  | scalar | parameter | subroutine | function | unknown => constructor <;> simp

namespace DeclaredEntry

theorem ranks_kind (e : DeclaredEntry) : e.kind.Ranks e.dimensions := by
  rw [kind]
  match e.dimensions with
  | [] => exact Kind.ranks_nil rfl
  | [_] => constructor <;> simp
  | [_, _] => constructor <;> simp
  | _ :: _ :: _ :: _ => constructor <;> simp

/-- An entry describes its name with a kind that goes with its extents; a named constant has none. -/
theorem ranks_symbol (e : DeclaredEntry) (baseType : BaseType) (constants : Assoc Text) :
    (e.symbol baseType constants).kind.Ranks e.dimensions := by
  by_cases hk : e.kind = .scalar
  · rw [e.ranks_kind.plain (.inl hk)]
    refine Kind.ranks_nil ?_
    cases hc : constants.get? e.name <;> simp [symbol, hk, hc, Kind.isArray]
  · have hkind : (e.symbol baseType constants).kind = e.kind := by simp [symbol, hk]
    rw [hkind]
    exact e.ranks_kind

end DeclaredEntry

namespace SymbolTable

/-- Every symbol is held once, under its name in lower case, and its kind goes with its extents. -/
structure Ranked (table : SymbolTable) : Prop where
  lower : ∀ s ∈ table.entries, s.name.lower = s.name
  distinct : (table.entries.map (·.name)).Nodup
  ranks : ∀ s ∈ table.entries, s.kind.Ranks s.dimensions

variable {table : SymbolTable} {name : Text} {s : Symbol}

theorem mem_of_lookup? (h : table.lookup? name = some s) : s ∈ table.entries ∧ s.name = name.lower :=
  ⟨List.mem_of_find?_eq_some h, by simpa using List.find?_some h⟩

namespace Ranked

theorem empty : Ranked {} := ⟨by simp, .nil, by simp⟩

theorem lookup?_name (h : table.Ranked) (hs : s ∈ table.entries) : table.lookup? s.name = some s := by
  cases hf : table.lookup? s.name with
  | none =>
    have hno := List.find?_eq_none.1 hf s hs
    simp [h.lower s hs] at hno
  | some t =>
    obtain ⟨ht, hname⟩ := mem_of_lookup? hf
    rw [h.lower s hs] at hname
    rw [List.inj_on_of_nodup_map h.distinct ht hs hname]

theorem ranks_lookup? (h : table.Ranked) (hs : table.lookup? name = some s) : s.kind.Ranks s.dimensions :=
  h.ranks s (mem_of_lookup? hs).1

theorem declare (h : table.Ranked) (hs : s.kind.Ranks s.dimensions) : (table.declare s).Ranked := by
  rw [SymbolTable.declare]
  split
  · exact h
  · next hnew =>
    have habsent : s.name.lower ∉ table.entries.map (·.name) := by
      intro hm
      obtain ⟨t, ht, hname⟩ := List.mem_map.1 hm
      have hlook := h.lookup?_name ht
      rw [hname, lookup?_congr (lower_lower s.name)] at hlook
      simp [has, hlook] at hnew
    refine ⟨fun t ht => ?_, ?_, fun t ht => ?_⟩
    · rcases List.mem_append.1 ht with ht | ht
      · exact h.lower t ht
      · rw [List.mem_singleton.1 ht]
        exact lower_lower s.name
    · rw [List.map_append, List.nodup_append]
      refine ⟨h.distinct, List.nodup_singleton _, fun n hn m hm he => ?_⟩
      rw [he, List.mem_singleton.1 hm] at hn
      exact habsent hn
    · rcases List.mem_append.1 ht with ht | ht
      · exact h.ranks t ht
      · rw [List.mem_singleton.1 ht]
        exact hs

theorem foldl_declare {symbols : List Symbol} (h : table.Ranked)
    (hs : ∀ s ∈ symbols, s.kind.Ranks s.dimensions) :
    (symbols.foldl SymbolTable.declare table).Ranked :=
  List.foldlRecOn symbols SymbolTable.declare h fun _ ht s hm => ht.declare (hs s hm)

/-- A change of the symbol of one name, which keeps the name. -/
theorem modify {f : Symbol → Symbol} (h : table.Ranked) (hname : ∀ s, (f s).name = s.name)
    (hf : ∀ s, table.lookup? name = some s → (f s).kind.Ranks (f s).dimensions) :
    (table.modify name f).Ranked := by
  have hkept (s : Symbol) : (if s.name == name.lower then f s else s).name = s.name := by
    split
    · exact hname s
    · rfl
  refine ⟨fun t ht => ?_, ?_, fun t ht => ?_⟩
  · obtain ⟨s, hs, rfl⟩ := List.mem_map.1 ht
    rw [hkept]
    exact h.lower s hs
  · have hnames : (table.modify name f).entries.map (·.name) = table.entries.map (·.name) := by
      rw [SymbolTable.modify, List.map_map]
      exact List.map_congr_left fun s _ => hkept s
    rw [hnames]
    exact h.distinct
  · obtain ⟨s, hs, rfl⟩ := List.mem_map.1 ht
    split
    · next hn =>
      have hlook := h.lookup?_name hs
      rw [eq_of_beq hn, lookup?_congr (lower_lower name)] at hlook
      exact hf s hlook
    · exact h.ranks s hs

theorem classify {kind : Kind} {dimensions : List Text} (h : table.Ranked) (hk : kind.Ranks dimensions)
    (name : Text) (baseType : Option BaseType) :
    (table.classify name kind baseType dimensions).Ranked := by
  rw [SymbolTable.classify]
  split
  · exact h.modify (fun _ => rfl) fun _ _ => hk
  · exact h

/-- A matrix has a leading extent. -/
theorem matrix_dimensions (h : table.Ranked) (hs : table.lookup? name = some s) (hk : s.kind = .matrix) :
    ∃ leading second, s.dimensions = [leading, second] :=
  List.length_eq_two.1 ((h.ranks_lookup? hs).matrix.1 hk)

end Ranked

end SymbolTable

namespace Resolution
open SymbolTable (Ranked)
variable {table : SymbolTable} {name other : Text}

/-- The name has no extents. -/
def Flat (table : SymbolTable) (name : Text) : Prop :=
  ∀ s, table.lookup? name = some s → s.dimensions = []

theorem flat_of_isCallable (h : table.Ranked) (hc : table.isCallable name = true) : Flat table name := by
  intro s hs
  refine (h.ranks_lookup? hs).plain (.inl ?_)
  rw [SymbolTable.isCallable, hs] at hc
  simp only [Option.map_some, Option.getD_some, Bool.and_eq_true, beq_iff_eq] at hc
  exact hc.1

theorem ranked_markSubroutine (h : table.Ranked) (name : Text) : (markSubroutine table name).Ranked := by
  rw [markSubroutine]
  split
  · exact h.classify (Kind.ranks_nil rfl) name none
  · exact h.declare (Kind.ranks_nil rfl)

theorem flat_markSubroutine (h : Flat table other) (name : Text) : Flat (markSubroutine table name) other := by
  intro s hs
  rw [markSubroutine] at hs
  split at hs
  · rw [SymbolTable.lookup?_classify] at hs
    split at hs
    · obtain ⟨t, -, rfl⟩ := Option.map_eq_some_iff.1 hs
      rfl
    · exact h s hs
  · rw [SymbolTable.lookup?_declare, Option.or_eq_some_iff] at hs
    rcases hs with hs | ⟨-, hs⟩
    · exact h s hs
    · split at hs
      · rw [← Option.some.inj hs]
      · cases hs

theorem ranked_markFunction (h : table.Ranked) (hn : Flat table name) : (markFunction table name).Ranked := by
  refine h.modify (fun _ => rfl) fun s hs => ?_
  rw [hn s hs]
  exact Kind.ranks_nil rfl

theorem flat_markFunction (h : Flat table other) (name : Text) : Flat (markFunction table name) other := by
  intro s hs
  have hname (s : Symbol) : ({ s with kind := .function } : Symbol).name = s.name := rfl
  rw [markFunction, SymbolTable.lookup?_modify hname] at hs
  split at hs
  · obtain ⟨t, ht, rfl⟩ := Option.map_eq_some_iff.1 hs
    exact h t ht
  · exact h s hs

theorem ranked_subroutines (h : table.Ranked) (names : List Text) :
    (names.foldl markSubroutine table).Ranked :=
  List.foldlRecOn names markSubroutine h fun _ ht name _ => ranked_markSubroutine ht name

theorem flat_subroutines (h : Flat table other) (names : List Text) :
    Flat (names.foldl markSubroutine table) other :=
  List.foldlRecOn names markSubroutine (motive := fun t => Flat t other) h
    fun _ ht name _ => flat_markSubroutine ht name

/-- Names without extents, of which some are one name in lower case. -/
theorem ranked_functions {names : List Text} (h : table.Ranked) (hn : ∀ name ∈ names, Flat table name) :
    (names.foldl markFunction table).Ranked := by
  have hrun := List.foldlRecOn names markFunction
    (motive := fun t : SymbolTable => t.Ranked ∧ ∀ name ∈ names, Flat t name) ⟨h, hn⟩
    fun t ht name hm =>
      ⟨ranked_markFunction ht.1 (ht.2 name hm), fun other ho => flat_markFunction (ht.2 other ho) name⟩
  exact hrun.1

end Resolution

end FixedForm
