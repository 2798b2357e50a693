import FixedForm.Symbol.Table

/-! Looking up a name after a change of the table.  Names are compared in lower case; a declaration
never takes the place of an older one. -/
namespace FixedForm.SymbolTable
variable {table : SymbolTable} {name other : Text}

theorem lookup?_congr (h : name.lower = other.lower) : table.lookup? name = table.lookup? other := by
  rw [lookup?, lookup?, h]

theorem lookup?_declare (s : Symbol) : (table.declare s).lookup? name =
    (table.lookup? name).or
      (if s.name.lower = name.lower then some { s with name := s.name.lower } else none) := by
  rw [declare]
  split
  · next h =>
    by_cases hs : s.name.lower = name.lower
    · rw [has, lookup?_congr hs] at h
      obtain ⟨t, ht⟩ := Option.isSome_iff_exists.1 h
      rw [ht, Option.some_or]
    · rw [if_neg hs, Option.or_none]
  · rw [lookup?, List.find?_append, lookup?]
    congr 1
    by_cases hs : s.name.lower = name.lower <;> simp [hs]

/-- Declaring a list of symbols: a name that is there stays, and a new one is that of a symbol of the
list. -/
theorem lookup?_foldl_declare (symbols : List Symbol) {s : Symbol}
    (h : (symbols.foldl declare table).lookup? name = some s) : table.lookup? name = some s ∨
      ∃ t ∈ symbols, t.name.lower = name.lower ∧ s = { t with name := t.name.lower } := by
  induction symbols generalizing table with
  | nil => exact .inl h
  | cons t symbols ih =>
    rcases ih h with hold | ⟨u, hu, hs⟩
    · rw [lookup?_declare, Option.or_eq_some_iff] at hold
      rcases hold with hold | ⟨-, hnew⟩
      · exact .inl hold
      · split at hnew
        · next hn => exact .inr ⟨t, by simp, hn, (Option.some.inj hnew).symm⟩
        · cases hnew
    · exact .inr ⟨u, by simp [hu], hs⟩

theorem lookup?_foldl_of_some (symbols : List Symbol) {s : Symbol} (h : table.lookup? name = some s) :
    (symbols.foldl declare table).lookup? name = some s := by
  induction symbols generalizing table with
  | nil => exact h
  | cons t symbols ih => exact ih (by rw [lookup?_declare, h, Option.some_or])

theorem lookup?_modify {f : Symbol → Symbol} (hf : ∀ s, (f s).name = s.name) :
    (table.modify other f).lookup? name =
      if name.lower = other.lower then (table.lookup? name).map f else table.lookup? name := by
  have hname (s : Symbol) : (if s.name == other.lower then f s else s).name = s.name := by
    split
    · exact hf s
    · rfl
  rw [modify, lookup?, List.find?_map]
  have hfind : ((fun s : Symbol => s.name == name.lower) ∘ fun s =>
      if s.name == other.lower then f s else s) = fun s => s.name == name.lower :=
    funext fun s => by rw [Function.comp_apply, hname]
  rw [hfind, lookup?]
  cases h : table.entries.find? fun s => s.name == name.lower with
  | none => simp
  | some s =>
    have hs : s.name = name.lower := by simpa using List.find?_some h
    by_cases hn : name.lower = other.lower <;> simp [hs, hn]

theorem isUnknown_iff : table.isUnknown name = true ↔
    ∃ s, table.lookup? name = some s ∧ s.kind = .unknown := by
  rw [isUnknown]
  cases table.lookup? name <;> simp

theorem lookup?_classify {kind : Kind} {baseType : Option BaseType} {dimensions : List Text} :
    (table.classify other kind baseType dimensions).lookup? name =
      if name.lower = other.lower ∧ table.isUnknown other = true then
        (table.lookup? name).map fun s => { s with kind, baseType, dimensions }
      else table.lookup? name := by
  rw [classify]
  split
  · next h =>
    rw [lookup?_modify]
    · simp [h]
    · exact fun _ => rfl
  · next h => simp [h]

end FixedForm.SymbolTable
