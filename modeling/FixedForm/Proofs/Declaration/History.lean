import FixedForm.Proofs.Stage.Findings
import FixedForm.Proofs.Stage.Heading
import FixedForm.Proofs.Symbol.Table

/-! The entries of type declarations, in the order in which they are read, and what is known of one
name on the way.  An entry of rank two or less settles its name for good; one of higher rank leaves
the kind open, so that the next entry can settle it still. -/
namespace FixedForm

/-- An entry of a type declaration, with the declaration and the line where it stands. -/
structure Declared where
  line : Line
  declaration : Declaration
  entry : DeclaredEntry

namespace Declared
variable (d : Declared)

def name : Text := d.entry.name

def rank : Nat := d.entry.dimensions.length

/-- The entry is one of the name `n`. -/
def names (n : Text) : Bool := d.name.lower == n.lower

/-- The kind that the entry gives its name: that of its rank, or a named constant. -/
def kind (constants : Assoc Text) : Kind :=
  match d.rank with
  | 0 => if constants.has d.name then .parameter else .scalar
  | 1 => .vector
  | 2 => .matrix
  | _ => .unknown

/-- The symbol has the kind, the type and the extents of the entry. -/
structure Fits (constants : Assoc Text) (s : Symbol) : Prop where
  kind : s.kind = d.kind constants
  baseType : s.baseType = some d.declaration.baseType
  dimensions : s.dimensions = d.entry.dimensions

variable {d} {constants : Assoc Text} {s : Symbol}

theorem kind_symbol : (d.entry.symbol d.declaration.baseType constants).kind = d.kind constants := by
  match h : d.entry.dimensions.length with
  | 0 =>
    cases hc : constants.get? d.entry.name <;>
      simp [DeclaredEntry.symbol, DeclaredEntry.kind, kind, rank, name, Assoc.has, h, hc]
  | 1 | 2 | r + 3 => simp [DeclaredEntry.symbol, DeclaredEntry.kind, kind, rank, h]

theorem kind_eq_unknown_iff : d.kind constants = .unknown ↔ 2 < d.rank := by
  rw [kind]
  match d.rank with
  | 0 => cases constants.has d.name <;> simp
  | 1 => simp
  | 2 => simp
  | r + 3 => exact ⟨fun _ => by omega, fun _ => rfl⟩

/-- No entry makes a name the function of a unit. -/
theorem kind_ne_function : d.kind constants ≠ .function := by
  rw [kind]
  match d.rank with
  | 0 => cases constants.has d.name <;> simp
  | 1 => simp
  | 2 => simp
  | r + 3 => simp

end Declared

/-- The entry that a piece of a declaration's list is. -/
def Declaration.entry? (d : Declaration) (piece : Text) : Option DeclaredEntry :=
  (DeclaredEntry.parse piece).1.map fun e =>
    { e with length := if d.baseType == .character then e.length <|> d.length else e.length }

/-- The entries of a line that is a type declaration. -/
def Line.declared (l : Line) : List Declared :=
  if l.shape == .declaration then
    match Declaration.parse? l.text with
    | none => []
    | some d => (d.list.splitCommas.1.filterMap d.entry?).map fun e => ⟨l, d, e⟩
  else []

/-- The line declares a local variable of that name. -/
def Draft.declaresName (n : Text) (d : Draft) : Bool :=
  (d.declares.map fun name => name.lower == n.lower).getD false

namespace Analysis

/-- An issue was found at a line. -/
def Noted (a : Analysis) (line : Nat) (issue : Issue) : Prop :=
  ∃ d ∈ a.diagnostics, Diagnostic.same d (.ofIssue line issue) = true

theorem Noted.mono {a a' : Analysis} {line : Nat} {issue : Issue} (h : a.Noted line issue)
    (hr : Reports a a') : a'.Noted line issue := by
  obtain ⟨found, hf⟩ := hr
  obtain ⟨d, hd, hs⟩ := h
  refine ⟨d, ?_, hs⟩
  rw [hf]
  refine List.foldlRecOn found Diagnostic.add (motive := fun ds => d ∈ ds) hd fun ds hds e _ => ?_
  rw [Diagnostic.add]
  split
  · exact hds
  · exact List.mem_append_left _ hds

theorem noted_report (a : Analysis) (line : Nat) (issue : Issue) :
    (a.report line issue).Noted line issue := by
  simp only [report, Noted, Diagnostic.add]
  split
  · next h =>
    obtain ⟨d, hd, hs⟩ := List.any_eq_true.1 h
    exact ⟨d, hd, by rw [Diagnostic.same_comm, hs]⟩
  · exact ⟨_, List.mem_append_right _ (List.mem_singleton_self _), Diagnostic.same_self _⟩

/-- What is known of the name `n` after its entries `es` were read, and the origins of the lines that
declare it.  Before the first entry it is unknown or an argument that nothing describes. -/
inductive History (a : Analysis) (n : Text) : (es : List Declared) → (made : List Nat) → Prop
  | unread (h : ∀ s, a.symbols.lookup? n = some s → s.kind = .unknown ∧ s.isArgument = true) :
    History a n [] []
  | read {wide later : List Declared} {e : Declared} {s : Symbol} {es : List Declared}
    {made : List Nat} (hes : es = wide ++ e :: later) (hwide : ∀ w ∈ wide, 2 < w.rank)
    (hrank : 2 < e.rank → later = []) (hs : a.symbols.lookup? n = some s) (hfits : e.Fits a.constants s)
    (hmade : made = if s.isArgument then [] else (es.head?.map (·.line.origin)).toList)
    (hnoted : ∀ d ∈ later, a.Noted d.line.id (.redeclared d.name)) : History a n es made

namespace History
variable {a a' : Analysis} {n : Text} {es : List Declared} {made : List Nat}

/-- What leaves the symbol and the constants alone, and only reports, leaves the history alone. -/
theorem mono (h : History a n es made) (hs : a'.symbols.lookup? n = a.symbols.lookup? n)
    (hc : a'.constants = a.constants) (hr : Reports a a') : History a' n es made := by
  cases h with
  | unread h => exact .unread (hs ▸ h)
  | read hes hwide hrank hsym hfits hmade hnoted =>
    exact .read hes hwide hrank (hs.trans hsym) (hc ▸ hfits) hmade
      fun d hd => (hnoted d hd).mono hr

theorem of_ne_nil (h : History a n es made) (hes : es ≠ []) : ∃ wide e later s,
    es = wide ++ e :: later ∧ (∀ w ∈ wide, 2 < w.rank) ∧ (2 < e.rank → later = []) ∧
      a.symbols.lookup? n = some s ∧ e.Fits a.constants s ∧
      made = (if s.isArgument then [] else (es.head?.map (·.line.origin)).toList) ∧
      ∀ d ∈ later, a.Noted d.line.id (.redeclared d.name) := by
  cases h with
  | unread => exact absurd rfl hes
  | read hes hwide hrank hs hfits hmade hnoted =>
    exact ⟨_, _, _, _, hes, hwide, hrank, hs, hfits, hmade, hnoted⟩

/-- The first entry of a name. -/
theorem first {e : Declared} {s : Symbol} (hs : a.symbols.lookup? n = some s)
    (hfits : e.Fits a.constants s) (hmade : made = if s.isArgument then [] else [e.line.origin]) :
    History a n [e] made :=
  .read (List.nil_append _).symm (by simp) (fun _ => rfl) hs hfits hmade (by simp)

theorem of_eq (h : History a n es made) (hs : a'.symbols = a.symbols)
    (hc : a'.constants = a.constants) (hr : Reports a a') : History a' n es made :=
  h.mono (by rw [hs]) hc hr

/-- Arguments that nothing describes yet can be added to the table. -/
theorem foldl_declare (h : History a n es made) {symbols : List Symbol}
    (hnew : ∀ t ∈ symbols, t.name.lower = n.lower → t.kind = .unknown ∧ t.isArgument = true)
    (hs : a'.symbols = symbols.foldl SymbolTable.declare a.symbols)
    (hc : a'.constants = a.constants) (hr : Reports a a') : History a' n es made := by
  cases h with
  | unread h =>
    refine .unread fun s hlook => ?_
    rw [hs] at hlook
    rcases SymbolTable.lookup?_foldl_declare symbols hlook with hold | ⟨t, ht, hname, rfl⟩
    · exact h s hold
    · exact hnew t ht hname
  | read hes hwide hrank hsym hfits hmade hnoted =>
    have hlook : a'.symbols.lookup? n = a.symbols.lookup? n := by
      rw [hs, SymbolTable.lookup?_foldl_of_some symbols hsym, hsym]
    exact (History.read hes hwide hrank hsym hfits hmade hnoted).mono hlook hc hr

end History

theorem quiet_symbols : Quiet symbols := fun _ _ _ => rfl

theorem quiet_constants : Quiet constants := fun _ _ _ => rfl

theorem reportAll_eq (a : Analysis) (line : Option Nat) (issues : List Issue) :
    (a.reportAll line issues).symbols = a.symbols ∧
      (a.reportAll line issues).constants = a.constants :=
  ⟨quiet_symbols.reportAll a line issues, quiet_constants.reportAll a line issues⟩

theorem History.reportAll {a : Analysis} {n : Text} {es : List Declared} {made : List Nat}
    (h : History a n es made) (line : Option Nat) (issues : List Issue) :
    History (a.reportAll line issues) n es made :=
  h.of_eq (a.reportAll_eq line issues).1 (a.reportAll_eq line issues).2 (a.reports_reportAll _ _)

/-- What an entry does to its own name, once the rank is reported. -/
theorem record_eq (a : Analysis) (line : Nat) (baseType : BaseType) (e : DeclaredEntry) :
    let b := a.reportAll line e.rankIssues
    let s := e.symbol baseType b.constants
    a.record line baseType e =
      if b.isOwnFunction e.name then
        ({ b with symbols := b.symbols.modify e.name fun f => { f with baseType := some baseType } },
          none)
      else if b.symbols.isUnknown e.name then
        (({ b with symbols := b.symbols.classify e.name s.kind s.baseType s.dimensions } :
            Analysis).reportAll line (if s.kind == .scalar then [] else s.storageIssues), none)
      else if b.symbols.has e.name then (b.report line (.redeclared e.name), none)
      else
        (({ b with symbols := b.symbols.declare s } : Analysis).reportAll line s.localDeclaration.2,
          some s.localDeclaration.1) := by
  simp only [record]
  split
  · rfl
  · split
    · split
      · rfl
      · rfl
    · rfl

section Record
variable {a : Analysis} {n : Text} {es : List Declared} {made : List Nat}

/-- An entry leaves other names alone. -/
theorem record_other (line : Nat) (baseType : BaseType) {e : DeclaredEntry}
    (hn : e.name.lower ≠ n.lower) :
    (a.record line baseType e).1.symbols.lookup? n = a.symbols.lookup? n := by
  have hb : (a.reportAll line e.rankIssues).symbols = a.symbols := (a.reportAll_eq _ _).1
  have hname : (e.symbol baseType (a.reportAll line e.rankIssues).constants).name = e.name := rfl
  rw [record_eq, ← hb]
  split
  · rw [SymbolTable.lookup?_modify, if_neg hn.symm]
    exact fun _ => rfl
  · split
    · rw [(reportAll_eq _ _ _).1, SymbolTable.lookup?_classify, if_neg fun h => hn h.1.symm]
    · split
      · rfl
      · rw [(reportAll_eq _ _ _).1, SymbolTable.lookup?_declare, hname, if_neg hn, Option.or_none]

theorem constants_record (line : Nat) (baseType : BaseType) (e : DeclaredEntry) :
    (a.record line baseType e).1.constants = a.constants := by
  have hb : (a.reportAll line e.rankIssues).constants = a.constants := (a.reportAll_eq _ _).2
  rw [record_eq]
  split
  · exact hb
  · split
    · exact (reportAll_eq _ _ _).2.trans hb
    · split
      · exact hb
      · exact (reportAll_eq _ _ _).2.trans hb

theorem History.record_other (h : History a n es made) (line : Nat) (baseType : BaseType)
    {e : DeclaredEntry} (hn : e.name.lower ≠ n.lower) :
    History (a.record line baseType e).1 n es made :=
  h.mono (Analysis.record_other line baseType hn) (constants_record line baseType e)
    (a.reports_record line baseType e)

variable {d : Declared} {t : Symbol}

/-- An entry of a new name declares it, in the output and in the table. -/
theorem record_free {e : DeclaredEntry} (h : a.symbols.lookup? e.name = none) (line : Nat)
    (baseType : BaseType) :
    (a.record line baseType e).2 = some (e.symbol baseType a.constants).localDeclaration.1 ∧
      (a.record line baseType e).1.symbols.lookup? e.name =
        some { e.symbol baseType a.constants with name := e.name.lower } := by
  obtain ⟨hs, hc⟩ := a.reportAll_eq line e.rankIssues
  have hown : (a.reportAll line e.rankIssues).isOwnFunction e.name = false := by
    rw [isOwnFunction, hs, h]
    rfl
  have hunknown : a.symbols.isUnknown e.name = false := by
    rw [SymbolTable.isUnknown, h]
    rfl
  have hhas : a.symbols.has e.name = false := by
    rw [SymbolTable.has, h]
    rfl
  simp only [record_eq, hown, hs, hc, hunknown, hhas, Bool.false_eq_true, if_false]
  refine ⟨trivial, ?_⟩
  rw [(reportAll_eq _ _ _).1, SymbolTable.lookup?_declare, h, Option.none_or]
  exact if_pos rfl

theorem record_new (h : a.symbols.lookup? d.name = none) :
    let r := a.record d.line.id d.declaration.baseType d.entry
    (∃ s, r.1.symbols.lookup? d.name = some s ∧ d.Fits a.constants s ∧ s.isArgument = false) ∧
      r.2.isSome = true := by
  obtain ⟨htext, hlookup⟩ := record_free h d.line.id d.declaration.baseType
  exact ⟨⟨_, hlookup, ⟨Declared.kind_symbol, rfl, rfl⟩, rfl⟩, by rw [htext]; rfl⟩

/-- Only what is known as a function can be the result of the unit. -/
theorem not_ownFunction (h : a.symbols.lookup? d.name = some t) (hf : t.kind ≠ .function) :
    (a.reportAll d.line.id d.entry.rankIssues).isOwnFunction d.entry.name = false := by
  rw [isOwnFunction, (a.reportAll_eq _ _).1, show a.symbols.lookup? d.entry.name = some t from h]
  simp [hf]

/-- An entry of a name of unknown kind describes it. -/
theorem record_unknown (h : a.symbols.lookup? d.name = some t) (hu : t.kind = .unknown) :
    let r := a.record d.line.id d.declaration.baseType d.entry
    (∃ s, r.1.symbols.lookup? d.name = some s ∧ d.Fits a.constants s ∧
      s.isArgument = t.isArgument) ∧ r.2 = none := by
  obtain ⟨hs, hc⟩ := a.reportAll_eq d.line.id d.entry.rankIssues
  have hown := not_ownFunction h (by simp [hu])
  have hunknown : a.symbols.isUnknown d.entry.name = true := SymbolTable.isUnknown_iff.2 ⟨t, h, hu⟩
  simp only [record_eq, hown, hs, hc, hunknown, Bool.false_eq_true, if_false, if_true]
  refine ⟨⟨{ t with
    kind := (d.entry.symbol d.declaration.baseType a.constants).kind
    baseType := some d.declaration.baseType
    dimensions := d.entry.dimensions }, ?_, ⟨Declared.kind_symbol, rfl, rfl⟩, rfl⟩, trivial⟩
  rw [(reportAll_eq _ _ _).1, SymbolTable.lookup?_classify, if_pos ⟨rfl, hunknown⟩, h]
  rfl

/-- An entry of a name that is settled is reported. -/
theorem record_settled (h : a.symbols.lookup? d.name = some t) (hu : t.kind ≠ .unknown)
    (hf : t.kind ≠ .function) :
    let r := a.record d.line.id d.declaration.baseType d.entry
    r.1.symbols = a.symbols ∧ r.1.Noted d.line.id (.redeclared d.name) ∧ r.2 = none := by
  obtain ⟨hs, -⟩ := a.reportAll_eq d.line.id d.entry.rankIssues
  have hown := not_ownFunction h hf
  have hunknown : a.symbols.isUnknown d.entry.name = false := by
    rw [SymbolTable.isUnknown, show a.symbols.lookup? d.entry.name = some t from h]
    simp [hu]
  have hhas : a.symbols.has d.entry.name = true := by
    rw [SymbolTable.has, show a.symbols.lookup? d.entry.name = some t from h]
    rfl
  simp only [record_eq, hown, hs, hunknown, hhas, Bool.false_eq_true, if_false, if_true]
  exact ⟨hs, noted_report _ _ _, trivial⟩

/-- An entry is added to the history of its name. -/
theorem History.record_self (h : History a n es made) (hd : d.names n = true) :
    let r := a.record d.line.id d.declaration.baseType d.entry
    History r.1 n (es ++ [d]) (made ++ if r.2.isSome then [d.line.origin] else []) := by
  have hn : d.name.lower = n.lower := by simpa [Declared.names, Declared.name] using hd
  have hlook (b : Analysis) : b.symbols.lookup? d.name = b.symbols.lookup? n :=
    SymbolTable.lookup?_congr hn
  have hconstants := constants_record (a := a) d.line.id d.declaration.baseType d.entry
  have hreports := a.reports_record d.line.id d.declaration.baseType d.entry
  intro r
  cases h with
  | unread hunread =>
    cases ht : a.symbols.lookup? n with
    | none =>
      obtain ⟨⟨s, hs, hfits, harg⟩, hmade⟩ := record_new ((hlook a).trans ht)
      refine .first ((hlook _).symm.trans hs) (hconstants ▸ hfits) ?_
      simp [r, harg, hmade]
    | some t =>
      obtain ⟨hu, harg⟩ := hunread t ht
      obtain ⟨⟨s, hs, hfits, hsame⟩, hmade⟩ := record_unknown ((hlook a).trans ht) hu
      refine .first ((hlook _).symm.trans hs) (hconstants ▸ hfits) ?_
      simp [r, hsame, harg, hmade]
  | @read wide later e t _ _ hes hwide hrank ht hfit hmade hnoted =>
    have hhead : (es ++ [d]).head? = es.head? := by
      rw [hes]
      cases wide <;> rfl
    by_cases hr : 2 < e.rank
    · -- the entries so far left the kind open
      have hu : t.kind = .unknown := hfit.kind.trans (Declared.kind_eq_unknown_iff.2 hr)
      obtain ⟨⟨s, hs, hfits, hsame⟩, hnone⟩ := record_unknown ((hlook a).trans ht) hu
      have hes' : es ++ [d] = (wide ++ [e]) ++ d :: [] := by simp [hes, hrank hr]
      refine .read hes' (fun w hw => ?_) (fun _ => rfl) ((hlook _).symm.trans hs)
        (hconstants ▸ hfits) ?_ (by simp)
      · rcases List.mem_append.1 hw with hw | hw
        · exact hwide w hw
        · exact List.mem_singleton.1 hw ▸ hr
      · simp [r, hsame, hnone, hhead, hmade]
    · have hu : t.kind ≠ .unknown := fun hu =>
        hr (Declared.kind_eq_unknown_iff.1 (hfit.kind.symm.trans hu))
      have hf : t.kind ≠ .function := fun hf => Declared.kind_ne_function (hfit.kind.symm.trans hf)
      obtain ⟨hs, hnote, hnone⟩ := record_settled ((hlook a).trans ht) hu hf
      have hes' : es ++ [d] = wide ++ e :: (later ++ [d]) := by simp [hes]
      refine .read hes' hwide (fun h => absurd h hr) (hs ▸ ht) (hconstants ▸ hfit) ?_ fun x hx => ?_
      · simp [r, hnone, hhead, hmade]
      · rcases List.mem_append.1 hx with hx | hx
        · exact (hnoted x hx).mono hreports
        · exact List.mem_singleton.1 hx ▸ hnote

theorem recordAll_cons_none {c : Declaration} {piece : Text} (h : c.entry? piece = none) (a : Analysis)
    (line : Nat) (pieces : List Text) : a.recordAll line c (piece :: pieces) =
      (a.reportAll line (DeclaredEntry.parse piece).2).recordAll line c pieces := by
  simp only [recordAll, Option.map_eq_none_iff.1 h]

theorem recordAll_cons_some {c : Declaration} {piece : Text} {e : DeclaredEntry}
    (h : c.entry? piece = some e) (a : Analysis) (line : Nat) (pieces : List Text) :
    let r := (a.reportAll line (DeclaredEntry.parse piece).2).record line c.baseType e
    let rest := r.1.recordAll line c pieces
    a.recordAll line c (piece :: pieces) =
      (rest.1, (r.2.map fun t =>
        { text := c.indent ++ t, shape := .declaration, declares := some e.name }).toList ++ rest.2) := by
  obtain ⟨written, hw, rfl⟩ := Option.map_eq_some_iff.1 h
  simp only [recordAll, hw]

/-- The pieces of a declaration's list, one after the other. -/
theorem History.recordAll (h : History a n es made) (l : Line) (c : Declaration) (pieces : List Text) :
    let r := a.recordAll l.id c pieces
    History r.1 n
      (es ++ ((pieces.filterMap c.entry?).map fun e => ⟨l, c, e⟩).filter (·.names n))
      (made ++ (r.2.filter (·.declaresName n)).map fun _ => l.origin) := by
  induction pieces generalizing a es made with
  | nil => simpa [Analysis.recordAll] using h
  | cons piece pieces ih =>
    have hissues := h.reportAll l.id (DeclaredEntry.parse piece).2
    cases hentry : c.entry? piece with
    | none =>
      rw [List.filterMap_cons_none hentry, recordAll_cons_none hentry]
      exact ih hissues
    | some e =>
      rw [List.filterMap_cons_some hentry, recordAll_cons_some hentry, List.map_cons, List.filter_cons]
      generalize a.reportAll l.id (DeclaredEntry.parse piece).2 = b at hissues ⊢
      have hdraft (t : Text) : Draft.declaresName n
          { text := c.indent ++ t, shape := .declaration, declares := some e.name } =
            Declared.names ⟨l, c, e⟩ n := rfl
      cases hd : Declared.names ⟨l, c, e⟩ n with
      | true =>
        have hrest := ih (hissues.record_self hd)
        cases htext : (b.record l.id c.baseType e).2 <;> simpa [htext, hdraft, hd] using hrest
      | false =>
        have hne : e.name.lower ≠ n.lower := by simpa [Declared.names, Declared.name] using hd
        have hrest := ih (hissues.record_other l.id c.baseType hne)
        cases htext : (b.record l.id c.baseType e).2 <;> simpa [htext, hdraft, hd] using hrest

/-- A whole declaration. -/
theorem History.declare (h : History a n es made) {l : Line} (hl : l.shape = .declaration)
    {c : Declaration} (hc : Declaration.parse? l.text = some c) :
    let r := a.declare l.id c
    History r.1 n (es ++ l.declared.filter (·.names n))
      (made ++ (r.2.filter (·.declaresName n)).map fun _ => l.origin) := by
  have hdeclared : l.declared = (c.list.splitCommas.1.filterMap c.entry?).map fun e => ⟨l, c, e⟩ := by
    simp [Line.declared, hl, hc]
  rw [hdeclared]
  exact (h.reportAll l.id (c.list.splitCommas.2.map .mismatch)).recordAll l c c.list.splitCommas.1

end Record

end Analysis

end FixedForm
