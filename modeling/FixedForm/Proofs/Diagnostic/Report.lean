import FixedForm.Analysis

/-! Reported findings.  A step of a stage may report, and then the new findings follow the old ones;
no finding is there twice. -/
namespace FixedForm

namespace Diagnostic

/-- No two of the findings are the same. -/
def Distinct (ds : List Diagnostic) : Prop := ds.Pairwise fun d e => same d e = false

theorem same_comm (d e : Diagnostic) : same d e = same e d := by
  simp only [same, BEq.comm]

theorem same_self (d : Diagnostic) : same d d = true := by simp [same]

theorem Distinct.add {ds : List Diagnostic} (h : Distinct ds) (d : Diagnostic) :
    Distinct (add ds d) := by
  rw [Diagnostic.add]
  split
  · exact h
  · next hnew =>
    refine List.pairwise_append.2 ⟨h, List.pairwise_singleton _ _, fun e he f hf => ?_⟩
    obtain rfl := List.mem_singleton.1 hf
    rw [same_comm]
    simpa using fun hs => hnew (List.any_eq_true.2 ⟨e, he, hs⟩)

theorem any_add {ds : List Diagnostic} {d e : Diagnostic} (h : ds.any (same e) = true ∨ d = e) :
    (add ds d).any (same e) = true := by
  rw [add]
  split
  · next hold =>
    rcases h with h | rfl
    · exact h
    · exact hold
  · rcases h with h | rfl
    · simp [h]
    · simp [same_self]

/-- Nothing that was found is lost. -/
theorem any_foldl_add {found ds : List Diagnostic} {e : Diagnostic}
    (h : ds.any (same e) = true ∨ e ∈ found) : (found.foldl add ds).any (same e) = true := by
  induction found generalizing ds with
  | nil => exact h.resolve_right List.not_mem_nil
  | cons d found ih =>
    refine ih ?_
    rcases h with h | h
    · exact .inl (any_add (.inl h))
    · exact (List.mem_cons.1 h).imp_left fun hd => any_add (.inr hd.symm)

theorem mem_foldl_add {found ds : List Diagnostic} {d : Diagnostic} (h : d ∈ ds) : d ∈ found.foldl add ds := by
  induction found generalizing ds with
  | nil => exact h
  | cons e found ih =>
    refine ih ?_
    rw [add]
    split
    · exact h
    · exact List.mem_append_left _ h

/-- Of the codes, nothing is lost by leaving a finding out that is there. -/
theorem exists_code_add (code : Code) (ds : List Diagnostic) (d : Diagnostic) :
    (∃ e ∈ add ds d, e.code = code) ↔ (∃ e ∈ ds, e.code = code) ∨ d.code = code := by
  rw [add]
  split
  · next hold =>
    obtain ⟨e, he, hs⟩ := List.any_eq_true.1 hold
    simp only [same, Bool.and_eq_true, beq_iff_eq] at hs
    exact ⟨.inl, fun h => h.elim id fun h => ⟨e, he, hs.1.1.symm.trans h⟩⟩
  · simp [or_and_right, exists_or]

theorem exists_code_foldl_add (code : Code) (found ds : List Diagnostic) :
    (∃ e ∈ found.foldl add ds, e.code = code) ↔
      (∃ e ∈ ds, e.code = code) ∨ ∃ e ∈ found, e.code = code := by
  induction found generalizing ds with
  | nil => simp
  | cons d found ih => simp [ih, exists_code_add, or_assoc]

/-- A finding that is there is there once. -/
theorem Distinct.countP_same {ds : List Diagnostic} (h : Distinct ds) {d : Diagnostic}
    (hd : ds.any (same d) = true) : ds.countP (same d) = 1 := by
  induction ds with
  | nil => cases hd
  | cons e ds ih =>
    obtain ⟨he, hds⟩ := List.pairwise_cons.1 h
    cases hde : same d e with
    | true =>
      have hnone : ds.countP (same d) = 0 := by
        refine List.countP_eq_zero.2 fun f hf hdf => ?_
        have hef : same e f = true := by
          simp only [same, Bool.and_eq_true, beq_iff_eq] at hde hdf ⊢
          exact ⟨⟨hde.1.1.symm.trans hdf.1.1, hde.1.2.symm.trans hdf.1.2⟩, hde.2.symm.trans hdf.2⟩
        simp [he f hf] at hef
      rw [List.countP_cons_of_pos hde, hnone]
    | false =>
      rw [List.any_cons, hde, Bool.false_or] at hd
      rw [List.countP_cons_of_neg (by simp [hde]), ih hds hd]

section Filter
variable {p : Diagnostic → Bool}

theorem filter_add (hp : ∀ d e, same d e = true → p d = p e) (ds : List Diagnostic) (d : Diagnostic) :
    (add ds d).filter p = if p d then add (ds.filter p) d else ds.filter p := by
  cases hd : p d with
  | true =>
    have hany : (ds.filter p).any (same d) = ds.any (same d) := by
      rw [List.any_filter]
      congr 1
      funext e
      cases hs : same d e with
      | true => rw [← hp d e hs, hd, Bool.and_self]
      | false => rw [Bool.and_false]
    rw [if_pos rfl, add, add, hany]
    split
    · rfl
    · simp [hd]
  | false =>
    rw [if_neg Bool.false_ne_true, add]
    split
    · rfl
    · simp [hd]

/-- Findings of one sort are not affected by the others. -/
theorem filter_foldl_add (hp : ∀ d e, same d e = true → p d = p e) (found ds : List Diagnostic) :
    (found.foldl add ds).filter p = (found.filter p).foldl add (ds.filter p) := by
  induction found generalizing ds with
  | nil => rfl
  | cons d found ih =>
    rw [List.foldl_cons, ih, filter_add hp, List.filter_cons]
    cases p d <;> rfl

end Filter

theorem foldl_add_of_distinct {found ds : List Diagnostic} (h : Distinct (ds ++ found)) :
    found.foldl add ds = ds ++ found := by
  induction found generalizing ds with
  | nil => simp
  | cons d found ih =>
    have hnew : ds.any (same d) = false := by
      refine List.any_eq_false.2 fun e he => ?_
      have hne := (List.pairwise_append.1 h).2.2 e he d (by simp)
      rw [same_comm]
      simp [hne]
    rw [List.foldl_cons, add, hnew, if_neg Bool.false_ne_true, ih (by simpa using h), List.append_assoc,
      List.singleton_append]

end Diagnostic

namespace Analysis
open Diagnostic (add)

theorem diagnostics_reportAll (a : Analysis) (line : Option Nat) (issues : List Issue) :
    (a.reportAll line issues).diagnostics = (issues.map (.ofIssue line)).foldl add a.diagnostics := by
  induction issues generalizing a with
  | nil => rfl
  | cons issue issues ih => exact ih (a.report line issue)

/-- The findings of `a'` are those of `a` and some that were reported after them. -/
def Reports (a a' : Analysis) : Prop :=
  ∃ found : List Diagnostic, a'.diagnostics = found.foldl add a.diagnostics

namespace Reports
variable {a a' a'' : Analysis}

theorem of_eq (h : a'.diagnostics = a.diagnostics) : Reports a a' := ⟨[], h⟩

theorem refl (a : Analysis) : Reports a a := of_eq rfl

theorem trans (h : Reports a a') (h' : Reports a' a'') : Reports a a'' := by
  obtain ⟨found, hf⟩ := h
  obtain ⟨found', hf'⟩ := h'
  exact ⟨found ++ found', by rw [List.foldl_append, ← hf, hf']⟩

theorem distinct (h : Reports a a') (ha : Diagnostic.Distinct a.diagnostics) :
    Diagnostic.Distinct a'.diagnostics := by
  obtain ⟨found, hf⟩ := h
  rw [hf]
  clear hf
  generalize a.diagnostics = ds at ha
  induction found generalizing ds with
  | nil => exact ha
  | cons d found ih => exact ih _ (ha.add d)

theorem mem (h : Reports a a') {d : Diagnostic} (hd : d ∈ a.diagnostics) : d ∈ a'.diagnostics := by
  obtain ⟨found, hf⟩ := h
  rw [hf]
  exact Diagnostic.mem_foldl_add hd

/-- A state that holds an analysis, and steps that report. -/
theorem foldl {β γ : Type} (view : β → Analysis) {f : β → γ → β}
    (h : ∀ s x, Reports (view s) (view (f s x))) (xs : List γ) (s : β) :
    Reports (view s) (view (xs.foldl f s)) := by
  induction xs generalizing s with
  | nil => exact refl _
  | cons x xs ih => exact (h s x).trans (ih (f s x))

end Reports

theorem reports_report (a : Analysis) (line : Option Nat) (issue : Issue) :
    Reports a (a.report line issue) :=
  ⟨[.ofIssue line issue], rfl⟩

theorem reports_reportAll (a : Analysis) (line : Option Nat) (issues : List Issue) :
    Reports a (a.reportAll line issues) :=
  Reports.foldl id (fun a issue => a.reports_report line issue) issues a

theorem reports_ite {p : Prop} [Decidable p] {a b c : Analysis} (hb : p → Reports a b)
    (hc : ¬ p → Reports a c) : Reports a (if p then b else c) := by
  split
  · next h => exact hb h
  · next h => exact hc h

end Analysis

end FixedForm
