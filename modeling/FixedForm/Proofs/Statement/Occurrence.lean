import FixedForm.Proofs.Reference.Part
import FixedForm.Proofs.Statement.Label
import FixedForm.Proofs.Statement.Opener
import FixedForm.Proofs.Text.Quoted

/-! Where a name stands in a statement: between two texts, as a whole word, and outside the literals. -/
namespace FixedForm
open Text
open Reference (EndsOutside)

/-- The text ends outside its literals. -/
def Text.EndsInCode (u : Text) : Prop := Quoted (fun _ => True) false u

/-- `w` is a name that stands as a whole between `u` and `v`, outside literals and not behind a point. -/
structure Occurs (t u w v : Text) : Prop where
  text_eq : t = u ++ (w ++ v)
  name : IsName w
  code : EndsInCode u
  before : EndsOutside isOperand u
  after : StartsOutside isWord v

/-- The text ends with the word `call` and at least one blank. -/
def followsCall (u : Text) : Bool := ((blanks? u.reverse).map (Statement.hasKeyword "llac")).getD false

section Call
variable {x g u : Text}

theorem followsCall_append (hx : wordEnds x.reverse = true) (hg : g.allBlank = true) (hne : g ≠ []) :
    followsCall (x ++ ("call" ++ g)) = true := by
  have hrun : blanks? (g.reverse ++ ("llac" ++ x.reverse)) = some ("llac" ++ x.reverse) :=
    blanks?_run (by rwa [allBlank_reverse]) (by simpa using hne) (.cons (by decide))
  have hreverse : (x ++ ("call" ++ g)).reverse = g.reverse ++ ("llac" ++ x.reverse) := by simp
  rw [followsCall, hreverse, hrun, Option.map_some, Statement.hasKeyword_append hx]
  rfl

theorem eq_of_followsCall (h : followsCall u = true) :
    ∃ x g, u = x ++ ("call" ++ g) ∧ wordEnds x.reverse = true ∧ g.allBlank = true ∧ g ≠ [] := by
  rw [followsCall] at h
  cases hb : blanks? u.reverse with
  | none => simp [hb] at h
  | some t =>
    rw [hb, Option.map_some, Option.getD_some] at h
    obtain ⟨g, hg, hblank, hne⟩ := eq_of_blanks? hb
    obtain ⟨x, hx, hout⟩ := Statement.eq_of_hasKeyword h
    refine ⟨x.reverse, g.reverse, ?_, ?_, by rwa [allBlank_reverse], by simpa using hne⟩
    · rw [← List.reverse_reverse u, hg, eq_of_after? hx]
      simp
    · rw [List.reverse_reverse]
      exact wordEnds_of_outside hout

/-- What stands before a mark does not matter. -/
theorem followsCall_mark {q : Char} (hw : isWord q = false) (hb : isBlank q = false) (a z : Text) :
    followsCall (a ++ q :: z) = followsCall z := by
  have hletters : ∀ c ∈ "llac".toList, isWord c = true := List.all_eq_true.1 (by decide)
  have hq : q ∉ "llac".toList := fun hm => absurd (hletters q hm) (by simp [hw])
  have hkeyword (y : Text) : Statement.hasKeyword "llac" (y ++ q :: a.reverse) = Statement.hasKeyword "llac" y := by
    rw [Statement.hasKeyword, after?_mark _ _ hq, Option.map_map, Statement.hasKeyword]
    congr 2
    funext r
    exact wordEnds_mark r a.reverse hw
  have hreverse : (a ++ q :: z).reverse = z.reverse ++ q :: a.reverse := by simp
  rw [followsCall, hreverse, blanks?_mark _ _ hb, Option.map_map, followsCall]
  congr 2
  funext r
  exact hkeyword r

theorem followsCall_lead (hx : wordEnds x.reverse = true) (h : followsCall u = true) : followsCall (x ++ u) = true := by
  obtain ⟨y, g, rfl, hy, hg, hne⟩ := eq_of_followsCall h
  rw [← List.append_assoc]
  refine followsCall_append ?_ hg hne
  rw [List.reverse_append]
  cases hr : y.reverse with
  | nil => exact hx
  | cons c r =>
    rw [hr] at hy
    exact hy

end Call

/-! ### Behind the label -/

theorem trim_name {w : Text} (hw : IsName w) (r v : Text) : trim (r ++ (w ++ v)) = trimStart r ++ (w ++ trimEnd v) := by
  obtain ⟨hne, hword⟩ := hw.mem_word
  have hsolid : ∀ c ∈ w, isBlank c = false := fun c hc => not_blank_of_word (hword c hc)
  have hstart : trimStart (r ++ (w ++ v)) = trimStart r ++ (w ++ v) := by
    obtain ⟨c, w, rfl⟩ := List.exists_cons_of_ne_nil hne
    exact trimStart_mark r (w ++ v) (hsolid c List.mem_cons_self)
  have hend : trimEnd (w ++ v) = w ++ trimEnd v := by
    by_cases hv : v.allBlank = true
    · rw [trimEnd_blanks hv, trimEnd_of_solid hsolid, trimEnd_of_allBlank hv, List.append_nil]
    · exact trimEnd_append (by simpa using hv)
  have hblank : (w ++ v).allBlank = false := by
    obtain ⟨c, w, rfl⟩ := List.exists_cons_of_ne_nil hne
    simp [allBlank, hsolid c List.mem_cons_self]
  rw [trim, hstart, trimEnd_append hblank, hend]

/-- The columns before the statement hold blanks and digits, and no word ends with them. -/
theorem exists_columns {t u w v : Text} (ht : t = u ++ (w ++ v)) (hw : IsName w) (hu : EndsOutside isOperand u) :
    ∃ x r, u = x ++ r ∧ statementOf t = r ++ (w ++ trimEnd v) ∧ wordEnds x.reverse = true ∧
      ∀ c ∈ x, isBlank c = true ∨ c.isDigit = true := by
  have hgap {g : Text} (hg : g.allBlank = true) : wordEnds g.reverse = true :=
    wordEnds_of_outside (outside_of_allBlank (by rwa [allBlank_reverse]))
  rcases split_cases t with ⟨blanks, digits, rest, hl⟩ | hl
  · obtain ⟨c, w, rfl⟩ := List.exists_cons_of_ne_nil hw.mem_word.1
    have hword : isWord c = true := hw.mem_word.2 c List.mem_cons_self
    have hdigit : c.isDigit = false := hw.start c rfl
    have hsplit : u ++ (c :: w ++ v) = (blanks ++ digits) ++ rest := by
      rw [← ht, hl.text_eq, List.append_assoc]
    -- the name starts behind the field, and not right behind it
    obtain ⟨r, rfl, hrest⟩ : ∃ r, u = (blanks ++ digits) ++ r ∧ rest = r ++ (c :: w ++ v) := by
      rcases List.append_eq_append_iff.1 hsplit with ⟨x, hx, hy⟩ | ⟨x, hx, hy⟩
      · cases x with
        | nil => exact ⟨[], by simpa using hx.symm, by simpa using hy.symm⟩
        | cons d x =>
          obtain ⟨rfl, -⟩ := List.cons.inj hy
          rcases hl.mem_field c (hx ▸ by simp) with h | h
          · simp [not_blank_of_word hword] at h
          · simp [hdigit] at h
      · exact ⟨x, hx, hy⟩
    have hr : r ≠ [] := by
      rintro rfl
      have hblank := hl.head_field (c := c) (by rw [hrest]; rfl)
      simp [not_blank_of_word hword] at hblank
    obtain ⟨d, r, rfl⟩ := List.exists_cons_of_ne_nil hr
    have hd : isBlank d = true := hl.head_field (by rw [hrest]; rfl)
    have htake : (d :: r).takeWhile isBlank = d :: r.takeWhile isBlank := by simp [hd]
    refine ⟨(blanks ++ digits) ++ (d :: r).takeWhile isBlank, trimStart (d :: r), ?_, ?_, ?_, ?_⟩
    · rw [List.append_assoc _ _ (trimStart _), trimStart, List.takeWhile_append_dropWhile]
    · rw [statementOf, hl.split_eq, hrest, trim_name hw]
    · rw [List.reverse_append]
      refine wordEnds_of_outside (.append (by simp [htake]) (outside_of_allBlank ?_))
      rw [allBlank_reverse]
      exact allBlank_takeWhile
    · intro e he
      rcases List.mem_append.1 he with he | he
      · exact hl.mem_field e he
      · exact .inl (mem_of_allBlank allBlank_takeWhile e he)
  · refine ⟨u.takeWhile isBlank, trimStart u, List.takeWhile_append_dropWhile.symm, ?_, hgap allBlank_takeWhile,
      fun c hc => .inl (mem_of_allBlank allBlank_takeWhile c hc)⟩
    rw [statementOf, hl, ht, trim_name hw]

/-- A name of a line is a name of its statement, behind `call` in both or in neither. -/
theorem Occurs.statement {t u w v : Text} (h : Occurs t u w v) :
    ∃ u' v', Occurs (statementOf t) u' w v' ∧ Reference.firstMark v' = Reference.firstMark v ∧
      (followsCall u' = true → followsCall u = true) := by
  obtain ⟨x, r, rfl, hstatement, hends, hfield⟩ := exists_columns h.text_eq h.name h.before
  have hquote : ∀ c ∈ x, isQuote c = false := by
    intro c hc
    rcases hfield c hc with hb | hd
    · exact not_quote_of_class (by decide) hb
    · exact not_quote_of_class (by decide) hd
  have hmark : Reference.firstMark (trimEnd v) = Reference.firstMark v := by
    obtain ⟨g, hv, hblank⟩ := exists_trimEnd v
    have hnone : Reference.firstMark g = none := by
      rw [Reference.firstMark, trimStart_of_allBlank hblank, List.head?_nil]
    have happend := Reference.firstMark_append (trimEnd v) g
    rwa [← hv, hnone, Option.or_none, eq_comm] at happend
  exact ⟨r, trimEnd v, ⟨hstatement, h.name, h.code.of_free_append hquote, h.before.right,
    h.after.of_lead (trimEnd_lead v)⟩, hmark, followsCall_lead hends⟩

end FixedForm
