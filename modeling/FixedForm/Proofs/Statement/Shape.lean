import FixedForm.Proofs.Text.Scan
import FixedForm.Statement.Shape

/-! The shapes of the statements that open, continue and close blocks, for every text behind the words
that decide. -/
namespace FixedForm.Statement
open Text

theorem after?_cons_of_outside {p : Char → Bool} {a : Char} {lead t : Text} (ha : p a = true)
    (h : StartsOutside p t) : after? (a :: lead) t = none := by
  cases t with
  | nil => rfl
  | cons c t =>
    have hc : c ≠ a := by
      rintro rfl
      simp [h c rfl] at ha
    simp [after?, hc]

/-- A statement has the form that its shape stands for. -/
theorem fits_of_shape {s : Text} (fits : Text → Bool) (hs : shape s ≠ .other)
    (hf : ∀ f ∈ forms, f.1 = shape s → f.2 = fits) : fits s = true := by
  rw [shape] at hs hf
  cases h : forms.find? fun f => f.2 s with
  | none =>
    rw [h] at hs
    exact absurd rfl hs
  | some f =>
    rw [h] at hf
    rw [← hf f (List.mem_of_find?_eq_some h) rfl]
    have hfits := List.find?_some h
    exact hfits

theorem header_of_shape {s : Text} (h : shape s = .header) : (Header.parse? s).isSome = true :=
  fits_of_shape (fun t => (Header.parse? t).isSome) (by simp [h]) (by simp [h, forms])

theorem isEnd_of_shape {s : Text} (h : shape s = .unitEnd) : isEnd s = true :=
  fits_of_shape isEnd (by simp [h]) (by simp [h, forms])

theorem isAssignment_of_shape {s : Text} (h : shape s = .assignment) : isAssignment s = true :=
  fits_of_shape isAssignment (by simp [h]) (by simp [h, forms])

theorem shape_eq_of_find? {s : Text} {k : Shape} {fits : Text → Bool} (n : Nat)
    (hn : (forms.take n).find? (fun f => f.2 s) = none)
    (hk : forms.drop n = (k, fits) :: forms.drop (n + 1)) (hs : fits s = true) : shape s = k := by
  rw [shape, ← List.take_append_drop n forms, List.find?_append, hn, hk]
  simp [hs]

theorem shape_if {t : Text} (h : Text.startsWith "(" t.trimStart = true) :
    shape ("if" ++ t) = .conditional := by
  refine shape_eq_of_find? 9 rfl rfl ?_
  rw [isConditional, after?_append]
  simp only [Option.map_some, Option.getD_some, h, Bool.true_or]

theorem hasKeyword_append {word t : Text} (h : t.wordEnds = true) :
    hasKeyword word (word ++ t) = true := by
  rw [hasKeyword, after?_append]
  simpa using h

theorem shape_else {t : Text} (h : t.wordEnds = true) : shape ("else" ++ t) = .conditional := by
  refine shape_eq_of_find? 9 rfl rfl ?_
  simp only [isConditional, hasKeyword_append h, Bool.true_or, Bool.or_true]

theorem shape_elseif {t : Text} (h : t.wordEnds = true) : shape ("elseif" ++ t) = .conditional := by
  refine shape_eq_of_find? 9 rfl rfl ?_
  simp only [isConditional, hasKeyword_append h, Bool.true_or, Bool.or_true]

theorem shape_continue : shape "continue" = .loopEnd := by decide

theorem endOf?_append {g word : Text} (hg : g.allBlank = true) (hne : g ≠ []) (lead : Text)
    (hw : StartsOutside isBlank word) :
    endOf? lead ("end" ++ (g ++ word)) = after? lead word := by
  rw [endOf?, after?_append, Option.bind_eq_bind, Option.bind_some, blanks?_run hg hne hw]
  rfl

/-- Before the forms of loops, only that of the end of a unit can fit a statement with `end`. -/
theorem find?_end {t : Text} (h : isEnd ("end" ++ t) = false) :
    (forms.take 7).find? (fun f => f.2 ("end" ++ t)) = none := by
  have h₁ : (forms.take 1).find? (fun f => f.2 ("end" ++ t)) = none := rfl
  have h₂ : (forms.drop 2 |>.take 5).find? (fun f => f.2 ("end" ++ t)) = none := rfl
  have hf : forms.take 7 = forms.take 1 ++ (Shape.unitEnd, isEnd) :: (forms.drop 2 |>.take 5) := rfl
  simp only [hf, List.find?_append, h₁, List.find?_cons, h, h₂, Option.none_or]

theorem isEnd_append {g word : Text} (hg : g.allBlank = true) (hne : g ≠ [])
    (hw : StartsOutside isBlank word) (hb : word.allBlank = false) (hu : UnitKind.lead? word = none) :
    isEnd ("end" ++ (g ++ word)) = false := by
  rw [isEnd, after?_append]
  simp [allBlank_append, hb, blanks?_run hg hne hw, hu]

theorem isLoopEnd_append {g word : Text} (hg : g.allBlank = true) (hne : g ≠ [])
    (hw : StartsOutside isBlank word) :
    isLoopEnd ("end" ++ (g ++ word)) = ((after? "do" word).map allBlank).getD false := by
  have h₁ : after? "enddo" ("end" ++ (g ++ word)) = none := by
    cases g with
    | nil => exact absurd rfl hne
    | cons c g =>
      have hc : isBlank c = true := mem_of_allBlank hg c (by simp)
      have ho : StartsOutside (!isBlank ·) (c :: g ++ word) := .cons (by simp [hc])
      have hd : after? ('d' :: ['o']) (c :: g ++ word) = none := after?_cons_of_outside rfl ho
      exact hd
  have h₂ : after? "continue" ("end" ++ (g ++ word)) = none := rfl
  rw [isLoopEnd, h₁, h₂, endOf?_append hg hne _ hw]
  simp

theorem shape_end_do {g : Text} (hg : g.allBlank = true) : shape ("end" ++ (g ++ "do")) = .loopEnd := by
  by_cases hne : g = []
  · subst hne
    decide
  · have hw : StartsOutside isBlank "do".toList := .cons (by decide)
    refine shape_eq_of_find? 7 (find?_end (isEnd_append hg hne hw (by decide) rfl)) rfl ?_
    rw [isLoopEnd_append hg hne hw]
    rfl

theorem shape_end_if {g : Text} (hg : g.allBlank = true) :
    shape ("end" ++ (g ++ "if")) = .conditional := by
  by_cases hne : g = []
  · subst hne
    decide
  · have hw : StartsOutside isBlank "if".toList := .cons (by decide)
    have h₇ := find?_end (isEnd_append hg hne hw (by decide) rfl)
    have h₈ : isLoopEnd ("end" ++ (g ++ "if")) = false := by
      rw [isLoopEnd_append hg hne hw]
      rfl
    have hf : forms.take 9 = forms.take 7 ++ [(.loopEnd, isLoopEnd), (.loop, isLoop)] := rfl
    have h₉ : isLoop ("end" ++ (g ++ "if")) = false := rfl
    refine shape_eq_of_find? 9 ?_ rfl ?_
    · simp only [hf, List.find?_append, h₇, List.find?_cons, h₈, h₉, List.find?_nil, Option.none_or]
    · simp only [isConditional, endOf?_append hg hne _ hw]
      simp [after?, wordEnds]

theorem lead?_do {t : Text} (h : StartsOutside isWord t) : BaseType.lead? ("do" ++ t) = none := by
  have hu (rest : Text) : after? ("do".toList ++ 'u' :: rest) ("do" ++ t) = none := by
    rw [after?_append_append]
    exact after?_cons_of_outside rfl h
  have e₁ : "doubleprecision".toList = "do".toList ++ 'u' :: "bleprecision".toList := by decide
  have e₂ : "doublecomplex".toList = "do".toList ++ 'u' :: "blecomplex".toList := by decide
  have h₁ : after? (BaseType.name .doubleprecision) ("do" ++ t) = none := (e₁ ▸ hu _ :)
  have h₂ : after? (BaseType.name .doublecomplex) ("do" ++ t) = none := (e₂ ▸ hu _ :)
  have hall : BaseType.all = BaseType.all.take 4 ++ [.doubleprecision, .doublecomplex] := rfl
  have h₄ : (BaseType.all.take 4).findSome?
      (fun b => (after? b.name ("do" ++ t)).map fun rest => (b, rest)) = none := rfl
  rw [BaseType.lead?, hall, List.findSome?_append, h₄]
  simp only [List.findSome?_cons, h₁, h₂, Option.map_none, List.findSome?_nil, Option.none_or]

theorem shape_do {t : Text} (h : StartsOutside isWord t)
    (he : Text.startsWith "=" t.trimStart = false) : shape ("do" ++ t) = .loop := by
  have hl := lead?_do h
  have h₁ : Header.parse? ("do" ++ t) = none := by
    rw [Header.parse?, Header.type?, hl]
    rfl
  have h₇ : isDeclaration ("do" ++ t) = false := by
    rw [isDeclaration, hl]
  have hmid : (forms.drop 1 |>.take 5).find? (fun f => f.2 ("do" ++ t)) = none := rfl
  have hf : forms.take 8 = (.header, fun t => (Header.parse? t).isSome) ::
      ((forms.drop 1 |>.take 5) ++ [(.declaration, isDeclaration), (.loopEnd, isLoopEnd)]) := rfl
  have h₈ : isLoopEnd ("do" ++ t) = false := rfl
  refine shape_eq_of_find? 8 ?_ rfl ?_
  · simp only [hf, List.find?_append, List.find?_cons, h₁, hmid, h₇, h₈, Option.isSome_none,
      List.find?_nil, Option.none_or]
  · rw [isLoop, after?_append]
    simp only [wordEnds_of_outside h, he, Bool.not_false, Bool.and_self]

end FixedForm.Statement
