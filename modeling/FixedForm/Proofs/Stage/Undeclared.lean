import FixedForm.Proofs.Inference.Undeclared
import FixedForm.Proofs.Reference.Undeclared
import FixedForm.Proofs.Stage.Case
import FixedForm.Proofs.Stage.Local

/-! Undeclared names over the whole way of a unit.  Inference reports the names that stand for variables, and
the scan of the references those before a parenthesis, as far as it comes to them. -/
namespace FixedForm
open Text

namespace Card

theorem mem_of_mem_split {source card : Text} (h : card ∈ split source) : ∀ c ∈ card, c ∈ source := by
  intro c hc
  fun_induction split source generalizing card with
  | case1 =>
    rw [List.mem_singleton.1 h] at hc
    cases hc
  | case2 t ih =>
    rcases List.mem_cons.1 h with rfl | h
    · cases hc
    · exact List.mem_cons_of_mem _ (List.mem_cons_of_mem _ (ih h hc))
  | case3 t ih =>
    rcases List.mem_cons.1 h with rfl | h
    · cases hc
    · exact List.mem_cons_of_mem _ (ih h hc)
  | case4 d t _ _ hs ih =>
    rw [List.mem_singleton.1 h] at hc
    rw [List.mem_singleton.1 hc]
    exact List.mem_cons_self
  | case5 d t _ _ first rest hs ih =>
    rcases List.mem_cons.1 h with rfl | h
    · rcases List.mem_cons.1 hc with rfl | hc
      · exact List.mem_cons_self
      · exact List.mem_cons_of_mem _ (ih (by rw [hs]; exact List.mem_cons_self) hc)
    · exact List.mem_cons_of_mem _ (ih (by rw [hs]; exact List.mem_cons_of_mem _ h) hc)

theorem isHeld_deck {source card : Text} (h : IsHeld source) (hc : card ∈ deck source) : IsHeld card := by
  obtain ⟨t, ht, rfl⟩ := List.mem_map.1 hc
  have ht : t ∈ split source := by
    split at ht
    · exact List.dropLast_subset _ ht
    · exact ht
  intro c hm
  obtain ⟨d, hd, hm⟩ := List.mem_flatMap.1 hm
  split at hm
  · rw [List.eq_of_mem_replicate hm]
    decide
  · rw [List.mem_singleton.1 hm]
    exact h d (mem_of_mem_split ht d hd)

end Card

namespace Analysis

/-- The issues of a line with references are among the findings when all lines are read. -/
theorem finds_linearize {lines : List Line} {l : Line} (hl : l ∈ lines)
    (hs : Reference.holdsReferences l.shape = true) {a : Analysis} {issue : Issue}
    (hi : issue ∈ (Reference.linearize a.referenceScope l.text).2) (n : Nat) :
    Finds (Buffer.editFrom linearizeLine a n lines).1 (some l.id) issue := by
  induction lines generalizing a n with
  | nil => cases hl
  | cons m lines ih =>
    rcases List.mem_cons.1 hl with rfl | hl
    · have hline : Finds (a.linearizeLine l).1 (some l.id) issue := by
        rw [linearizeLine, if_pos hs]
        exact a.finds_reportAll _ hi
      exact hline.mono (Buffer.reports_edit id reports_linearizeLine (a.linearizeLine l).1
        ⟨lines, (Buffer.place l n (a.linearizeLine l).2).2⟩)
    · have hquiet : Quiet referenceScope := fun _ _ _ => rfl
      exact ih hl (hquiet.linearizeLine a m ▸ hi) _

end Analysis

namespace Progress
open Inference

section Inferred
variable {options : Options} {source : Text} {l : Line}
  (hl : l ∈ (inferred options source).buffer.lines) (hs : l.shape.isAction = true)
include hl hs

/-- A statement behind inference is one of those that its steps leave. -/
theorem mem_steps :
    let e := (Card.classified source).edit collectConstants ((Card.read source).edit Stage.spell { options }).1
    l ∈ (e.2.edit step (e.1, none)).2.lines := by
  obtain ⟨ha, hb⟩ := runAll_inference options source
  obtain ⟨hanchor, hsettled, -⟩ := inference_labels options source
  rw [inferred] at hl
  generalize (start options (Card.read source)).runAll [.spelling, .shapes, .inference] = p
    at hl ha hb hanchor hsettled
  have hheader (hi : p.analysis.anchor? = some l.id) : l.shape = .header :=
    (hsettled.anchored.holds l hl (hanchor.symm.trans hi)).1
  rw [hb] at hl
  rw [ha] at hheader
  exact mem_of_mem_run hl hs hheader

theorem isLowered_inferred (hheld : IsHeld source) : IsLowered (inferred options source).analysis.symbols l.text := by
  have hsmall : ∀ k ∈ (Card.read source).lines.map Line.prepared, k.shape.isAction = true → SmallCode k.text := by
    intro k hk hshape
    obtain ⟨m, hm, rfl⟩ := List.mem_map.1 hk
    obtain ⟨hother, htext⟩ := text_prepared (Card.isRead_read hm) (Shape.cases_of_isAction hshape).1
    rw [htext]
    exact Spelling.smallCode_normalize
      (Card.forall_mem_read (by decide) (fun _ ht _ => Card.isHeld_deck hheld ht) hm hother)
  have hnamed : IsNamed (opening options source) := by
    intro g hg
    rw [signature?_opening] at hg
    cases hg
  obtain ⟨next, hmem⟩ : ∃ next, l ∈ (Buffer.editFrom step (opening options source, none) next
      ((Card.read source).lines.map Line.prepared)).2.1 := by
    rw [← lines_collectConstants options]
    exact ⟨_, mem_steps hl hs⟩
  rw [symbols_inference, known_eq]
  exact isLowered_editFrom (declares_lines source) hsmall hnamed next l hmem hs

theorem isReported_inferred {w : Text} (hw : w ∈ Names.plain (statementOf l.text))
    (hk : isKnown (inferred options source).analysis w = false) :
    IsReported (inferred options source).analysis w := by
  obtain ⟨ha, -⟩ := runAll_inference options source
  have hmem := mem_steps hl hs
  rw [inferred, ha] at hk ⊢
  exact isReported_run hmem (Shape.cases_of_isAction hs).2.1 hw hk

end Inferred

/-- After inference every name that stands as a whole in the code of a loop, a conditional, a jump, a call, a
return or an assignment, and that no declaration, no EXTERNAL, no PARAMETER and no reserved word makes known, is
found when the references are settled, unless it is the target of a call: if no parenthesis follows, wherever it
stands, as a name that is never declared; if one follows, at its line, where it stands outside the indices of
arrays and not behind a scope. -/
theorem undeclared_found (options : Options) {source : Text} (hheld : IsHeld source) {l : Line}
    (hl : l ∈ (inferred options source).buffer.lines) (hs : l.shape.isAction = true) {u w v : Text}
    (h : Occurs l.text u w v) (hk : isKnown (inferred options source).analysis w = false)
    (hcall : followsCall u = false) :
    let p := (start options (Card.read source)).runAll [.spelling, .shapes, .inference, .references]
    (Reference.firstMark v ≠ some '(' → ∃ d ∈ p.analysis.diagnostics,
      d.code = .unresolvedSymbol ∧ d.message = (Issue.undeclaredName w).message) ∧
    (Reference.firstMark v = some '(' → Reference.AtTop (inferred options source).analysis.symbols u →
      startsWith "::" u.trimEnd.reverse = false → ∃ d ∈ p.analysis.diagnostics,
        d.code = .unresolvedSymbol ∧ d.message = (Issue.undeclaredReference w).message ∧ d.line = some l.id) := by
  have happly : (start options (Card.read source)).runAll [.spelling, .shapes, .inference, .references] =
      Stage.references.apply (inferred options source) := by
    simp only [runAll, inferred, List.foldl_cons, List.foldl_nil]
  have hlowered := isLowered_inferred hl hs hheld
  have hreported (hw : w ∈ Names.plain (statementOf l.text)) := isReported_inferred hl hs hw hk
  rw [happly]
  generalize inferred options source = p at hl hk hlowered hreported
  obtain ⟨hsymbols, hreserved⟩ : p.analysis.symbols.has w = false ∧ isReserved w = false := by
    simp only [isKnown, Bool.or_eq_false_iff] at hk
    exact ⟨hk.1.1.1, hk.1.1.2⟩
  refine ⟨fun hp => ?_, fun hp htop hscope => ?_⟩
  · obtain ⟨u', v', hstatement, hmark, hcalled⟩ := h.statement
    have hcall' : followsCall u' = false := by
      rw [Bool.eq_false_iff]
      exact fun hc => Bool.eq_false_iff.1 hcall (hcalled hc)
    have hplain := Names.mem_plain hstatement (hlowered.startsName h hsymbols) (hmark ▸ hp) hcall'
    obtain ⟨line, d, hd, hcode, hmessage, -⟩ :=
      (hreported hplain).mono (Stage.reports_run .references p.analysis p.buffer)
    exact ⟨d, hd, hcode, hmessage⟩
  · have hissue : .undeclaredReference w ∈ (Reference.linearize p.analysis.referenceScope l.text).2 :=
      Reference.linearize_undeclared h hp hsymbols hreserved hcall htop hscope
    exact Analysis.finds_linearize hl (Shape.cases_of_isAction hs).2.2 hissue _

/-- In a conditional call with a literal, a function among the arguments and the argument of that function. -/
theorem undeclared_found_call :
    let source : Text :=
      "      subroutine s(x)\n      integer x(9)\n      if (X(1) .gt. Y) call t('A', f(z))\n      end\n"
    let p := (start {} (Card.read source)).runAll [.spelling, .shapes, .inference, .references]
    (∃ d ∈ p.analysis.diagnostics,
      d.code = .unresolvedSymbol ∧ d.message = (Issue.undeclaredName "z").message) ∧
    ∃ d ∈ p.analysis.diagnostics,
      d.code = .unresolvedSymbol ∧ d.message = (Issue.undeclaredReference "f").message ∧ d.line = some 2 := by
  intro source
  have hsource : source = _ := String.toList_ofList
  have hheld : IsHeld source := by
    have hall : (source.all fun c => ofUnit (unit c) == c) = true := by
      rw [hsource]
      decide +kernel
    simpa [IsHeld] using hall
  obtain ⟨⟨l, hl, hs, hid, htext⟩, hknown, harrays⟩ :
      (∃ l ∈ (inferred {} source).buffer.lines, l.shape = .conditional ∧ l.id = 2 ∧
        l.text = "      if (x(1)  >  y) call t('A', f(z))") ∧
      (isKnown (inferred {} source).analysis "z" = false ∧ isKnown (inferred {} source).analysis "f" = false) ∧
      (inferred {} source).analysis.symbols.array? "if" = none ∧
      ((inferred {} source).analysis.symbols.array? "x").isSome = true ∧
      (inferred {} source).analysis.symbols.array? "t" = none := by
    rw [hsource]
    decide +kernel
  -- the text before the function, piece by piece
  have hpieces : "      if (x(1)  >  y) call t('A', ".toList =
      "      ".toList ++ ("if".toList ++ (" ".toList ++ '(' :: ("x".toList ++ ([] ++ '(' :: ("1".toList ++ ')' ::
        ("  >  ".toList ++ ("y".toList ++ (") ".toList ++ ("call".toList ++ (" ".toList ++ ("t".toList ++
          ([] ++ '(' :: ('\x27' :: ("A".toList ++ '\x27' :: (", ".toList ++ []))))))))))))))) := by
    decide
  have htop : Reference.AtTop (inferred {} source).analysis.symbols
      "      if (x(1)  >  y) call t('A', ".toList := by
    rw [hpieces]
    refine .marks rfl (.opening (by decide) rfl harrays.1 (.element (by decide) rfl harrays.2.1
      (.cons (by decide) (by decide) .nil) (.marks rfl (.name (by decide) (.cons rfl) (by decide) (.marks rfl
      (.name (by decide) (.cons rfl) (by decide) (.marks rfl (.opening (by decide) rfl harrays.2.2 ?_))))))))
    exact .literal rfl (by decide) (.marks rfl .nil)
  have hcode : EndsInCode "      if (x(1)  >  y) call t('A', ".toList := by
    have hliteral : EndsInCode ('\x27' :: ("A".toList ++ '\x27' :: ", ".toList)) :=
      .literal rfl (by decide) trivial (.code rfl (.code rfl .nil))
    have hsplit : "      if (x(1)  >  y) call t('A', ".toList =
        "      if (x(1)  >  y) call t(".toList ++ '\x27' :: ("A".toList ++ '\x27' :: ", ".toList) := by decide
    rw [hsplit]
    exact (Quoted.of_free (not_quote_of_all (by decide))).append hliteral
  have hz : Occurs l.text ("      if (x(1)  >  y) call t('A', ".toList ++ "f(".toList) "z" "))" :=
    ⟨htext.trans (by decide), by decide, hcode.append (.code rfl (.code rfl .nil)), by decide, .cons rfl⟩
  have hf : Occurs l.text "      if (x(1)  >  y) call t('A', " "f" "(z))" :=
    ⟨htext.trans (by decide), by decide, hcode, by decide, .cons rfl⟩
  have hfound (u w v : Text) := undeclared_found {} hheld hl (by rw [hs]; rfl) (u := u) (w := w) (v := v)
  rw [← hid]
  exact ⟨(hfound _ _ _ hz hknown.1 (by decide)).1 (by decide),
    (hfound _ _ _ hf hknown.2 (by decide)).2 (by decide) htop (by decide)⟩

end Progress

end FixedForm
