import FixedForm.Proofs.Declaration.Plain
import FixedForm.Proofs.Inference.Signature
import FixedForm.Proofs.Spelling.Small

/-! Names that a unit uses and never declares.  The statements of a unit are in lower case but for its own
name, and every unknown name that one of them uses as a variable is reported. -/
namespace FixedForm
open Text
open Analysis (Reports)

/-- Loops, conditionals, jumps, calls, returns and assignments. -/
def Shape.isAction : Shape → Bool
  | .loop | .conditional | .goto | .call | .returns | .assignment => true
  | _ => false

theorem Shape.cases_of_isAction {s : Shape} (h : s.isAction = true) :
    s.isSilent = false ∧ Inference.usesNames s = true ∧ Reference.holdsReferences s = true := by
  cases s <;> first | exact ⟨rfl, rfl, rfl⟩ | cases h

namespace Analysis

/-- The issue is among the findings at the line. -/
def Finds (a : Analysis) (line : Option Nat) (issue : Issue) : Prop :=
  ∃ d ∈ a.diagnostics, d.code = issue.code ∧ d.message = issue.message ∧ d.line = line

theorem Finds.mono {a a' : Analysis} {line : Option Nat} {issue : Issue} (h : Finds a line issue)
    (hr : Reports a a') : Finds a' line issue := by
  obtain ⟨d, hd, hsame⟩ := h
  exact ⟨d, hr.mem hd, hsame⟩

theorem finds_reportAll (a : Analysis) (line : Option Nat) {issues : List Issue} {issue : Issue}
    (h : issue ∈ issues) : Finds (a.reportAll line issues) line issue := by
  have hany : (a.reportAll line issues).diagnostics.any (Diagnostic.same (.ofIssue line issue)) = true := by
    rw [diagnostics_reportAll]
    exact Diagnostic.any_foldl_add (.inr (List.mem_map_of_mem h))
  obtain ⟨d, hd, hs⟩ := List.any_eq_true.1 hany
  simp only [Diagnostic.same, Diagnostic.ofIssue, Bool.and_eq_true, beq_iff_eq] at hs
  exact ⟨d, hd, hs.1.1.symm, hs.1.2.symm, hs.2.symm⟩

theorem finds_report (a : Analysis) (line : Option Nat) (issue : Issue) :
    Finds (a.report line issue) line issue :=
  a.finds_reportAll line (List.mem_cons_self : issue ∈ [issue])

end Analysis

namespace Inference

/-! ### The check for unknown names -/

section Names
variable {a : Analysis} {w : Text}

/-- Some line is said to use the name without a declaration. -/
def IsReported (a : Analysis) (name : Text) : Prop := ∃ line, a.Finds line (.undeclaredName name)

theorem IsReported.mono {a' : Analysis} (h : IsReported a w) (hr : Reports a a') : IsReported a' w := by
  obtain ⟨line, hf⟩ := h
  exact ⟨line, hf.mono hr⟩

/-- The names that the check has seen are reported. -/
def Recorded (s : Analysis × List Text) : Prop := ∀ name ∈ s.2, IsReported s.1 name

theorem quiet_isKnown (w : Text) : Analysis.Quiet (isKnown · w) := fun _ _ _ => rfl

theorem reportNames_cons (line : Nat) (s : Analysis × List Text) (name : Text) (names : List Text) :
    reportNames line s (name :: names) = reportNames line (reportNames line s [name]) names := rfl

theorem recorded_one {s : Analysis × List Text} (hs : Recorded s) (line : Nat) (name : Text) :
    Recorded (reportNames line s [name]) ∧
      (isKnown s.1 name = false → IsReported (reportNames line s [name]).1 name) := by
  simp only [reportNames, List.foldl_cons, List.foldl_nil]
  split
  · next h =>
    refine ⟨hs, fun hk => hs name ?_⟩
    rw [hk, Bool.or_false] at h
    exact List.contains_iff_mem.1 h
  · have hname : IsReported (s.1.report line (.undeclaredName name)) name := ⟨_, s.1.finds_report _ _⟩
    refine ⟨fun n hn => ?_, fun _ => hname⟩
    rcases List.mem_append.1 hn with hn | hn
    · exact (hs n hn).mono (s.1.reports_report _ _)
    · rwa [List.mem_singleton.1 hn]

theorem isKnown_reportNames (line : Nat) (s : Analysis × List Text) (names : List Text) :
    isKnown (reportNames line s names).1 w = isKnown s.1 w := by
  refine foldl_view (fun s : Analysis × List Text => isKnown s.1 w) (fun s name => ?_) names s
  dsimp only
  split
  · rfl
  · exact quiet_isKnown w _ _ _

theorem recorded_reportNames {s : Analysis × List Text} (hs : Recorded s) (line : Nat) (names : List Text) :
    Recorded (reportNames line s names) ∧
      ∀ w ∈ names, isKnown s.1 w = false → IsReported (reportNames line s names).1 w := by
  induction names generalizing s with
  | nil => exact ⟨hs, fun _ hw => nomatch hw⟩
  | cons name names ih =>
    obtain ⟨hfirst, hname⟩ := recorded_one hs line name
    obtain ⟨hrest, hothers⟩ := ih hfirst
    rw [reportNames_cons]
    refine ⟨hrest, fun w hw hk => ?_⟩
    rcases List.mem_cons.1 hw with rfl | hw
    · exact (hname hk).mono (reports_reportNames _ _ _)
    · exact hothers w hw ((isKnown_reportNames _ _ _).trans hk)

/-- One line of the check. -/
def checkLine (s : Analysis × List Text) (l : Line) : Analysis × List Text :=
  if usesNames l.shape then reportNames l.id s (Names.plain (statementOf l.text)) else s

theorem reportUndeclared_eq (a : Analysis) (lines : List Line) :
    reportUndeclared a lines = (lines.foldl checkLine (a, [])).1 := rfl

theorem recorded_checkLine {s : Analysis × List Text} (hs : Recorded s) (l : Line) :
    Recorded (checkLine s l) ∧ isKnown (checkLine s l).1 w = isKnown s.1 w := by
  rw [checkLine]
  split
  · exact ⟨(recorded_reportNames hs _ _).1, isKnown_reportNames _ _ _⟩
  · exact ⟨hs, rfl⟩

theorem reports_checkLine (s : Analysis × List Text) (l : Line) : Reports s.1 (checkLine s l).1 := by
  rw [checkLine]
  split
  · exact reports_reportNames _ _ _
  · exact .refl _

/-- An unknown name that a line uses as a variable is reported: at this line, or at one before it. -/
theorem isReported_reportUndeclared {lines : List Line} {l : Line} (hl : l ∈ lines)
    (hu : usesNames l.shape = true) (hw : w ∈ Names.plain (statementOf l.text)) (hk : isKnown a w = false) :
    IsReported (reportUndeclared a lines) w := by
  obtain ⟨before, rest, rfl⟩ := List.append_of_mem hl
  -- the name may have been seen before this line, and then it has been reported there
  have hbefore : Recorded (before.foldl checkLine (a, [])) ∧ isKnown (before.foldl checkLine (a, [])).1 w = false :=
    List.foldlRecOn before checkLine (motive := fun s => Recorded s ∧ isKnown s.1 w = false)
      ⟨(fun _ hn => nomatch hn), hk⟩ fun s hs m _ =>
        ⟨(recorded_checkLine (w := w) hs.1 m).1, (recorded_checkLine hs.1 m).2.trans hs.2⟩
  rw [reportUndeclared_eq, List.foldl_append, List.foldl_cons]
  generalize before.foldl checkLine (a, []) = s at hbefore
  refine IsReported.mono ?_ (Reports.foldl Prod.fst reports_checkLine rest _)
  rw [checkLine, if_pos hu]
  exact (recorded_reportNames hbefore.1 l.id _).2 w hw hbefore.2

end Names

/-! ### The end of the stage -/

theorem isAction_openingLines {p : Procedure} {d : Draft} (h : d ∈ openingLines p) : d.shape.isAction = false := by
  rcases List.mem_cons.1 h with rfl | h
  · rfl
  · split at h
    · cases h
    · rw [List.mem_singleton.1 h]
      rfl

/-! ### Statements in lower case -/

/-- The code of the text is in lower case, but for a name of the table at its end. -/
def IsLowered (symbols : SymbolTable) (t : Text) : Prop :=
  SmallCode t ∨
    ∃ x name, t = x ++ name ∧ SmallCode x ∧ (∀ c ∈ name, isWord c = true) ∧ symbols.has name = true

theorem startsName_of_small {c : Char} {w : Text} (hw : IsName (c :: w)) (h : isCapital c.toNat = false) :
    Names.startsName (c :: w) = true := by
  have hc : isWord c = true := hw.mem_word.2 c List.mem_cons_self
  have hdigit : c.isDigit = false := hw.start c rfl
  have hupper : c.isUpper = false := by
    rw [Bool.eq_false_iff]
    intro hu
    simp [isCapital, isUpper_iff.1 hu] at h
  have hword : ((c.isUpper || c.isLower || c.isDigit) || c == '_') = true := hc
  rw [hupper, hdigit] at hword
  simpa [Names.startsName] using hword

/-- A name of the text that is not in the table starts with a small letter or an underscore. -/
theorem IsLowered.startsName {symbols : SymbolTable} {t u w v : Text} (ht : IsLowered symbols t)
    (h : Occurs t u w v) (hs : symbols.has w = false) : Names.startsName w = true := by
  obtain ⟨c, w, rfl⟩ := List.exists_cons_of_ne_nil h.name.mem_word.1
  have hquote : isQuote c = false := not_quote_of_word (h.name.mem_word.2 c List.mem_cons_self)
  rcases ht with ht | ⟨x, name, rfl, hx, hname, hhas⟩
  · rw [h.text_eq] at ht
    exact startsName_of_small h.name ((smallCode_code hquote).1 (ht.of_append h.code)).1
  · -- a word that starts with the name at the end is that name
    have hsame (he : name = c :: w ++ v) : False := by
      have hv : v = [] := by
        cases v with
        | nil => rfl
        | cons d v =>
          have hd : isWord d = true := hname d (by rw [he]; simp)
          exact absurd (h.after d rfl) (by simp [hd])
      rw [he, hv, List.append_nil, hs] at hhas
      cases hhas
    rcases List.append_eq_append_iff.1 h.text_eq with ⟨y, rfl, hy⟩ | ⟨y, rfl, hy⟩
    · rcases List.eq_nil_or_concat y with rfl | ⟨z, d, rfl⟩
      · exact (hsame hy).elim
      · have hd : isWord d = true := hname d (by rw [hy]; simp)
        exact absurd (h.before d (by simp)) (by simp [isOperand, hd])
    · cases y with
      | nil => exact (hsame hy.symm).elim
      | cons d y =>
        obtain ⟨rfl, -⟩ := List.cons.inj hy
        exact startsName_of_small h.name ((smallCode_code hquote).1 (hx.of_append h.code)).1

/-- The name of the unit is a word, and it is in the table. -/
def IsNamed (a : Analysis) : Prop :=
  ∀ g, a.signature? = some g → (∀ c ∈ g.name, isWord c = true) ∧ a.symbols.has g.name = true

theorem word_of_parse? {t : Text} {h : Header} (hp : Header.parse? t = some h) : ∀ c ∈ h.name, isWord c = true := by
  simp only [Header.parse?, Option.bind_eq_bind, Option.bind_eq_some_iff] at hp
  obtain ⟨⟨baseType, t₁⟩, -, ⟨kind, t₂⟩, -, t₃, -, ⟨name, t₄⟩, hw, hp⟩ := hp
  have hname : h.name = name := by
    split at hp
    · rw [← Option.some.inj hp]
    · obtain ⟨arguments, -, rfl⟩ := Option.map_eq_some_iff.1 hp
      rfl
    · cases hp
  rw [hname]
  exact (eq_of_word? hw).2.2

theorem isNamed_openUnit {a : Analysis} (h : IsNamed a) (l : Line) : IsNamed (openUnit a l) := by
  simp only [openUnit]
  split
  · exact h
  · next header hp =>
    split
    · exact h
    · intro g hg
      cases hg
      refine ⟨word_of_parse? hp, ?_⟩
      dsimp only [Procedure.signature]
      rw [has_header]
      simp

theorem isNamed_step {s : Analysis × Option Shape} (h : IsNamed s.1) {l : Line} (hl : l.declares = none) :
    IsNamed (step s l).1.1 := by
  by_cases hh : l.shape = .header
  · rw [step_header s hh]
    exact isNamed_openUnit h l
  · intro g hg
    obtain ⟨hword, hhas⟩ := h g ((signature?_inferLine s.1 s.2 hh).symm.trans hg)
    exact ⟨hword, (tracks_step s hl).keeps hhas⟩

section Lowered
variable {a : Analysis}

/-- A text that ends with the name of a function. -/
theorem IsNamed.isLowered (h : IsNamed a) (hf : isFunctionUnit a = true) {x : Text} (hx : SmallCode x) :
    IsLowered a.symbols (x ++ a.unitName) := by
  cases hp : a.procedure with
  | none => simp [isFunctionUnit, hp] at hf
  | some p =>
    obtain ⟨hword, hhas⟩ := h p.signature (by rw [Analysis.signature?, hp]; rfl)
    have hname : a.unitName = p.signature.name := by
      rw [Analysis.unitName, hp]
      rfl
    exact .inr ⟨x, a.unitName, rfl, hx, hname ▸ hword, hname ▸ hhas⟩

theorem isLowered_returnResult (h : IsNamed a) (hf : isFunctionUnit a = true) {t : Text} (ht : SmallCode t) :
    IsLowered a.symbols (returnResult a.unitName t) := by
  simp only [returnResult]
  split
  · next before hb =>
    split
    · obtain ⟨g, hg, hblank⟩ := exists_trimEnd t
      have hreturn : t.trimEnd = before.reverse ++ "return" := by
        have := congrArg List.reverse (eq_of_after? hb)
        simpa using this
      have hblank : Edited (g ++ []) " ".toList := (Edited.blanks hblank).append (.added (by decide))
      have hedited : Edited (t.trimEnd ++ (g ++ [])) (before.reverse ++ "return" ++ " ") :=
        hreturn ▸ (Edited.refl _).append hblank
      refine h.isLowered hf (x := before.reverse ++ "return ") ?_
      simpa using hedited.smallCode (by rwa [List.append_nil, ← hg])
    · exact .inl ht
  · exact .inl ht

theorem not_capital_of_field {c : Char} (h : InField c) : isCapital c.toNat = false := by
  rw [Bool.eq_false_iff]
  intro hc
  have hrange : 65 ≤ c.toNat ∧ c.toNat ≤ 90 := by simpa [isCapital] using hc
  have hletters : ∀ n, n < 91 → 65 ≤ n → (isBlank (Char.ofNat n) || (Char.ofNat n).isDigit) = false := by decide
  have hletter := hletters c.toNat (by omega) hrange.1
  rw [Char.ofNat_toNat] at hletter
  rcases h with h | h <;> simp [h] at hletter

/-- The line that returns the result in the place of `end`. -/
theorem isLowered_endLines (h : IsNamed a) (previous : Option Shape) (t : Text) {d : Draft}
    (hd : d ∈ endLines a previous t) (hs : d.shape.isAction = true) : IsLowered a.symbols d.text := by
  have hresult (hf : isFunctionUnit a = true) {x : Text} (hx : ∀ c ∈ x, InField c) :
      IsLowered a.symbols (x ++ ("return " ++ a.unitName)) := by
    have hsmall : SmallCode (x ++ "return ".toList) := by
      refine (smallCode_free fun c hc => (hx c hc).not_quote).2
        ⟨List.any_eq_false.2 fun c hc => by simp [not_capital_of_field (hx c hc)], ?_⟩
      exact (smallCode_of_free (not_quote_of_all (t := "return ") rfl)).2 rfl
    rw [← List.append_assoc]
    exact h.isLowered hf hsmall
  rcases split_cases t with ⟨blanks, digits, rest, hl⟩ | hn
  · simp only [endLines, hl.split_eq, Option.isSome_some, Bool.true_or, Bool.and_true, if_true] at hd
    cases hf : isFunctionUnit a with
    | false =>
      simp only [hf, Bool.false_eq_true, if_false, List.nil_append, List.mem_singleton] at hd
      rw [hd] at hs
      cases hs
    | true =>
      simp only [hf, if_true, List.cons_append, List.nil_append, List.mem_cons, List.not_mem_nil, or_false] at hd
      rcases hd with rfl | rfl
      · have hcolumns : ∀ c ∈ blanks ++ digits ++ rest.takeWhile isBlank, InField c := by
          intro c hc
          rcases List.mem_append.1 hc with hc | hc
          · exact hl.mem_field c hc
          · exact .inl (mem_of_allBlank allBlank_takeWhile c hc)
        have htrim (n : Nat) : trimStart (spaces n ++ "return " ++ a.unitName) = "return " ++ a.unitName := by
          rw [List.append_assoc]
          exact trimStart_run (allBlank_spaces n) (.cons (by decide))
        dsimp only
        rw [htrim]
        exact hresult hf hcolumns
      · cases hs
  · simp only [endLines, hn, Option.isSome_none, Bool.false_or, Bool.false_eq_true, if_false] at hd
    rcases List.mem_append.1 hd with hd | hd
    · split at hd
      · next hf =>
        obtain ⟨hf, -⟩ := Bool.and_eq_true_iff.1 hf
        rw [List.mem_singleton.1 hd, List.append_assoc]
        exact hresult hf fun c hc => .inl (mem_of_allBlank (allBlank_indent t) c hc)
      · cases hd
    · rw [List.mem_singleton.1 hd] at hs
      cases hs

/-- What a line leaves of its statement is in lower case if the statement is. -/
theorem isLowered_inferLine (h : IsNamed a) (previous : Option Shape) {l : Line}
    (hl : l.shape.isAction = true → SmallCode l.text) {e : Entry} (he : e ∈ (inferLine a previous l).2)
    (hs : e.contents.shape.isAction = true) : IsLowered a.symbols e.contents.text := by
  generalize hr : inferLine a previous l = r at he
  cases infers hr with
  | kept | opened =>
    rw [List.mem_singleton.1 he] at hs ⊢
    exact .inl (hl hs)
  | closed =>
    obtain ⟨d, hd, rfl⟩ := List.mem_map.1 he
    exact isLowered_endLines h previous l.text hd hs
  | declared =>
    obtain ⟨d, hd, rfl⟩ := List.mem_map.1 he
    rw [Entry.contents, Analysis.shape_recordAll _ _ _ _ d hd] at hs
    cases hs
  | listed =>
    obtain ⟨n, -, rfl⟩ := List.mem_map.1 he
    cases hs
  | dropped => cases he
  | refused | defined =>
    rw [List.mem_singleton.1 he] at hs
    cases hs
  | returned hshape hf =>
    rw [List.mem_singleton.1 he]
    exact isLowered_returnResult h hf (hl (by rcases hshape with hs | hs <;> rw [hs] <;> rfl))

end Lowered

theorem IsLowered.mono {table symbols : SymbolTable} {t : Text} (h : IsLowered table t)
    (hs : ∀ n, table.has n = true → symbols.has n = true) : IsLowered symbols t := by
  rcases h with h | ⟨x, name, ht, hx, hword, hhas⟩
  · exact .inl h
  · exact .inr ⟨x, name, ht, hx, hword, hs name hhas⟩

/-- Behind the steps of inference every statement is in lower case, but for names of the table. -/
theorem isLowered_editFrom {lines : List Line} (hdeclares : ∀ l ∈ lines, l.declares = none)
    (hsmall : ∀ l ∈ lines, l.shape.isAction = true → SmallCode l.text) {s : Analysis × Option Shape}
    (hs : IsNamed s.1) (next : Nat) : ∀ m ∈ (Buffer.editFrom step s next lines).2.1,
      m.shape.isAction = true → IsLowered (after s lines).1.symbols m.text := by
  induction lines generalizing s next with
  | nil => exact fun m hm => nomatch hm
  | cons l lines ih =>
    intro m hm hshape
    rcases List.mem_append.1 hm with hm | hm
    · have hline {e : Entry} (he : e ∈ (step s l).2) (hc : e.contents = m.toDraft) :
          IsLowered s.1.symbols m.text := by
        have hlow := isLowered_inferLine hs s.2 (hsmall l List.mem_cons_self) he (by rwa [hc])
        rwa [hc] at hlow
      refine IsLowered.mono ?_ fun n hn => has_after hdeclares hn
      obtain ⟨-, ⟨he, -⟩ | ⟨he, -⟩⟩ := Buffer.mem_place hm
      · exact hline he rfl
      · exact hline he rfl
    · exact ih (fun k hk => hdeclares k (List.mem_cons_of_mem _ hk))
        (fun k hk => hsmall k (List.mem_cons_of_mem _ hk)) (isNamed_step hs (hdeclares l List.mem_cons_self))
        _ m hm hshape

section Run
variable {a : Analysis} {b : Buffer} {l : Line}

/-- The end of the stage adds no statement that does something, and changes none. -/
theorem mem_of_mem_run (hl : l ∈ (run a b).2.lines) (hs : l.shape.isAction = true)
    (hheader : (run a b).1.anchor? = some l.id → l.shape = .header) :
    let e := b.edit collectConstants a
    l ∈ (e.2.edit step (e.1, none)).2.lines := by
  simp only [run] at hl hheader ⊢
  generalize b.edit collectConstants a = e at hl hheader ⊢
  generalize e.2.edit step (e.1, none) = e' at hl hheader ⊢
  generalize reportUndeclared e'.1.1 e'.2.lines = a' at hl hheader
  rcases cases_of_mem_finishUnit hl with ⟨k, hk, rfl | ⟨hanchor, -⟩⟩ | ⟨p, hp⟩
  · exact hk
  · have hlast : (reportUntyped (finishUnit a' e'.2).1).anchor? = a'.anchor? :=
      Analysis.anchor?_congr ((Analysis.heading_reportAll _ _ _).trans (heading_finishUnit _ _))
    rw [hheader (hlast.trans hanchor)] at hs
    cases hs
  · rw [isAction_openingLines hp] at hs
    cases hs

theorem isReported_run {w : Text} (hl : let e := b.edit collectConstants a
      l ∈ (e.2.edit step (e.1, none)).2.lines) (hu : usesNames l.shape = true)
    (hw : w ∈ Names.plain (statementOf l.text)) (hk : isKnown (run a b).1 w = false) :
    IsReported (run a b).1 w := by
  simp only [run] at hl hk ⊢
  generalize b.edit collectConstants a = e at hl hk ⊢
  generalize e.2.edit step (e.1, none) = e' at hl hk ⊢
  have hknown : isKnown e'.1.1 w = false := by
    rw [← (quiet_isKnown w).reportUndeclared e'.1.1 e'.2.lines,
      ← (quiet_isKnown w).finishUnit _ (fun _ _ => rfl) e'.2, ← (quiet_isKnown w).reportAll _ none _]
    exact hk
  exact (isReported_reportUndeclared hl hu hw hknown).mono
    ((reports_finishUnit _ _).trans (Analysis.reports_reportAll _ _ _))

end Run

end Inference

end FixedForm
