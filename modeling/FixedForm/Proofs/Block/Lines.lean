import FixedForm.Proofs.Block.Braces
import FixedForm.Proofs.Block.Heads
import FixedForm.Proofs.Line.Buffer

/-! What one line of structured code becomes, as far as its braces go. -/
namespace FixedForm.Block
open Text

theorem mem_of_mem_statement {t : Text} {c : Char} (h : c ∈ (Labelled.split t).statement) :
    c ∈ t := by
  rcases split_cases t with ⟨blanks, digits, rest, hl⟩ | hn
  · rw [hl.split_eq] at h
    rw [hl.text_eq]
    simp [mem_of_mem_trim h]
  · rw [hn] at h
    exact mem_of_mem_trim h

section Braces
variable {g t : Text} {c : Char}

theorem closesBrace_indented (hg : g.allBlank = true) (hc : isBlank c = false) :
    closesBrace (g ++ c :: t) = (c == '\x7d') := by
  rw [closesBrace, trimStart_run hg (.cons hc)]
  rfl

theorem takeWhile_indented (hg : g.allBlank = true) (hc : isBlank c = false) :
    (g ++ c :: t).takeWhile isBlank = g :=
  takeWhile_run (mem_of_allBlank hg) (.cons hc)

theorem opensBrace_indented : opensBrace (g ++ c :: t) = opensBrace (c :: t) := by
  rw [opensBrace, List.getLast?_append]
  simp [opensBrace, List.getLast?_cons]

theorem opensBrace_brace : opensBrace (t ++ "\x7b") = true := by
  simp [opensBrace]

theorem closesBrace_of_free (h : braceFree t = true) : closesBrace t = false := by
  have hall := List.all_eq_true.1 h
  rw [closesBrace, beq_eq_false_iff_ne]
  intro hc
  have hm := (trimStart_suffix t).mem (List.mem_of_mem_head? hc)
  exact absurd (hall _ hm) (by decide)

theorem opensBrace_of_free (h : braceFree t = true) : opensBrace t = false := by
  have hall := List.all_eq_true.1 h
  rw [opensBrace, beq_eq_false_iff_ne]
  intro hc
  exact absurd (hall _ (List.mem_of_getLast? hc)) (by decide)

theorem braceFree_append {u : Text} : braceFree (t ++ u) = (braceFree t && braceFree u) := by
  simp [braceFree]

theorem braceFree_of_subset {u : Text} (h : braceFree t = true) (hu : ∀ c ∈ u, c ∈ t) :
    braceFree u = true := by
  simp only [braceFree, List.all_eq_true] at h ⊢
  exact fun c hc => h c (hu c hc)

theorem braceFree_of_class {p : Char → Bool} (hp : (p '\x7b' || p '\x7d') = false) (h : ∀ c ∈ t, p c = true) :
    braceFree t = true := by
  rw [Bool.or_eq_false_iff] at hp
  simp only [braceFree, List.all_eq_true]
  intro c hc
  cases hb : isBrace c with
  | false => rfl
  | true =>
    have hin := h c hc
    simp only [isBrace, Bool.or_eq_true, beq_iff_eq] at hb
    rcases hb with rfl | rfl
    · exact absurd hin (by simp [hp.1])
    · exact absurd hin (by simp [hp.2])

end Braces

theorem braceFree_labelName {unit k : Text} (hu : braceFree unit = true)
    (hk : ∀ c ∈ k, c.isDigit = true) : braceFree (labelName unit k) = true := by
  rw [labelName, braceFree_append, braceFree_append, hu, braceFree_of_class (by decide) hk]
  rfl

theorem braceFree_renameGotos {unit t : Text} (hu : braceFree unit = true) (ht : braceFree t = true) :
    braceFree (renameGotos unit t) = true := by
  rw [braceFree, List.all_eq_true] at ht ⊢
  refine forall_mem_substituteFrom (fun before t new left h hP => ?_) _ ht
  simp only [gotoRule, Option.bind_eq_bind, Option.bind_eq_some_iff, Option.some.injEq] at h
  obtain ⟨-, -, u, hgo, ⟨label, v⟩, hd, -, -, he⟩ := h
  simp only [Prod.mk.injEq] at he
  obtain ⟨rfl, rfl⟩ := he
  refine ⟨List.all_eq_true.1 ?_, fun c hc => hP c ?_⟩
  · have hl : braceFree (labelName unit label) = true := braceFree_labelName hu (digits?_isDigit hd)
    have happ : braceFree ("goto ".toList ++ labelName unit label) = true := by
      rw [braceFree_append, hl]
      rfl
    exact happ
  · simp only [Statement.afterGoto?, Option.bind_eq_bind, Option.bind_eq_some_iff] at hgo
    obtain ⟨w, hw, hto⟩ := hgo
    have h₁ := (digits?_suffix hd).trans (trimStart_suffix u)
    have h₂ := (after?_suffix hto).trans ((trimStart_suffix w).trans (after?_suffix hw))
    exact (h₁.trans h₂).mem hc

/-- A line that is no marker has the shape of its statement. -/
theorem Says.shape_eq {l : Line} {s w rest : Text} (h : Says l none s) (hs : s = w ++ rest)
    (hw : IsName w) (hr : StartsOutside (fun c => isWord c || c == ':') rest) :
    l.shape = Statement.shape s := by
  have hname : StartsName s := hs ▸ hw.startsName rest
  obtain ⟨c, u, hc, hcw, -⟩ := hname
  have htrim : l.text.trim = s := by
    rcases split_cases l.text with ⟨blanks, digits, rest, hl⟩ | hn
    · have hnone := h.label_eq
      rw [hl.split_eq] at hnone
      cases hnone
    · have hst := h.statement_eq
      rw [hn] at hst
      exact hst
  have hstart : ∃ v, l.text.trimStart = c :: v := by
    obtain ⟨v, hv⟩ := trimEnd_lead l.text.trimStart
    have hv' : l.text.trim ++ v = l.text.trimStart := hv
    rw [htrim, hc] at hv'
    exact ⟨u ++ v, by rw [← hv']; rfl⟩
  obtain ⟨v, hv⟩ := hstart
  have hb : l.text.allBlank = false := by
    rw [← allBlank_trimStart, hv]
    simp [allBlank, not_blank_of_word hcw]
  have hslash : Statement.isSlashComment l.text = false := by
    rw [Statement.isSlashComment, hv]
    exact Statement.startsWith_of_outside (p := (!isWord ·)) rfl (.cons (by simp [hcw]))
  have hlabel : Statement.isLabelLine l.text.trim = false := by
    rw [htrim, hs]
    have hout : StartsOutside isWord rest := hr.mono fun c hc => by simp [hc]
    refine Statement.isLabelLine_of_word? (word?_run hw.mem_word.2 hw.mem_word.1 hout) fun hc => ?_
    exact absurd (hr ':' hc) (by decide)
  have hcl := h.classified
  rw [Statement.classify, hb, hslash, hlabel] at hcl
  have hshape : Statement.shape (Labelled.split l.text).statement = l.shape := congrArg Prod.fst hcl
  rw [← hshape, h.statement_eq]

theorem Says.shape_eq_of_label {l : Line} {k s : Text} (h : Says l (some k) s) :
    l.shape = Statement.shape s ∧ (∀ c ∈ k, c.isDigit = true) := by
  rcases split_cases l.text with ⟨blanks, digits, rest, hl⟩ | hn
  · have hcl := h.classified
    rw [Statement.classify_labelled hl] at hcl
    have hst := h.statement_eq
    have hk := h.label_eq
    rw [hl.split_eq] at hst hk
    have hkd : digits = k := Option.some.inj hk
    refine ⟨?_, hkd ▸ hl.allDigit⟩
    rw [← (Prod.mk.inj hcl).1, ← hst]
  · have hnone := h.label_eq
    rw [hn] at hnone
    cases hnone

/-- What becomes of an unlabelled statement: its shape, and whether its text in the output starts with a
closing brace and ends with an opening one. -/
structure Renders (s : Text) (shape : Shape) (closes opens : Bool) : Prop where
  lead : ∃ w rest, s = w ++ rest ∧ IsName w ∧ StartsOutside (fun c => isWord c || c == ':') rest
  shape_eq : Statement.shape s = shape
  text : ∀ unit, ∃ c text issues, render unit shape s = (some (c :: text), issues) ∧
    isBlank c = false ∧ (c == '\x7d') = closes ∧ opensBrace (c :: text) = opens

theorem outside_gap {g t : Text} (hg : g.allBlank = true)
    (ht : StartsOutside (fun c => isWord c || c == ':') t) :
    StartsOutside (fun c => isWord c || c == ':') (g ++ t) := by
  cases g with
  | nil => exact ht
  | cons c g =>
    have hc := mem_of_allBlank hg c (by simp)
    have hne : c ≠ ':' := by
      rintro rfl
      exact absurd hc (by decide)
    exact .cons (by simp [not_word_of_blank hc, hne])

theorem trim_then {g : Text} (hg : g.allBlank = true) : trim (g ++ "then") = "then" := by
  have ht : trimStart (g ++ "then") = "then" := trimStart_run hg (.cons (by decide))
  rw [trim, ht]
  rfl

theorem opensBrace_head (t : Text) : opensBrace (t ++ ")\x7b") = true := by
  simp [opensBrace]

theorem IfThen.renders {s : Text} (h : IfThen s) : Renders s .conditional false true := by
  obtain ⟨h₁, hc, h₂⟩ := h
  rename_i g₁ cond g₂
  have hs : "if" ++ g₁ ++ "(" ++ cond ++ ")" ++ g₂ ++ "then" =
      "if" ++ (g₁ ++ '(' :: (cond ++ ')' :: (g₂ ++ "then"))) := by simp
  rw [hs]
  refine ⟨⟨"if", _, rfl, ⟨by decide, .cons (by decide)⟩, outside_gap h₁ (.cons (by decide))⟩, ?_,
    fun unit => ⟨'i', "f(" ++ cond ++ ")\x7b", [], ?_, by decide, by decide, ?_⟩⟩
  · refine Statement.shape_if ?_
    rw [trimStart_run h₁ (outside_paren _)]
    rfl
  · change Condition.render unit _ = _
    rw [render_if h₁ hc, trim_then h₂]
    rfl
  · exact opensBrace_head ('i' :: ("f(" ++ cond))

theorem ElseIf.renders {s : Text} (h : ElseIf s) : Renders s .conditional true true := by
  obtain ⟨h₀, h₁, hc, h₂⟩ := h
  rename_i g g₁ cond g₂
  have hs : "else" ++ g ++ ("if" ++ g₁ ++ "(" ++ cond ++ ")" ++ g₂ ++ "then") =
      "else" ++ (g ++ ("if" ++ (g₁ ++ '(' :: (cond ++ ')' :: (g₂ ++ "then"))))) := by simp
  have hout : StartsOutside (fun c => isWord c || c == ':')
      (g₁ ++ '(' :: (cond ++ ')' :: (g₂ ++ "then".toList))) := outside_gap h₁ (.cons (by decide))
  have hword := hout.mono (q := isWord) fun c hc => by simp [hc]
  rw [hs]
  refine ⟨?_, ?_, fun unit => ⟨'\x7d', "else if(" ++ cond ++ ")\x7b", [], ?_, by decide, by decide, ?_⟩⟩
  · by_cases hg : g = []
    · subst hg
      exact ⟨"elseif", _, rfl, ⟨by decide, .cons (by decide)⟩, hout⟩
    · obtain ⟨c, g, rfl⟩ := List.exists_cons_of_ne_nil hg
      exact ⟨"else", _, rfl, ⟨by decide, .cons (by decide)⟩, .append (by simp) (outside_gap h₀ .nil)⟩
  · by_cases hg : g = []
    · subst hg
      exact Statement.shape_elseif (wordEnds_of_outside hword)
    · refine Statement.shape_else (wordEnds_of_outside (.append hg ?_))
      exact List.append_nil g ▸ outside_word_gap h₀ .nil
  · change Condition.render unit _ = _
    rw [render_elseIf h₀ h₁ hc (trim_then h₂)]
    rfl
  · exact opensBrace_head ('\x7d' :: ("else if(" ++ cond))

theorem renders_else : Renders "else" .conditional true true := by
  refine ⟨⟨"else", [], rfl, ⟨by decide, .cons (by decide)⟩, .nil⟩, by decide, fun unit => ?_⟩
  exact ⟨'\x7d', "else\x7b", [], rfl, by decide, by decide, by decide⟩

theorem EndOf.lead {word s : Text} (h : EndOf word s) (hw : ∀ c ∈ word, isWord c = true) :
    ∃ w rest, s = w ++ rest ∧ IsName w ∧ StartsOutside (fun c => isWord c || c == ':') rest := by
  obtain ⟨hg⟩ := h
  rename_i g
  by_cases hn : g = []
  · subst hn
    refine ⟨"end" ++ word, [], by simp, ⟨?_, .cons (by decide)⟩, .nil⟩
    have hall : (word.all isWord) = true := List.all_eq_true.2 hw
    simp [isWordText, hall]
    decide
  · refine ⟨"end", g ++ word, by simp, ⟨by decide, .cons (by decide)⟩, .append hn ?_⟩
    exact List.append_nil g ▸ outside_gap hg .nil

theorem EndOf.renders_if {s : Text} (h : EndOf "if" s) : Renders s .conditional true false := by
  refine ⟨h.lead (List.all_eq_true.1 (by decide)), ?_, fun unit =>
    ⟨'\x7d', [], [], ?_, by decide, by decide, by decide⟩⟩
  · obtain ⟨hg⟩ := h
    rw [List.append_assoc]
    exact Statement.shape_end_if hg
  · obtain ⟨hg⟩ := h
    rw [List.append_assoc]
    exact render_endIf hg unit

theorem EndOf.renders_do {s : Text} (h : EndOf "do" s) : Renders s .loopEnd true false := by
  refine ⟨h.lead (List.all_eq_true.1 (by decide)), ?_, fun unit =>
    ⟨'\x7d', [], [], rfl, by decide, by decide, by decide⟩⟩
  obtain ⟨hg⟩ := h
  rw [List.append_assoc]
  exact Statement.shape_end_do hg

theorem DoHead.gap {label : Option Text} {s : Text} (h : DoHead label s) :
    ∃ g u, s = "do" ++ (g ++ u) ∧ g.allBlank = true ∧ g ≠ [] ∧ StartsOutside isBlank u ∧
      StartsOutside (· == '=') u := by
  have hdigit {c : Char} (hc : isWord c = true) : (c == '=') = false := by
    rw [beq_eq_false_iff_ne]
    rintro rfl
    exact absurd hc (by decide)
  have heq {target u : Text} (ht : Target label target) (hu : StartsName u) :
      StartsOutside (· == '=') (target ++ u) := by
    rcases ht.read hu with ⟨-, rfl⟩ | ⟨k, v, -, hk, hv, -⟩
    · obtain ⟨c, u, rfl, hc, -⟩ := hu
      exact .cons (hdigit hc)
    · have hm := mem_of_isDigits hk
      rw [hv]
      exact .append hm.1 fun c hc => hdigit (word_of_digit (hm.2 c (List.mem_of_mem_head? hc)))
  cases h with
  | @counted g target counter g' bounds hg hne ht hc hg' hb =>
    have hu := hc.startsName (g' ++ '=' :: bounds)
    exact ⟨g, target ++ (counter ++ (g' ++ '=' :: bounds)), by simp, hg, hne, ht.outside_blank hu,
      heq ht hu⟩
  | @whileTrue g target g' cond hg hne ht hg' hc =>
    have hu : StartsName ("while" ++ (g' ++ '(' :: (cond ++ [')']))) :=
      ⟨'w', _, rfl, by decide, by decide⟩
    exact ⟨g, target ++ ("while" ++ (g' ++ '(' :: (cond ++ [')']))), by simp, hg, hne,
      ht.outside_blank hu, heq ht hu⟩

theorem DoHead.renders {label : Option Text} {s : Text} (h : DoHead label s) :
    Renders s .loop false true := by
  obtain ⟨g, u, rfl, hg, hne, hu, he⟩ := h.gap
  have hout : StartsOutside (fun c => isWord c || c == ':') (g ++ u) :=
    .append hne (List.append_nil g ▸ outside_gap hg .nil)
  refine ⟨⟨"do", g ++ u, rfl, ⟨by decide, .cons (by decide)⟩, hout⟩, ?_, fun unit => ?_⟩
  · refine Statement.shape_do (hout.mono fun c hc => by simp [hc]) ?_
    rw [trimStart_run hg hu]
    exact Statement.startsWith_of_outside rfl he
  · obtain ⟨-, text, issues, ht, c, v, rfl, hc, -⟩ := h.result
    refine ⟨c, v ++ "\x7b", issues, ?_, not_blank_of_word hc, ?_, opensBrace_brace (t := c :: v)⟩
    · change (some (renderLoop _).1, (renderLoop _).2) = _
      rw [ht]
      rfl
    · rw [beq_eq_false_iff_ne]
      rintro rfl
      exact absurd hc (by decide)

end FixedForm.Block
