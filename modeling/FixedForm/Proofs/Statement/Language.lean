import FixedForm.Proofs.Block.Grammar
import FixedForm.Proofs.Statement.Field
import FixedForm.Proofs.Statement.Opener
import FixedForm.Proofs.Text.Pieces
import FixedForm.Vocabulary
import Mathlib.Data.List.TakeDrop

/-! The statement language.  `IsStatement` says which texts are statements of which shape, and `IsField` what
may stand in the columns before a statement.  Every line that is put together from the two is recognised:
no form takes a statement of another kind, whatever its names and expressions are. -/
namespace FixedForm.Statement
open Text

/-- What may stand before the kind of a unit: nothing, or a type with or without a length. -/
inductive TypeLead : Text → Prop where
  | none : TypeLead []
  | plain (b : BaseType) {g : Text} (hg : g.allBlank = true) (hne : g ≠ []) : TypeLead (b.name ++ g)
  | length (b : BaseType) {g g' length g'' : Text} (hg : g.allBlank = true) (hg' : g'.allBlank = true)
      (hl : length ≠ []) (hsolid : ∀ c ∈ length, isBlank c = false) (hg'' : g''.allBlank = true)
      (hne : g'' ≠ []) : TypeLead (b.name ++ (g ++ '*' :: (g' ++ (length ++ g''))))

/-- What may stand behind the name of a unit. -/
inductive ArgumentList : Text → Prop where
  | none : ArgumentList []
  | list {g inner : Text} (hg : g.allBlank = true) (hl : inner.hasLineEnd = false) :
      ArgumentList (g ++ '(' :: (inner ++ ")"))

/-- Statements of a word that may be followed by anything but more of the word. -/
def keywordStatements : List (Shape × Text) :=
  [(.external, "external"), (.intrinsic, "intrinsic"), (.implicit, "implicit"), (.returns, "return")]

/-- The statements of the language, by their shape. -/
inductive IsStatement : Shape → Text → Prop where
  | header {type g name arguments : Text} (kind : UnitKind) (ht : TypeLead type) (hg : g.allBlank = true)
      (hne : g ≠ []) (hn : IsName name) (ha : ArgumentList arguments) :
      IsStatement .header (type ++ (kind.name ++ (g ++ (name ++ arguments))))
  | unitEnd : IsStatement .unitEnd "end"
  | unitEndKind {g : Text} (kind : UnitKind) (hg : g.allBlank = true) (hne : g ≠ []) :
      IsStatement .unitEnd ("end" ++ (g ++ kind.name))
  | unitEndName {g g' name : Text} (kind : UnitKind) (hg : g.allBlank = true) (hne : g ≠ [])
      (hg' : g'.allBlank = true) (hne' : g' ≠ []) (hn : IsName name) :
      IsStatement .unitEnd ("end" ++ (g ++ (kind.name ++ (g' ++ name))))
  | parameter {g rest : Text} (hg : g.allBlank = true) : IsStatement .parameter ("parameter" ++ (g ++ '(' :: rest))
  | keyword {k : Shape} {word rest : Text} (hk : (k, word) ∈ keywordStatements) (hr : StartsOutside isWord rest) :
      IsStatement k (word ++ rest)
  /-- What follows a type declares names; it does not head a unit. -/
  | declaration (b : BaseType) {rest : Text} (hr : StartsOutside isWord rest)
      (hu : ∀ kind : UnitKind, kind.name ∉ words rest) : IsStatement .declaration (b.name ++ rest)
  | counted {label : Option Text} {g target counter g' rest : Text} (hg : g.allBlank = true) (hne : g ≠ [])
      (ht : Block.Target label target) (hc : IsName counter) (hg' : g'.allBlank = true) :
      IsStatement .loop ("do" ++ (g ++ (target ++ (counter ++ (g' ++ '=' :: rest)))))
  | whileTrue {label : Option Text} {g target g' rest : Text} (hg : g.allBlank = true) (hne : g ≠ [])
      (ht : Block.Target label target) (hg' : g'.allBlank = true) :
      IsStatement .loop ("do" ++ (g ++ (target ++ ("while" ++ (g' ++ '(' :: rest)))))
  | endDo {g : Text} (hg : g.allBlank = true) : IsStatement .loopEnd ("end" ++ (g ++ "do"))
  | continues : IsStatement .loopEnd "continue"
  | ifTrue {g rest : Text} (hg : g.allBlank = true) : IsStatement .conditional ("if" ++ (g ++ '(' :: rest))
  | otherwise : IsStatement .conditional "else"
  | elseIf {g g' rest : Text} (hg : g.allBlank = true) (hg' : g'.allBlank = true) :
      IsStatement .conditional ("else" ++ (g ++ ("if" ++ (g' ++ '(' :: rest))))
  | endIf {g : Text} (hg : g.allBlank = true) : IsStatement .conditional ("end" ++ (g ++ "if"))
  | goto {g rest : Text} (hg : g.allBlank = true) (hr : StartsOutside isWord rest) :
      IsStatement .goto ("go" ++ (g ++ ("to" ++ rest)))
  | call {g name rest : Text} (hg : g.allBlank = true) (hne : g ≠ []) (hn : IsName name)
      (hr : StartsOutside isWord rest) : IsStatement .call ("call" ++ (g ++ (name ++ rest)))
  | assign {w g e : Text} (hw : IsName w) (hr : isReserved w = false) (hg : g.allBlank = true)
      (he : e.head? ≠ some '=') : IsStatement .assignment (w ++ (g ++ '=' :: e))
  | assignElement {w g index g' e : Text} (hw : IsName w) (hr : isReserved w = false) (hg : g.allBlank = true)
      (hi : '=' ∉ index) (hg' : g'.allBlank = true) (he : e.head? ≠ some '=') :
      IsStatement .assignment (w ++ (g ++ '(' :: (index ++ ')' :: (g' ++ '=' :: e))))

/-- The columns before a statement, with or without a label. -/
inductive IsField : Option Text → Text → Prop where
  | blank {g : Text} (hg : g.allBlank = true) : IsField none g
  | label {g digits g' : Text} (hg : g.allBlank = true) (hd : digits.isDigits = true)
      (hlen : g.length + digits.length ≤ 5) (hg' : g'.allBlank = true) (hne : g' ≠ []) :
      IsField (some digits) (g ++ (digits ++ g'))

/-! ### Headers and declarations -/

theorem lead?_baseType (b : BaseType) (rest : Text) : BaseType.lead? (b.name ++ rest) = some (b, rest) := by
  cases b <;> rfl

theorem lead?_unitKind (kind : UnitKind) (rest : Text) : UnitKind.lead? (kind.name ++ rest) = some (kind, rest) := by
  cases kind <;> rfl

theorem outside_blank_unitKind (kind : UnitKind) (rest : Text) : StartsOutside isBlank (kind.name ++ rest) := by
  cases kind <;> exact .cons (by decide)

theorem afterType?_blanks {g t : Text} (hg : g.allBlank = true) (hne : g ≠ []) (ht : StartsOutside isBlank t)
    (hstar : StartsOutside (· == '*') t) : Header.afterType? (g ++ t) = some t := by
  rw [Header.afterType?, trimStart_run hg ht]
  split
  · exact absurd (hstar '*' rfl) (by decide)
  · exact blanks?_run hg hne ht

theorem afterType?_length {g g' length g'' t : Text} (hg : g.allBlank = true) (hg' : g'.allBlank = true)
    (hl : length ≠ []) (hsolid : ∀ c ∈ length, isBlank c = false) (hg'' : g''.allBlank = true) (hne : g'' ≠ [])
    (ht : StartsOutside isBlank t) : Header.afterType? (g ++ '*' :: (g' ++ (length ++ (g'' ++ t)))) = some t := by
  have hrun : ∀ c ∈ length, (!isBlank c) = true := fun c hc => by simp [hsolid c hc]
  have hend : StartsOutside (!isBlank ·) (g'' ++ t) :=
    .append hne fun c hc => by simp [mem_of_allBlank hg'' c (List.mem_of_mem_head? hc)]
  have hstart : StartsOutside isBlank (length ++ (g'' ++ t)) :=
    .append hl fun c hc => hsolid c (List.mem_of_mem_head? hc)
  have hempty : length.isEmpty = false := by simpa using hl
  rw [Header.afterType?, trimStart_run hg (.cons (by decide))]
  simp [trimStart_run hg' hstart, List.span_eq_takeWhile_dropWhile, takeWhile_run hrun hend,
    dropWhile_run hrun hend, hempty, blanks?_run hg'' hne ht]

theorem type?_lead {type : Text} (ht : TypeLead type) (kind : UnitKind) (rest : Text) :
    ∃ base, Header.type? (type ++ (kind.name ++ rest)) = some (base, kind.name ++ rest) := by
  have hkind := outside_blank_unitKind kind rest
  cases ht with
  | none =>
    refine ⟨none, ?_⟩
    cases kind <;> rfl
  | plain b hg hne =>
    have hstar : StartsOutside (· == '*') (kind.name ++ rest) := by cases kind <;> exact .cons (by decide)
    refine ⟨some b, ?_⟩
    rw [List.append_assoc, Header.type?, lead?_baseType]
    simp [afterType?_blanks hg hne hkind hstar]
  | length b hg hg' hl hsolid hg'' hne =>
    refine ⟨some b, ?_⟩
    simp only [List.append_assoc, List.cons_append]
    rw [Header.type?, lead?_baseType]
    simp [afterType?_length hg hg' hl hsolid hg'' hne hkind]

theorem isSome_parse?_header {type g name arguments : Text} {kind : UnitKind} (ht : TypeLead type)
    (hg : g.allBlank = true) (hne : g ≠ []) (hn : IsName name) (ha : ArgumentList arguments) :
    (Header.parse? (type ++ (kind.name ++ (g ++ (name ++ arguments))))).isSome = true := by
  obtain ⟨base, htype⟩ := type?_lead ht kind (g ++ (name ++ arguments))
  have hout : StartsOutside isWord arguments := by
    cases ha with
    | none => exact .nil
    | list hgap hl => exact outside_word_gap hgap (.cons (by decide))
  have hword := word?_run hn.mem_word.2 hn.mem_word.1 hout
  simp only [Header.parse?, htype, Option.bind_eq_bind, Option.bind_some, lead?_unitKind,
    blanks?_run hg hne (hn.startsName arguments).outside_blank, hword]
  cases ha with
  | none => rfl
  | @list g' inner hgap hl =>
    have hlast : trimEnd (inner ++ [')']) = inner ++ [')'] := trimEnd_of_last (by decide)
    rw [trimStart_run hgap (.cons (by decide))]
    simp [Header.argumentText?, hlast, hl]

/-- What follows a type and its length stands behind a blank. -/
theorem eq_of_afterType? {t rest : Text} (h : Header.afterType? t = some rest) :
    ∃ x c, t = x ++ c :: rest ∧ isBlank c = true := by
  have hgap {u : Text} (hu : blanks? u = some rest) : ∃ x c, u = x ++ c :: rest ∧ isBlank c = true := by
    obtain ⟨g, rfl, hg, hne⟩ := eq_of_blanks? hu
    refine ⟨g.dropLast, g.getLast hne, ?_, mem_of_allBlank hg _ (List.getLast_mem hne)⟩
    rw [← List.singleton_append, ← List.append_assoc, List.dropLast_concat_getLast]
  rw [Header.afterType?] at h
  split at h
  · next u hu =>
    simp only [List.span_eq_takeWhile_dropWhile] at h
    split at h
    · cases h
    · obtain ⟨x, c, hx, hc⟩ := hgap h
      have hsuffix : (trimStart u).dropWhile (!isBlank ·) <:+ t :=
        (List.dropWhile_suffix _).trans ((List.dropWhile_suffix _).trans
          ((List.suffix_cons '*' u).trans (hu.symm ▸ List.dropWhile_suffix isBlank : '*' :: u <:+ t)))
      obtain ⟨y, rfl⟩ := hsuffix
      exact ⟨y ++ x, c, by rw [hx, List.append_assoc], hc⟩
  · exact hgap h

theorem mem_words_of_afterType? {t rest : Text} {kind : UnitKind} (h : Header.afterType? t = some (kind.name ++ rest))
    (hr : StartsOutside isWord rest) : kind.name ∈ words t := by
  obtain ⟨x, c, rfl, hc⟩ := eq_of_afterType? h
  have hne : kind.name ≠ [] := by cases kind <;> decide
  have hword : ∀ d ∈ kind.name, isWord d = true := List.all_eq_true.1 (by cases kind <;> decide)
  exact mem_words (not_word_of_blank hc) hne hword x hr

section Declarations
variable {rest : Text} (hu : ∀ kind : UnitKind, kind.name ∉ words rest)
include hu

theorem parse?_declaration (b : BaseType) : Header.parse? (b.name ++ rest) = none := by
  rw [Option.eq_none_iff_forall_not_mem]
  intro header h
  obtain ⟨⟨base, u⟩, htype, h⟩ := Option.bind_eq_some_iff.1 h
  obtain ⟨⟨kind, v⟩, hkind, h⟩ := Option.bind_eq_some_iff.1 h
  obtain ⟨name, hgap, -⟩ := Option.bind_eq_some_iff.1 h
  rw [Header.type?, lead?_baseType] at htype
  obtain ⟨u', hafter, he⟩ := Option.map_eq_some_iff.1 htype
  cases he
  rw [eq_of_unitKind hkind] at hafter
  exact hu kind (mem_words_of_afterType? hafter (outside_of_blanks? (Option.isSome_of_eq_some hgap)))

theorem functionFollows_declaration : functionFollows rest = false := by
  rw [functionFollows]
  cases ha : Header.afterType? rest with
  | none => rfl
  | some u =>
    cases hk : hasKeyword "function" u with
    | false => simpa using hk
    | true =>
      obtain ⟨v, hv, hout⟩ := eq_of_hasKeyword hk
      rw [eq_of_after? hv] at ha
      exact absurd (mem_words_of_afterType? ha hout) (hu .function)

end Declarations

/-! ### The shape of every statement -/

/-- A word that is not reserved opens no form before the assignment. -/
theorem opens_none_of_not_reserved {w : Text} (hne : w ≠ []) (hr : isReserved w = false) :
    ((forms.take 13).drop 0).all (fun f => !(openers f.1).contains w) = true := by
  have hall : ∀ f ∈ forms.take 13, ∀ x ∈ openers f.1, x = [] ∨ isReserved x = true := by decide +kernel
  refine List.all_eq_true.2 fun f hf => ?_
  cases hc : (openers f.1).contains w with
  | false => rfl
  | true =>
    rcases hall f hf w (by simpa using hc) with h | h
    · exact absurd h hne
    · rw [hr] at h
      cases h

theorem shape_assignment {w rest : Text} (hw : IsName w) (hr : isReserved w = false)
    (hrest : StartsOutside isWord rest) (h : isAssignment (w ++ rest) = true) : shape (w ++ rest) = .assignment :=
  shape_of_opener 0 13 (Nat.le_refl _) rfl (takeWhile_run hw.mem_word.2 hrest)
    (opens_none_of_not_reserved hw.mem_word.1 hr) rfl h

theorem startsAssign_cons {e : Text} (he : e.head? ≠ some '=') : startsAssign ('=' :: e) = true := by
  have hstart : StartsOutside (· == '=') e := fun c hc => by
    simp only [beq_eq_false_iff_ne]
    rintro rfl
    exact he hc
  have hnot : startsWith "=" e = false := startsWith_of_outside (p := (· == '=')) (by decide) hstart
  rw [startsAssign, hnot]
  rfl

theorem isAssignment_name {w g e : Text} (hw : IsName w) (hg : g.allBlank = true) (he : e.head? ≠ some '=') :
    isAssignment (w ++ (g ++ '=' :: e)) = true := by
  have hout : StartsOutside isWord (g ++ '=' :: e) := outside_word_gap hg (.cons (by decide))
  rw [isAssignment, word?_run hw.mem_word.2 hw.mem_word.1 hout]
  simp only [trimStart_run hg (.cons (by decide) : StartsOutside isBlank ('=' :: e))]
  exact startsAssign_cons he

theorem isAssignment_element {w g index g' e : Text} (hw : IsName w) (hg : g.allBlank = true) (hi : '=' ∉ index)
    (hg' : g'.allBlank = true) (he : e.head? ≠ some '=') :
    isAssignment (w ++ (g ++ '(' :: (index ++ ')' :: (g' ++ '=' :: e)))) = true := by
  have hout : StartsOutside isWord (g ++ '(' :: (index ++ ')' :: (g' ++ '=' :: e))) :=
    outside_word_gap hg (.cons (by decide))
  have hrun : ∀ c ∈ index ++ ([')'] ++ g'), (c != '=') = true := by
    intro c hc
    simp only [bne_iff_ne]
    rintro rfl
    simp only [List.mem_append, List.mem_singleton] at hc
    rcases hc with hc | hc | hc
    · exact hi hc
    · cases hc
    · exact absurd (mem_of_allBlank hg' _ hc) (by decide)
  have hsplit : index ++ ')' :: (g' ++ '=' :: e) = (index ++ ([')'] ++ g')) ++ '=' :: e := by simp
  have hend : StartsOutside (· != '=') ('=' :: e) := .cons (by decide)
  have hlast : (trimEnd (index ++ ([')'] ++ g'))).getLast? = some ')' := by
    rw [← List.append_assoc, trimEnd_blanks hg', trimEnd_of_last (by decide)]
    simp
  rw [isAssignment, word?_run hw.mem_word.2 hw.mem_word.1 hout]
  simp only [trimStart_run hg (.cons (by decide) : StartsOutside isBlank ('(' :: _)), hsplit,
    List.span_eq_takeWhile_dropWhile, takeWhile_run hrun hend, dropWhile_run hrun hend, hlast, startsAssign_cons he]
  rfl

theorem shape_keyword {k : Shape} {word rest : Text} (hk : (k, word) ∈ keywordStatements)
    (hr : StartsOutside isWord rest) : shape (word ++ rest) = k := by
  have hfits : hasKeyword word (word ++ rest) = true := hasKeyword_append (wordEnds_of_outside hr)
  have hopener (hw : word.all isWord = true) : opener (word ++ rest) = word :=
    takeWhile_run (List.all_eq_true.1 hw) hr
  simp only [keywordStatements, List.mem_cons, Prod.mk.injEq, List.not_mem_nil, or_false] at hk
  rcases hk with ⟨rfl, rfl⟩ | ⟨rfl, rfl⟩ | ⟨rfl, rfl⟩ | ⟨rfl, rfl⟩
  · exact shape_of_opener 0 3 (by decide) rfl (hopener rfl) rfl rfl hfits
  · exact shape_of_opener 0 4 (by decide) rfl (hopener rfl) rfl rfl hfits
  · exact shape_of_opener 0 5 (by decide) rfl (hopener rfl) rfl rfl hfits
  · exact shape_of_opener 0 12 (by decide) rfl (hopener rfl) rfl rfl hfits

theorem shape_declaration (b : BaseType) {rest : Text} (hr : StartsOutside isWord rest)
    (hu : ∀ kind : UnitKind, kind.name ∉ words rest) : shape (b.name ++ rest) = .declaration := by
  have hword : b.name.all isWord = true := by cases b <;> rfl
  have hheader : (forms.take 1).find? (fun f => f.2 (b.name ++ rest)) = none := by
    simp [forms, parse?_declaration hu b]
  refine shape_of_opener 1 6 (by decide) hheader (takeWhile_run (List.all_eq_true.1 hword) hr) ?_ rfl ?_
  · cases b <;> rfl
  · rw [isDeclaration, lead?_baseType]
    simp [wordEnds_of_outside hr, functionFollows_declaration hu]

theorem isEnd_kind {g rest : Text} (kind : UnitKind) (hg : g.allBlank = true) (hne : g ≠ [])
    (hr : rest.allBlank = true ∨ ∃ g' name, rest = g' ++ name ∧ g'.allBlank = true ∧ g' ≠ [] ∧ IsName name) :
    isEnd ("end" ++ (g ++ (kind.name ++ rest))) = true := by
  rw [isEnd, after?_append]
  simp only [blanks?_run hg hne (outside_blank_unitKind kind rest), Option.bind_some, lead?_unitKind,
    Bool.or_eq_true]
  right
  rcases hr with hr | ⟨g', name, rfl, hg', hne', hn⟩
  · exact .inl hr
  · right
    have hword := word?_run hn.mem_word.2 hn.mem_word.1 .nil
    rw [List.append_nil] at hword
    have hstart := (hn.startsName []).outside_blank
    rw [List.append_nil] at hstart
    simp only [blanks?_run hg' hne' hstart, Option.bind_some, hword]
    rfl

theorem shape_unitEnd {t : Text} (h : isEnd t = true) : shape t = .unitEnd :=
  shape_of_opener 0 1 (by decide) rfl (opener_isEnd h) rfl rfl h

theorem startsWith_paren {g rest : Text} (hg : g.allBlank = true) :
    startsWith "(" (trimStart (g ++ '(' :: rest)) = true := by
  rw [trimStart_run hg (.cons (by decide))]
  rfl

theorem shape_parameter {g rest : Text} (hg : g.allBlank = true) :
    shape ("parameter" ++ (g ++ '(' :: rest)) = .parameter := by
  have h : isParameter ("parameter" ++ (g ++ '(' :: rest)) = true := by
    rw [isParameter, after?_append]
    exact startsWith_paren hg
  exact shape_of_opener 0 2 (by decide) rfl (opener_of_paren (by decide) h) rfl rfl h

/-- Behind `do` and a gap comes a word, and so no equal sign. -/
theorem shape_do_word {g target w rest : Text} {label : Option Text} (hg : g.allBlank = true) (hne : g ≠ [])
    (ht : Block.Target label target) (hw : IsName w) : shape ("do" ++ (g ++ (target ++ (w ++ rest)))) = .loop := by
  have hstart : StartsOutside (fun c => isBlank c || c == '=') (target ++ (w ++ rest)) := by
    have hword {c : Char} (hc : isWord c = true) : (isBlank c || c == '=') = false := by
      have hne : c ≠ '=' := by
        rintro rfl
        exact absurd hc (by decide)
      simp [not_blank_of_word hc, hne]
    have hdigits {k : Text} (hk : k.isDigits = true) (u : Text) :
        StartsOutside (fun c => isBlank c || c == '=') (k ++ u) :=
      .append (mem_of_isDigits hk).1 fun c hc =>
        hword (word_of_digit ((mem_of_isDigits hk).2 c (List.mem_of_mem_head? hc)))
    cases ht with
    | none =>
      rw [List.nil_append]
      exact .append hw.mem_word.1 fun c hc => hword (hw.mem_word.2 c (List.mem_of_mem_head? hc))
    | plain hk _ =>
      rw [List.append_assoc]
      exact hdigits hk _
    | comma hk _ _ =>
      simp only [List.append_assoc]
      exact hdigits hk _
  refine shape_do (.append hne (outside_of_allBlank hg)) ?_
  rw [trimStart_run hg (hstart.mono fun c hc => by simp [hc])]
  exact startsWith_of_outside (p := fun c => isBlank c || c == '=') (by decide) hstart

theorem shape_goto {g rest : Text} (hg : g.allBlank = true) (hr : StartsOutside isWord rest) :
    shape ("go" ++ (g ++ ("to" ++ rest))) = .goto := by
  have h : isGoto ("go" ++ (g ++ ("to" ++ rest))) = true := by
    have hto : StartsOutside isBlank ("to" ++ rest) := .cons (by decide)
    rw [isGoto, afterGoto?, after?_append, Option.bind_eq_bind, Option.bind_some, trimStart_run hg hto,
      after?_append]
    exact wordEnds_of_outside hr
  rcases List.mem_cons.1 (opener_isGoto h) with hgo | hgoto
  · exact shape_of_opener 0 10 (by decide) rfl hgo rfl rfl h
  · exact shape_of_opener 0 10 (by decide) rfl (List.mem_singleton.1 hgoto) rfl rfl h

theorem shape_call {g name rest : Text} (hg : g.allBlank = true) (hne : g ≠ []) (hn : IsName name)
    (hr : StartsOutside isWord rest) : shape ("call" ++ (g ++ (name ++ rest))) = .call := by
  have h : isCall ("call" ++ (g ++ (name ++ rest))) = true := by
    rw [isCall, after?_append, Option.bind_some, blanks?_run hg hne (hn.startsName rest).outside_blank,
      Option.bind_some, word?_run hn.mem_word.2 hn.mem_word.1 hr]
    rfl
  exact shape_of_opener 0 11 (by decide) rfl (opener_isCall h) rfl rfl h

theorem shape_elseIf {g rest : Text} (hg : g.allBlank = true) (hr : StartsOutside isWord rest) :
    shape ("else" ++ (g ++ ("if" ++ rest))) = .conditional := by
  by_cases hne : g = []
  · subst hne
    exact shape_elseif (wordEnds_of_outside hr)
  · exact shape_else (wordEnds_of_outside (.append hne (outside_of_allBlank hg)))

theorem IsStatement.shape_eq {k : Shape} {t : Text} (h : IsStatement k t) : shape t = k := by
  cases h with
  | header kind ht hg hne hn ha => exact shape_eq_of_find? 0 rfl rfl (isSome_parse?_header ht hg hne hn ha)
  | unitEnd => exact shape_unitEnd (by decide)
  | unitEndKind kind hg hne =>
    have h := isEnd_kind kind hg hne (.inl (rfl : allBlank [] = true))
    rw [List.append_nil] at h
    exact shape_unitEnd h
  | unitEndName kind hg hne hg' hne' hn =>
    exact shape_unitEnd (isEnd_kind kind hg hne (.inr ⟨_, _, rfl, hg', hne', hn⟩))
  | parameter hg => exact shape_parameter hg
  | keyword hk hr => exact shape_keyword hk hr
  | declaration b hr hu => exact shape_declaration b hr hu
  | counted hg hne ht hc _ => exact shape_do_word hg hne ht hc
  | whileTrue hg hne ht _ => exact shape_do_word hg hne ht (by decide)
  | endDo hg => exact shape_end_do hg
  | continues => exact shape_continue
  | ifTrue hg => exact shape_if (startsWith_paren hg)
  | otherwise => exact shape_else (t := []) rfl
  | elseIf hg hg' => exact shape_elseIf hg (outside_word_gap hg' (.cons (by decide)))
  | endIf hg => exact shape_end_if hg
  | goto hg hr => exact shape_goto hg hr
  | call hg hne hn hr => exact shape_call hg hne hn hr
  | assign hw hr hg he =>
    exact shape_assignment hw hr (outside_word_gap hg (.cons (by decide))) (isAssignment_name hw hg he)
  | assignElement hw hr hg hi hg' he =>
    exact shape_assignment hw hr (outside_word_gap hg (.cons (by decide))) (isAssignment_element hw hg hi hg' he)

/-! ### Lines -/

/-- A statement starts with a letter or an underscore. -/
theorem IsStatement.startsName {k : Shape} {t : Text} (h : IsStatement k t) : StartsName t := by
  have hbase (b : BaseType) (u : Text) : StartsName (b.name ++ u) := by
    cases b <;> exact ⟨_, _, rfl, by decide, by decide⟩
  cases h with
  | @header type g name arguments kind ht =>
    cases ht with
    | none => cases kind <;> exact ⟨_, _, rfl, by decide, by decide⟩
    | plain b | length b =>
      rw [List.append_assoc]
      exact hbase b _
  | keyword hk hr =>
    simp only [keywordStatements, List.mem_cons, Prod.mk.injEq, List.not_mem_nil, or_false] at hk
    rcases hk with ⟨rfl, rfl⟩ | ⟨rfl, rfl⟩ | ⟨rfl, rfl⟩ | ⟨rfl, rfl⟩ <;>
      exact ⟨_, _, rfl, by decide, by decide⟩
  | declaration b => exact hbase b _
  | assign hw => exact hw.startsName _
  | assignElement hw => exact hw.startsName _
  | _ => exact ⟨_, _, rfl, by decide, by decide⟩

theorem isLabelLine_of_opener {t : Text} (h : ((opener t).spanEnd Char.isDigit).2 = []) :
    isLabelLine t = false := by
  rw [isLabelLine]
  split
  · next w rest hw =>
    obtain ⟨ht, hne, hword⟩ := eq_of_word? hw
    have hopener : opener t = w := by
      rw [ht]
      exact takeWhile_run hword (.cons (by decide))
    rw [hopener] at h
    simp [h]
  · rfl

/-- A statement is no label of the output: those end in digits, and no word that opens a statement does,
while behind the name of an assignment there is no colon. -/
theorem IsStatement.not_labelLine {k : Shape} {t : Text} (h : IsStatement k t) : isLabelLine t = false := by
  have hname {w g u : Text} {c : Char} (hw : IsName w) (hg : g.allBlank = true) (hc : isWord c = false)
      (hcolon : c ≠ ':') : isLabelLine (w ++ (g ++ c :: u)) = false := by
    refine isLabelLine_of_word? (word?_run hw.mem_word.2 hw.mem_word.1 (outside_word_gap hg (.cons hc))) ?_
    cases g with
    | nil => simpa using hcolon
    | cons b g =>
      rintro hb
      obtain rfl : b = ':' := by simpa using hb
      exact absurd (mem_of_allBlank hg ':' (by simp)) (by decide)
  have hopeners : ∀ k, ∀ w ∈ openers k, (spanEnd Char.isDigit w).2 = [] := by
    intro k
    cases k <;> decide
  have hkeyword (ha : k ≠ .assignment) (ho : k ≠ .other) : isLabelLine t = false := by
    have hmem := h.shape_eq ▸ opener_of_shape (h.shape_eq ▸ ha) (h.shape_eq ▸ ho)
    exact isLabelLine_of_opener (hopeners k _ hmem)
  cases h with
  | assign hw hr hg he => exact hname hw hg (by decide) (by decide)
  | assignElement hw hr hg => exact hname hw hg (by decide) (by decide)
  | keyword hk hr =>
    simp only [keywordStatements, List.mem_cons, Prod.mk.injEq, List.not_mem_nil, or_false] at hk
    rcases hk with ⟨rfl, -⟩ | ⟨rfl, -⟩ | ⟨rfl, -⟩ | ⟨rfl, -⟩ <;> exact hkeyword (by decide) (by decide)
  | _ => exact hkeyword (by decide) (by decide)

/-- A line that starts with a name behind blanks has no label. -/
theorem split_unlabelled {g t : Text} (hg : g.allBlank = true) (hs : StartsName t) :
    Labelled.split (g ++ t) = { label := none, statement := t.trimEnd, columns := [] } := by
  have htrim : trim (g ++ t) = t.trimEnd := by rw [trim, trimStart_run hg hs.outside_blank]
  obtain ⟨c, u, rfl, hc, hd⟩ := hs
  rcases split_cases (g ++ c :: u) with ⟨blanks, digits, rest, hlabel⟩ | h
  · have hnone := label_none (t := c :: u) hg (by simp [startsSolid, not_blank_of_word hc, hd])
    rw [hlabel.split_eq] at hnone
    cases hnone
  · rw [h, htrim]

theorem classify_unlabelled {g t : Text} (hg : g.allBlank = true) (hs : StartsName t)
    (hl : isLabelLine t.trimEnd = false) : classify (g ++ t) = (shape t.trimEnd, none) := by
  have htrim : trim (g ++ t) = t.trimEnd := by rw [trim, trimStart_run hg hs.outside_blank]
  have hsplit := split_unlabelled hg hs
  obtain ⟨c, u, rfl, hc, -⟩ := hs
  have hb := not_blank_of_word hc
  have hblank : (g ++ c :: u).allBlank = false := by simp [allBlank, hb]
  have hslash : isSlashComment (g ++ c :: u) = false := by
    have hne : c ≠ '/' := by
      rintro rfl
      exact absurd hc (by decide)
    rw [isSlashComment, trimStart_run hg (.cons hb)]
    simp [startsWith, after?, hne]
  simp [classify, hblank, hslash, hsplit, htrim, hl]

/-- Every statement of the language is recognised, with and without a label before it, and so is its label. -/
theorem classify_isStatement {k : Shape} {label : Option Text} {field t trail : Text} (hf : IsField label field)
    (hs : IsStatement k t) (ht : t.trimEnd = t) (htrail : trail.allBlank = true) :
    classify (field ++ (t ++ trail)) = (k, label) := by
  have htrim : trimEnd (t ++ trail) = t := by rw [trimEnd_blanks htrail, ht]
  have hstart : StartsName (t ++ trail) := by
    obtain ⟨c, u, rfl, hc⟩ := hs.startsName
    exact ⟨c, u ++ trail, rfl, hc⟩
  cases hf with
  | blank hg =>
    have hline : isLabelLine (trimEnd (t ++ trail)) = false := by
      rw [htrim]
      exact hs.not_labelLine
    rw [classify_unlabelled hg hstart hline, htrim, hs.shape_eq]
  | @label g digits g' hg hd hlen hg' hne =>
    have hfield : HasLabel (g ++ (digits ++ (g' ++ (t ++ trail)))) g digits (g' ++ (t ++ trail)) :=
      ⟨rfl, hg, (mem_of_isDigits hd).2, (mem_of_isDigits hd).1,
        .append hne fun c hc => by simp [mem_of_allBlank hg' c (List.mem_of_mem_head? hc)], hlen⟩
    rw [List.append_assoc, List.append_assoc, classify_labelled hfield, trim,
      trimStart_run hg' hstart.outside_blank, htrim, hs.shape_eq]

/-- An assignment to an element of an array whose name starts with the words of a jump, behind a label. -/
theorem classify_isStatement_sample :
    classify "  100 gotox(i, 2) = ifail  " = (.assignment, some "100".toList) := by
  have hfield : IsField (some "100".toList) "  100 ".toList :=
    @IsField.label "  " "100" " " (by decide) (by decide) (by decide) (by decide) (by decide)
  have hstatement : IsStatement .assignment "gotox(i, 2) = ifail".toList :=
    @IsStatement.assignElement "gotox" "" "i, 2" " " " ifail" (by decide) (by decide +kernel) (by decide)
      (by decide) (by decide) (by decide)
  have hline : "  100 gotox(i, 2) = ifail  ".toList =
      "  100 ".toList ++ ("gotox(i, 2) = ifail".toList ++ spaces 2) := by decide +kernel
  rw [hline]
  exact classify_isStatement hfield hstatement (by decide) (allBlank_spaces 2)

end FixedForm.Statement
