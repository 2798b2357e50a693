import FixedForm.Inference
import FixedForm.Proofs.Spelling.Power
import FixedForm.Proofs.Statement.Language
import FixedForm.Proofs.Text.Alike

/-! Headers of units, written and read back.  A header is a type, if there is one, the kind of the unit, its name
and a list of arguments, with blanks between all of them.  The unit that it opens has just these parts, also when
the closing parenthesis is left out. -/
namespace FixedForm
open Text

namespace Header

/-- The type before the kind of a unit, with blanks behind it, if there is one. -/
inductive TypeText : Option BaseType → Text → Prop where
  | none : TypeText none []
  | some (b : BaseType) {g : Text} (hg : g.allBlank = true) (hne : g ≠ []) : TypeText (some b) (b.name ++ g)

/-- A header up to the name of its unit. -/
inductive Head (base : Option BaseType) (kind : UnitKind) (name : Text) : Text → Prop where
  | mk {type g : Text} (ht : TypeText base type) (hg : g.allBlank = true) (hne : g ≠ [])
      (hn : name.isWordText = true) : Head base kind name (type ++ (kind.name ++ (g ++ name)))

/-- Words with commas between them and blanks around them.  No words are written as blanks alone. -/
inductive WordList : List Text → Text → Prop where
  | nil {g : Text} (hg : g.allBlank = true) : WordList [] g
  | one {g w g' : Text} (hg : g.allBlank = true) (hw : w.isWordText = true) (hg' : g'.allBlank = true) :
      WordList [w] (g ++ (w ++ g'))
  | cons {g w g' t : Text} {ws : List Text} (hg : g.allBlank = true) (hw : w.isWordText = true)
      (hg' : g'.allBlank = true) (hne : ws ≠ []) (h : WordList ws t) :
      WordList (w :: ws) (g ++ (w ++ (g' ++ ',' :: t)))

section Words
variable {w : Text} (hw : w.isWordText = true)
include hw

theorem trimEnd_word (t : Text) : trimEnd (t ++ w) = t ++ w := by
  obtain ⟨hne, hword⟩ := mem_of_isWordText hw
  have hsolid : ∀ c ∈ w, isBlank c = false := fun c hc => not_blank_of_word (hword c hc)
  have hb : w.allBlank = false := by
    obtain ⟨c, u, rfl⟩ := List.exists_cons_of_ne_nil hne
    simp [allBlank, hsolid c (by simp)]
  rw [trimEnd_append hb, trimEnd_of_solid hsolid]

theorem outside_blank_word (t : Text) : StartsOutside isBlank (w ++ t) := by
  obtain ⟨hne, hword⟩ := mem_of_isWordText hw
  exact .append hne fun c hc => not_blank_of_word (hword c (List.mem_of_mem_head? hc))

theorem trim_word {g g' : Text} (hg : g.allBlank = true) (hg' : g'.allBlank = true) : trim (g ++ (w ++ g')) = w := by
  rw [trim, trimStart_run hg (outside_blank_word hw g'), trimEnd_blanks hg']
  exact trimEnd_word hw []

theorem flat_item {g g' : Text} (hg : g.allBlank = true) (hg' : g'.allBlank = true) :
    ∀ c ∈ g ++ (w ++ g'), isFlat c = true ∧ c ≠ ',' := by
  have hblank {u : Text} (hu : u.allBlank = true) : ∀ c ∈ u, isFlat c = true ∧ c ≠ ',' := by
    intro c hc
    have hb := mem_of_allBlank hu c hc
    exact ⟨isFlat_of_class (by decide) hb, by rintro rfl; exact absurd hb (by decide)⟩
  have hword : ∀ c ∈ w, isFlat c = true ∧ c ≠ ',' := by
    intro c hc
    have hc := (mem_of_isWordText hw).2 c hc
    exact ⟨isFlat_of_class (by decide) hc, by rintro rfl; exact absurd hc (by decide)⟩
  exact List.forall_mem_append.2 ⟨hblank hg, List.forall_mem_append.2 ⟨hword, hblank hg'⟩⟩

theorem nestedItem_word {g g' : Text} (hg : g.allBlank = true) (hg' : g'.allBlank = true) :
    NestedItem (g ++ (w ++ g')) :=
  .of_flat (fun c hc => (flat_item hw hg hg' c hc).1) fun hc => (flat_item hw hg hg' ',' hc).2 rfl

end Words

namespace WordList
variable {ws : List Text} {t : Text}

/-- The first item of a list, its comma and the others. -/
theorem cons_text (g w g' t : Text) : g ++ (w ++ (g' ++ ',' :: t)) = g ++ (w ++ g') ++ ',' :: t := by
  simp

theorem flat (h : WordList ws t) : ∀ c ∈ t, isFlat c = true := by
  induction h with
  | nil hg => exact fun c hc => isFlat_of_class (by decide) (mem_of_allBlank hg c hc)
  | one hg hw hg' => exact fun c hc => (flat_item hw hg hg' c hc).1
  | @cons g w g' t ws hg hw hg' _ _ ih =>
    rw [cons_text]
    exact List.forall_mem_append.2 ⟨fun c hc => (flat_item hw hg hg' c hc).1, List.forall_mem_cons.2 ⟨rfl, ih⟩⟩

theorem noParens (h : WordList ws t) : ∀ c ∈ t, c ≠ '(' ∧ c ≠ ')' :=
  flat_of_class (by decide) (by decide) h.flat

theorem trimEnd (h : WordList ws t) : WordList ws t.trimEnd := by
  induction h with
  | nil hg =>
    rw [trimEnd_of_allBlank hg]
    exact .nil rfl
  | @one g w g' hg hw hg' =>
    rw [← List.append_assoc, trimEnd_blanks hg', trimEnd_word hw g]
    have hone : WordList [w] (g ++ (w ++ [])) := .one hg hw rfl
    rwa [List.append_nil] at hone
  | @cons g w g' t ws hg hw hg' hne _ ih =>
    have hcomma : allBlank (',' :: t) = false := rfl
    rw [cons_text, trimEnd_append hcomma, trimEnd_solid rfl, ← cons_text]
    exact .cons hg hw hg' hne ih

/-- The words are the items of the list. -/
theorem listItems_eq (h : WordList ws t) : (listItems t).filter (fun w => !w.isEmpty) = ws := by
  induction h with
  | @nil g hg =>
    have hitem : NestedItem g :=
      .of_flat (WordList.nil hg).flat fun hc => absurd (mem_of_allBlank hg ',' hc) (by decide)
    have htrim : trim g = [] := by
      rw [trim, trimStart_of_allBlank hg]
      rfl
    rw [listItems, splitCommas_item hitem]
    simp [htrim]
  | @one g w g' hg hw hg' =>
    have hne : w.isEmpty = false := by simpa using (mem_of_isWordText hw).1
    rw [listItems, splitCommas_item (nestedItem_word hw hg hg')]
    simp [trim_word hw hg hg', hne]
  | @cons g w g' t ws hg hw hg' _ _ ih =>
    have hne : w.isEmpty = false := by simpa using (mem_of_isWordText hw).1
    rw [cons_text, listItems, splitCommas_cons (nestedItem_word hw hg hg'), List.map_cons, trim_word hw hg hg',
      List.filter_cons_of_pos (by simp [hne])]
    exact congrArg (w :: ·) ih

end WordList

/-! ### Reading a header -/

theorem argumentText?_closed (t : Text) :
    argumentText? (t ++ [')']) = if t.hasLineEnd then none else some t := by
  simp [argumentText?, trimEnd_of_last (t := t) (c := ')') rfl]

theorem argumentText?_open {t : Text} (ht : ')' ∉ t) :
    argumentText? t = if t.trimEnd.hasLineEnd then none else some t.trimEnd := by
  have hlast : ¬ (t.trimEnd.getLast? == some ')') = true := by
    intro h
    exact ht ((trimEnd_lead t).subset (List.mem_of_getLast? (eq_of_beq h)))
  rw [argumentText?, if_neg hlast]

theorem type?_text {base : Option BaseType} {type : Text} (ht : TypeText base type) (kind : UnitKind) (rest : Text) :
    type? (type ++ (kind.name ++ rest)) = some (base, kind.name ++ rest) := by
  cases ht with
  | none => cases kind <;> rfl
  | some b hg hne =>
    have hstar : StartsOutside (· == '*') (kind.name ++ rest) := by cases kind <;> exact .cons (by decide)
    rw [List.append_assoc, type?, Statement.lead?_baseType]
    simp [Statement.afterType?_blanks hg hne (Statement.outside_blank_unitKind kind rest) hstar]

/-- The first parenthesis is found behind a text without one. -/
theorem balance_flat {t : Text} (ht : ∀ c ∈ t, c ≠ '(' ∧ c ≠ ')') (i : Nat) (rest : Text) :
    balance '(' ')' 0 i (t ++ rest) = balance '(' ')' 0 (i + t.length) rest := by
  induction t generalizing i with
  | nil => rfl
  | cons c t ih =>
    obtain ⟨hc, ht⟩ := List.forall_mem_cons.1 ht
    rw [List.cons_append, balance_skip hc, ih ht, List.length_cons, Nat.add_assoc, Nat.add_comm 1]

theorem isSome_closing? {t inner : Text} (ht : ∀ c ∈ t, c ≠ '(' ∧ c ≠ ')') (hi : Balanced '(' ')' inner) :
    (closing? (t ++ '(' :: (inner ++ [')']))).isSome = true := by
  rw [closing?, balance_flat ht, balance_up, hi.balance_eq (by decide) 0, balance_last (by decide)]
  rfl

theorem TypeText.flat {base : Option BaseType} {type : Text} (ht : TypeText base type) :
    ∀ c ∈ type, c ≠ '(' ∧ c ≠ ')' := by
  cases ht with
  | none => exact nofun
  | some b hg =>
    have hb : b.name.all isWord = true := by cases b <;> rfl
    exact List.forall_mem_append.2 ⟨flat_of_word (List.all_eq_true.1 hb), flat_of_blank hg⟩

namespace Head
variable {base : Option BaseType} {kind : UnitKind} {name head : Text}

theorem startsName (h : Head base kind name head) (rest : Text) : StartsName (head ++ rest) := by
  cases h with
  | mk ht =>
    cases ht with
    | none => cases kind <;> exact ⟨_, _, rfl, by decide, by decide⟩
    | some b => cases b <;> exact ⟨_, _, rfl, by decide, by decide⟩

/-- Nothing of a header up to its name is lost where a line is trimmed. -/
theorem statementOf_eq (h : Head base kind name head) {g : Text} (hg : g.allBlank = true) (rest : Text) :
    statementOf (g ++ (head ++ rest)) = head ++ rest.trimEnd := by
  rw [statementOf, Statement.split_unlabelled hg (h.startsName rest)]
  cases hr : rest.allBlank with
  | false => exact trimEnd_append hr
  | true =>
    have hhead : head.trimEnd = head := by
      cases h with
      | mk _ _ _ hn => simpa using trimEnd_word hn (_ ++ (kind.name ++ _))
    rw [trimEnd_of_allBlank hr, List.append_nil]
    exact (trimEnd_blanks hr).trans hhead

theorem flat (h : Head base kind name head) : ∀ c ∈ head, c ≠ '(' ∧ c ≠ ')' := by
  obtain ⟨ht, hg, -, hn⟩ := h
  have hkind : kind.name.all isWord = true := by cases kind <;> rfl
  refine List.forall_mem_append.2 ⟨ht.flat, List.forall_mem_append.2 ⟨flat_of_word (List.all_eq_true.1 hkind), ?_⟩⟩
  exact List.forall_mem_append.2 ⟨flat_of_blank hg, flat_of_word (mem_of_isWordText hn).2⟩

theorem parse?_bare (h : Head base kind name head) :
    parse? head = some { baseType := base, kind, name, arguments := none } := by
  obtain ⟨ht, hg, hne, hn⟩ := h
  have hword := word?_run (mem_of_isWordText hn).2 (mem_of_isWordText hn).1 (t := []) .nil
  have hblank := outside_blank_word hn []
  rw [List.append_nil] at hword hblank
  simp only [parse?, type?_text ht, Option.bind_eq_bind, Option.bind_some, Statement.lead?_unitKind,
    blanks?_run hg hne hblank, hword]
  rfl

/-- What is read behind the opening parenthesis decides on the arguments. -/
theorem parse?_list (h : Head base kind name head) {g : Text} (hg : g.allBlank = true) (t : Text) :
    parse? (head ++ (g ++ '(' :: t)) =
      (argumentText? t).map fun a => { baseType := base, kind, name, arguments := some a } := by
  obtain ⟨ht, hgap, hne, hn⟩ := h
  have hword := word?_run (mem_of_isWordText hn).2 (mem_of_isWordText hn).1
    (outside_word_gap hg (.cons (c := '(') (t := t) rfl))
  simp only [List.append_assoc, parse?, type?_text ht, Option.bind_eq_bind, Option.bind_some,
    Statement.lead?_unitKind, blanks?_run hgap hne (outside_blank_word hn _), hword,
    trimStart_run hg (.cons (c := '(') (t := t) rfl)]

end Head

end Header

namespace Inference
open Header

/-- The symbols of a unit: its own name and its arguments. -/
def unitSymbols (base : Option BaseType) (kind : UnitKind) (name : Text) (arguments : List Text) : List Symbol :=
  { name
    kind := match kind with
      | .function => .function
      | .subroutine => .subroutine
    baseType := base } ::
  arguments.map fun arg => { name := arg, kind := .unknown, isArgument := true }

/-- What is known of a unit behind its header, when nothing was known before. -/
def opened (options : Options) (line : Line) (base : Option BaseType) (kind : UnitKind) (name : Text)
    (arguments : List Text) : Analysis :=
  { options
    procedure := some
      { name, kind, arguments, anchor := line.id, origin := line.origin, returnType := base }
    symbols := (unitSymbols base kind name arguments).foldl SymbolTable.declare {} }

/-- The diagnostic for a header whose parenthesis is not closed. -/
def unclosed (anchor : Nat) (name : Text) : Diagnostic :=
  { severity := .warning, code := .unmatchedDelimiter, message := (Issue.unclosedHeader name).message
    line := some anchor }

section Open
variable {options : Options} {l : Line} {h : Header}

theorem openUnit_none (hp : parse? (statementOf l.text) = none) : openUnit { options } l = { options } := by
  simp [openUnit, hp]

theorem openUnit_closed (hp : parse? (statementOf l.text) = some h) (hu : isUnclosed h (statementOf l.text) = false) :
    openUnit { options } l = opened options l h.baseType h.kind h.name (arguments h) := by
  simp only [openUnit, hp, hu]
  rfl

theorem openUnit_unclosed (hp : parse? (statementOf l.text) = some h)
    (hu : isUnclosed h (statementOf l.text) = true) :
    openUnit { options } l = { opened options l h.baseType h.kind h.name (arguments h) with
      diagnostics := [unclosed l.id h.name] } := by
  simp only [openUnit, hp, hu]
  rfl

end Open

section Written
variable {base : Option BaseType} {kind : UnitKind} {name head : Text} (hh : Head base kind name head)
  {args : List Text} {inner : Text} (ha : WordList args inner)
  {lead g trail : Text} (hlead : lead.allBlank = true) (hg : g.allBlank = true) (htrail : trail.allBlank = true)
include hh hlead htrail

theorem statementOf_bare : statementOf (lead ++ (head ++ trail)) = head := by
  rw [hh.statementOf_eq hlead, trimEnd_of_allBlank htrail, List.append_nil]

theorem statementOf_closed (g inner : Text) :
    statementOf (lead ++ (head ++ (g ++ '(' :: (inner ++ ')' :: trail)))) =
      head ++ (g ++ '(' :: (inner ++ [')'])) := by
  have htext : g ++ '(' :: (inner ++ ')' :: trail) = g ++ '(' :: inner ++ [')'] ++ trail := by simp
  rw [hh.statementOf_eq hlead, htext, trimEnd_blanks htrail, trimEnd_of_last rfl]
  simp

theorem statementOf_unclosed (g inner : Text) :
    statementOf (lead ++ (head ++ (g ++ '(' :: (inner ++ trail)))) = head ++ (g ++ '(' :: inner.trimEnd) := by
  have hparen : allBlank ('(' :: (inner ++ trail)) = false := rfl
  rw [hh.statementOf_eq hlead, trimEnd_append hparen, trimEnd_solid rfl, trimEnd_blanks htrail]

theorem openUnit_bare {options : Options} {l : Line} (hl : l.text = lead ++ (head ++ trail)) :
    openUnit { options } l = opened options l base kind name [] := by
  have hs := hl ▸ statementOf_bare hh hlead htrail
  have hp := hh.parse?_bare
  rw [← hs] at hp
  exact openUnit_closed hp (by simp [isUnclosed])

include ha hg

theorem openUnit_list {options : Options} {l : Line}
    (hl : l.text = lead ++ (head ++ (g ++ '(' :: (inner ++ ')' :: trail)))) :
    openUnit { options } l =
      if inner.hasLineEnd then { options } else opened options l base kind name args := by
  have hs := hl ▸ statementOf_closed hh hlead htrail g inner
  have hp := hh.parse?_list hg (inner ++ [')'])
  rw [argumentText?_closed, ← hs] at hp
  split at hp
  · next hend => exact (openUnit_none hp).trans (if_pos hend).symm
  · next hend =>
    have hflat := List.forall_mem_append.2 ⟨hh.flat, flat_of_blank hg⟩
    have hclosing := isSome_closing? hflat (.of_forall ha.noParens)
    rw [List.append_assoc, ← hs] at hclosing
    rw [if_neg hend, openUnit_closed hp (by simpa [isUnclosed] using hclosing)]
    exact congrArg (opened options l base kind name) ha.listItems_eq

/-- Without the closing parenthesis the same unit is opened, and the header is reported. -/
theorem openUnit_unclosedList {options : Options} {l : Line}
    (hl : l.text = lead ++ (head ++ (g ++ '(' :: (inner ++ trail)))) :
    openUnit { options } l =
      if inner.trimEnd.hasLineEnd then { options }
      else { opened options l base kind name args with diagnostics := [unclosed l.id name] } := by
  have hs := hl ▸ statementOf_unclosed hh hlead htrail g inner
  have hp := hh.parse?_list hg inner.trimEnd
  have hnone : ')' ∉ inner.trimEnd := fun hc => (ha.trimEnd.noParens ')' hc).2 rfl
  rw [argumentText?_open hnone, trimEnd_trimEnd, ← hs] at hp
  split at hp
  · next hend => exact (openUnit_none hp).trans (if_pos hend).symm
  · next hend =>
    have hopen : closing? (statementOf l.text) = none := by
      have hflat := List.forall_mem_append.2 ⟨hh.flat, flat_of_blank hg⟩
      refine Power.balance_eq_none (fun hc => ?_) 0 0
      rw [hs, ← List.append_assoc, List.mem_append, List.mem_cons] at hc
      rcases hc with hc | hc | hc
      · exact (hflat ')' hc).2 rfl
      · cases hc
      · exact hnone hc
    rw [if_neg hend, openUnit_unclosed hp (by simp [isUnclosed, hopen])]
    exact congrArg (fun args => { opened options l base kind name args with diagnostics := [unclosed l.id name] })
      ha.trimEnd.listItems_eq

end Written

/-- A header opens its unit with the name, the kind, the type and the arguments that are written, whatever blanks
stand between them; without its closing parenthesis it opens the same unit and is reported once.  Only a line
end among the blanks inside the parentheses keeps a header from being read. -/
theorem openUnit_written (options : Options) (line : Line) {base : Option BaseType} {kind : UnitKind}
    {name head : Text} {args : List Text} {inner lead g trail : Text} (hh : Head base kind name head)
    (ha : WordList args inner) (hlead : lead.allBlank = true) (hg : g.allBlank = true)
    (htrail : trail.allBlank = true) :
    openUnit { options } { line with text := lead ++ (head ++ trail) } =
        opened options line base kind name [] ∧
      openUnit { options } { line with text := lead ++ (head ++ (g ++ '(' :: (inner ++ ')' :: trail))) } =
        (if inner.hasLineEnd then { options } else opened options line base kind name args) ∧
      openUnit { options } { line with text := lead ++ (head ++ (g ++ '(' :: (inner ++ trail))) } =
        if inner.trimEnd.hasLineEnd then { options }
        else { opened options line base kind name args with diagnostics := [unclosed line.id name] } := by
  refine ⟨?_, ?_, ?_⟩
  · exact openUnit_bare hh hlead htrail rfl
  · exact openUnit_list hh ha hlead hg htrail rfl
  · exact openUnit_unclosedList hh ha hlead hg htrail rfl

/-- The line of a header. -/
def headerLine (text : Text) : Line := { text, shape := .header, id := 3, origin := 4 }

theorem openUnit_written_sample :
    openUnit {} (headerLine "  logical  function f ( x1 ,n )  ") =
        opened {} (headerLine []) (some .logical) .function "f" ["x1", "n"] ∧
      openUnit {} (headerLine "  logical  function f ( x1 ,n   ") =
        { opened {} (headerLine []) (some .logical) .function "f" ["x1", "n"] with diagnostics := [unclosed 3 "f"] } := by
  have hhead : Head (some .logical) .function "f" "logical  function f" :=
    @Head.mk _ _ _ "logical  " " " (.some .logical (by decide) (by decide)) (by decide) (by decide) (by decide)
  have hargs : WordList ["x1", "n"] " x1 ,n " :=
    @WordList.cons " " "x1" " " "n " _ (by decide) (by decide) (by decide) (by decide)
      (@WordList.one "" "n" " " (by decide) (by decide) (by decide))
  exact (openUnit_written {} (headerLine []) hhead hargs (allBlank_spaces 2) (allBlank_spaces 1)
    (allBlank_spaces 2)).2

/-- A line separator is a blank, but a header with one between its arguments is not read. -/
theorem openUnit_lineSeparator :
    Head none .subroutine "w" "subroutine w" ∧ WordList ["a", "b"] "a,\u2028b" ∧
      openUnit {} (headerLine "subroutine w(a,\u2028b)") = {} := by
  refine ⟨?_, ?_, by decide⟩
  · exact @Head.mk _ _ _ "" " " .none (by decide) (by decide) (by decide)
  · exact @WordList.cons "" "a" "" "\u2028b" _ (by decide) (by decide) (by decide) (by decide)
      (@WordList.one "\u2028" "b" "" (by decide) (by decide) (by decide))

end Inference

end FixedForm
