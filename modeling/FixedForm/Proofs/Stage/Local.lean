import FixedForm.Proofs.Inference.Signature
import FixedForm.Proofs.Spelling.Literal

/-! Local variables and arguments of a unit after inference.  A name is declared in the output exactly
when a type declaration brought it into the symbol table, and then once; names that came with the header
are written in the first line of the unit. -/
namespace FixedForm
open Text

namespace Power

/-- Powers bring in no characters but their own. -/
theorem not_mem_replace? {c : Char} (hc : c ∉ "pow(, )".toList) {t r : Text} (ht : c ∉ t)
    (h : replace? t = some r) : c ∉ r := by
  fun_induction replace? t with
  | case1 t _ => rwa [← Option.some.inj h]
  | case2 => cases h
  | case3 t before after hcut next hstep ih =>
    refine ih ?_ h
    rw [eq_of_cut? hcut] at ht
    simp only [List.mem_append, List.mem_cons, not_or] at ht
    have hcount := count_step? hc hstep
    rw [List.count_eq_zero.2 ht.1, List.count_eq_zero.2 ht.2.2.2] at hcount
    exact List.count_eq_zero.1 (Nat.le_zero.1 hcount)

end Power

namespace Spelling

/-- A change of code that brings in no capitals. -/
theorem hasCapital_mapCode {f : Text → Text} (hf : ∀ x, hasCapital x = false → hasCapital (f x) = false)
    {t : Text} (ht : hasCapital t = false) : hasCapital (t.mapCode f) = false := by
  induction t using literal_induction with
  | code x hx => rw [mapCode_of_free hx, hf x ht]
  | unclosed x q y hx hq hy =>
    rw [hasCapital_append, Bool.or_eq_false_iff] at ht
    rw [mapCode_open f hx hq hy, hasCapital_append, hf x ht.1, ht.2]
    rfl
  | closed x q y t hx hq hy ih =>
    rw [show q :: (y ++ q :: t) = (q :: (y ++ [q])) ++ t by simp, hasCapital_append, hasCapital_append,
      Bool.or_eq_false_iff, Bool.or_eq_false_iff] at ht
    rw [mapCode_closed f hx hq hy,
      show q :: (y ++ q :: mapCode f t) = (q :: (y ++ [q])) ++ mapCode f t by simp, hasCapital_append,
      hasCapital_append, hf x ht.1, ht.2.1, ih ht.2.2]
    rfl

/-- A statement without quotes is spelled without capitals. -/
theorem hasCapital_normalize {t : Text} (h : hasQuote t = false) : hasCapital (normalize t).1 = false := by
  have hfold : hasCapital (foldCase t) = false := by
    rw [foldCase, mapCode_of_not_hasQuote h]
    exact List.any_eq_false.2 fun c hc => by simp [not_capital_lower hc]
  have hbefore : hasCapital (beforePowers t) = false :=
    hasCapital_mapCode (fun _ hx => clean_doubleExponent.hasCapital_substitute hx)
      (hasCapital_mapCode (fun _ hx => Clean.hasCapital_substituteAll clean_dottedWords hx)
        (Clean.hasCapital_substituteAll clean_typeNames hfold))
  simp only [normalize]
  split
  · next r hr =>
    refine List.any_eq_false.2 fun c hc hcapital => ?_
    have hnew : c ∉ "pow(, )".toList := fun hm => by
      have hall : ("pow(, )".toList.any fun c => isCapital c.toNat) = false := by decide
      exact List.any_eq_false.1 hall c hm hcapital
    exact Power.not_mem_replace? hnew (fun hm => List.any_eq_false.1 hbefore c hm hcapital) hr hc
  · exact hbefore

end Spelling

namespace Text

theorem lower_of_word {w : Text} (hw : ∀ c ∈ w, isWord c = true) (hc : Spelling.hasCapital w = false) :
    w.lower = w := by
  have hascii : ∀ c ∈ w, c.toNat < 0x80 := fun c h => by
    have := isWord_iff.1 (hw c h)
    omega
  rw [lower_ascii hascii]
  refine (List.map_congr_left fun c h => ?_).trans (List.map_id w)
  refine toLower_of_not_isUpper fun hu => List.any_eq_false.1 hc c h ?_
  simp [isCapital, isUpper_iff.1 hu]

end Text

/-- The name is a word of characters of the text. -/
structure IsWordOf (name t : Text) : Prop where
  word : ∀ c ∈ name, isWord c = true
  mem : ∀ c ∈ name, c ∈ t

theorem DeclaredEntry.isWordOf {t : Text} {e : DeclaredEntry} (h : (parse t).1 = some e) :
    IsWordOf e.name t := by
  have hword {name rest : Text} (hw : word? (t.filter (!isBlank ·)) = some (name, rest)) :
      IsWordOf name t := by
    obtain ⟨ht, -, hname⟩ := eq_of_word? hw
    refine ⟨hname, fun c hc => ?_⟩
    have hm : c ∈ t.filter (!isBlank ·) := by
      rw [ht]
      exact List.mem_append_left _ hc
    exact (List.mem_filter.1 hm).1
  rw [parse] at h
  split at h
  · cases h
  · next name rest hw =>
    split at h
    · split at h
      · cases h
        exact hword hw
      · cases h
        exact hword hw
    · cases h
      exact hword hw

theorem Declaration.length?_suffix {t length rest : Text} (h : length? t = some (length, rest)) :
    rest <:+ t := by
  simp only [length?, Option.bind_eq_bind, Option.bind_eq_some_iff, Option.orElse_eq_orElse,
    Option.orElse_eq_or] at h
  obtain ⟨u, hu, h⟩ := h
  refine List.IsSuffix.trans ?_ ((after?_suffix hu).trans (trimStart_suffix t))
  refine List.IsSuffix.trans ?_ (trimStart_suffix u)
  rcases Option.or_eq_some_iff.1 h with h | ⟨-, h⟩
  · obtain ⟨r, hr, he⟩ := Option.map_eq_some_iff.1 h
    cases he
    exact after?_suffix hr
  · rcases Option.or_eq_some_iff.1 h with h | ⟨-, h⟩
    · simp only [wordInParens?, Option.bind_eq_bind, Option.bind_eq_some_iff] at h
      obtain ⟨v, hv, ⟨word, w⟩, hw, x, hx, h⟩ := h
      cases h
      have hword : w <:+ v.trimStart := ⟨word, (eq_of_word? hw).1.symm⟩
      exact (after?_suffix hx).trans ((trimStart_suffix w).trans (hword.trans
        ((trimStart_suffix v).trans (after?_suffix hv))))
    · exact digits?_suffix h

theorem Declaration.list_suffix {t : Text} {c : Declaration} (h : parse? t = some c) : c.list <:+ t := by
  simp only [parse?, Option.bind_eq_bind, Option.bind_eq_some_iff] at h
  obtain ⟨⟨word, rest⟩, hw, baseType, -, -, -, h⟩ := h
  cases h
  have hrest : rest <:+ t :=
    List.IsSuffix.trans ⟨word, (eq_of_word? hw).1.symm⟩ (trimStart_suffix t)
  refine List.IsSuffix.trans ?_ hrest
  dsimp only
  split
  · next hl => exact (trimStart_suffix _).trans (length?_suffix hl)
  · exact trimStart_suffix rest

namespace Analysis

theorem declares_recordAll {line : Nat} {c : Declaration} {pieces : List Text} {a : Analysis} {d : Draft}
    (h : d ∈ (a.recordAll line c pieces).2) :
    ∃ piece ∈ pieces, ∃ e, (DeclaredEntry.parse piece).1 = some e ∧ d.declares = some e.name := by
  induction pieces generalizing a with
  | nil => cases h
  | cons piece pieces ih =>
    simp only [recordAll] at h
    split at h
    · obtain ⟨p, hp, he⟩ := ih h
      exact ⟨p, by simp [hp], he⟩
    · next e he =>
      rcases List.mem_append.1 h with h | h
      · obtain ⟨t, -, rfl⟩ := Option.map_eq_some_iff.1 (Option.mem_toList.1 h)
        exact ⟨piece, by simp, e, he, rfl⟩
      · obtain ⟨p, hp, he⟩ := ih h
        exact ⟨p, by simp [hp], he⟩

end Analysis

namespace Inference

/-- A line that declares a name stands in the place of a declaration that holds it. -/
theorem isWordOf_inferLine {a : Analysis} {previous : Option Shape} {l : Line} (hl : l.declares = none)
    {e : Entry} (he : e ∈ (inferLine a previous l).2) {name : Text}
    (hname : e.contents.declares = some name) : l.shape = .declaration ∧ IsWordOf name l.text := by
  generalize hr : inferLine a previous l = r at he
  rcases inferLine_cases hr hl with ⟨-, rfl⟩ | ⟨hs, c, hc, rfl⟩ | ⟨-, -, -, hdeclares⟩
  · rw [List.mem_singleton.1 he] at hname
    exact nomatch hl.symm.trans hname
  · refine ⟨hs, ?_⟩
    obtain ⟨d, hd, rfl⟩ := List.mem_map.1 he
    obtain ⟨piece, hp, written, hw, hdeclares⟩ := Analysis.declares_recordAll hd
    obtain rfl : written.name = name := Option.some.inj (hdeclares.symm.trans hname)
    have hword := DeclaredEntry.isWordOf hw
    refine ⟨hword.word, fun k hk => ?_⟩
    exact (Declaration.list_suffix hc).mem (mem_of_mem_splitCommasFrom hp k (hword.mem k hk))
  · exact nomatch (hdeclares e he).symm.trans hname

theorem isWordOf_run {a : Analysis} {b : Buffer} {lines : List Line}
    (hlines : (b.edit collectConstants a).2.lines = lines) (hl : ∀ l ∈ lines, l.declares = none)
    {m : Line} (hm : m ∈ (run a b).2.lines) {name : Text} (hname : m.declares = some name) :
    ∃ l ∈ lines, l.origin = m.origin ∧ l.shape = .declaration ∧ IsWordOf name l.text := by
  revert hm
  simp only [run]
  generalize b.edit collectConstants a = e at hlines ⊢
  have hsteps : ∀ m ∈ (e.2.edit step (e.1, none)).2.lines, ∀ name, m.declares = some name →
      ∃ l ∈ lines, l.origin = m.origin ∧ l.shape = .declaration ∧ IsWordOf name l.text := by
    rw [← hlines] at hl ⊢
    refine Buffer.forall_mem_editFrom (P := fun _ => True) trivial fun s _ l hm => ⟨trivial, ?_⟩
    intro next _ k hk name hname
    obtain ⟨ho, ⟨hd, -⟩ | ⟨hd, -⟩⟩ := Buffer.mem_place hk
    iterate 2 exact ⟨l, hm, ho.symm, isWordOf_inferLine (hl l hm) hd hname⟩
  generalize e.2.edit step (e.1, none) = e' at hsteps ⊢
  generalize reportUndeclared e'.1.1 e'.2.lines = a'
  intro hm
  cases hp : a'.procedure with
  | none =>
    rw [finishUnit_none hp] at hm
    exact hsteps m hm name hname
  | some p =>
    rw [finishUnit_some hp] at hm
    obtain ⟨extra, hperm, hextra, -⟩ := writeHeader_spec (settle a' p).2 e'.2
    rcases List.mem_append.1 (hperm.mem_iff.1 hm) with hm | hm
    · obtain ⟨k, hk, rfl⟩ := List.mem_map.1 hm
      refine hsteps k hk name ?_
      rw [← hname]
      dsimp only
      split <;> rfl
    · cases (declares_openingLines _ _ (hextra m hm).1).symm.trans hname

end Inference

theorem pointer_ne_value (x y arg : Text) : x ++ " *" ++ arg ≠ y ++ " " ++ arg := by
  intro h
  have hlast := congrArg List.getLast? (List.append_cancel_right h)
  simp at hlast

theorem renderParameter_of_array {s : Symbol} (h : s.kind.isArray = true) (arg : Text) :
    renderParameter (some s) arg = targetType s.baseType ++ " *" ++ arg := by
  cases hk : s.kind <;> simp_all [renderParameter, Kind.isArray]

theorem renderParameter_of_value {s : Symbol} (h : s.kind.isArray = false) (hu : s.kind ≠ .unknown)
    (arg : Text) : renderParameter (some s) arg = targetType s.baseType ++ " " ++ arg := by
  cases hk : s.kind <;> simp_all [renderParameter, Kind.isArray]

/-- Arrays are written as pointers, and nothing else is. -/
theorem renderParameter_pointer_iff (s : Symbol) (arg : Text) :
    (∃ type, renderParameter (some s) arg = targetType type ++ " *" ++ arg) ↔ s.kind.isArray = true := by
  constructor
  · rintro ⟨type, he⟩
    by_contra ha
    rw [Bool.not_eq_true] at ha
    by_cases hu : s.kind = .unknown
    · simp only [renderParameter, hu] at he
      exact pointer_ne_value _ _ _ he.symm
    · rw [renderParameter_of_value ha hu] at he
      exact pointer_ne_value _ _ _ he.symm
  · exact fun ha => ⟨_, renderParameter_of_array ha arg⟩

/-- How an argument is written in the first line of the unit if its symbol has a type as soon as it has a
kind: without a type as long as nothing describes it, and with the type of its symbol otherwise. -/
structure IsWritten (s : Symbol) (arg written : Text) : Prop where
  unknown : written = unknownType ++ " " ++ arg ↔ s.kind = .unknown
  typed : s.kind ≠ .unknown → ∃ type : BaseType, s.baseType = some type ∧
    written = type.target ++ (if s.kind.isArray then " *" else " ").toList ++ arg

theorem isWritten_renderParameter {s : Symbol} (h : s.kind = .unknown ∨ ∃ type, s.baseType = some type)
    (arg : Text) : IsWritten s arg (renderParameter (some s) arg) := by
  by_cases hu : s.kind = .unknown
  · have hr : renderParameter (some s) arg = unknownType ++ " " ++ arg := by simp only [renderParameter, hu]
    rw [hr]
    exact ⟨by simp [hu], fun h => absurd hu h⟩
  · obtain ⟨type, htype⟩ := h.resolve_left hu
    cases ha : s.kind.isArray with
    | true =>
      rw [renderParameter_of_array ha, htype]
      exact ⟨⟨fun he => absurd he (pointer_ne_value _ _ _), fun h => absurd h hu⟩,
        fun _ => ⟨type, htype, by rw [ha]; rfl⟩⟩
    | false =>
      rw [renderParameter_of_value ha hu, htype]
      refine ⟨⟨fun he => ?_, fun h => absurd h hu⟩, fun _ => ⟨type, htype, by rw [ha]; rfl⟩⟩
      exact absurd (List.append_cancel_right (List.append_cancel_right he)) (by cases type <;> decide)

/-- A symbol that is not the unit's own has a type as soon as its kind is known. -/
theorem Analysis.History.typed {a : Analysis} {n : Text} {es : List Declared} {made : List Nat} {s : Symbol}
    (h : History a n es made) (hs : a.symbols.lookup? n = some s) :
    s.kind = .unknown ∨ ∃ type, s.baseType = some type := by
  cases h with
  | unread h => exact .inl (h s hs).1
  | read _ _ _ hlook hfits =>
    obtain rfl := Option.some.inj (hlook.symm.trans hs)
    exact .inr ⟨_, hfits.baseType⟩

namespace Progress
open Inference

/-- A statement is read as it is spelled. -/
theorem text_prepared {l : Line} (hread : Card.IsRead l) (h : l.prepared.shape.isSilent = false) :
    l.shape = .other ∧ l.prepared.text = (Spelling.normalize l.text).1 := by
  have hprepared : l.prepared.toDraft = withoutConstants (Stage.spelled l.toDraft).classify := rfl
  have hkept : l.prepared.toDraft = (Stage.spelled l.toDraft).classify := by
    rw [hprepared, withoutConstants] at h ⊢
    split at h
    · next hs => rw [if_pos hs]
    · next hs =>
      split at h
      · next hn => rw [if_neg hs]
      · cases h
  have hcode : l.shape = .other := by
    rw [hkept] at h
    rcases hread with hs | ⟨hs, ht⟩ | hs
    · simp [Stage.spelled, Draft.classify, hs, Shape.isSilent] at h
    · simp [Stage.spelled, hs, ht, Shape.isSilent, Draft.classify, Statement.classify, allBlank] at h
    · exact hs
  refine ⟨hcode, ?_⟩
  rw [hkept, text_classify, Stage.spelled, if_neg (by simp [hcode, Shape.isSilent])]

/-- Lines that declare a name spell it in lower case, unless their statement holds a quote. -/
theorem lower_of_declares (options : Options) (source : Text) :
    ∀ m ∈ (inferred options source).buffer.lines, ∀ name, m.declares = some name → name.lower = name ∨
      ∃ l ∈ (Card.read source).lines, l.origin = m.origin ∧ Spelling.hasQuote l.text = true := by
  intro m hm name hname
  obtain ⟨-, hb⟩ := runAll_inference options source
  rw [inferred, hb] at hm
  obtain ⟨k, hk, ho, hs, hword⟩ :=
    isWordOf_run (lines_collectConstants options source) (declares_lines source) hm hname
  obtain ⟨l, hl, rfl⟩ := List.mem_map.1 hk
  cases hq : Spelling.hasQuote l.text with
  | true => exact .inr ⟨l, hl, ho, hq⟩
  | false =>
    refine .inl (lower_of_word hword.word (List.any_eq_false.2 fun c hc => ?_))
    have hcapital := Spelling.hasCapital_normalize hq
    rw [← (text_prepared (Card.isRead_read hl) (by rw [hs]; rfl)).2] at hcapital
    exact List.any_eq_false.1 hcapital c (hword.mem c hc)

/-- The line that brings a name in, and the line that declares it. -/
theorem declared_by_enters (options : Options) (source n : Text) : ∀ l, Enters options source n l →
    (l.prepared.shape = .declaration ∧
      Buffer.declaring n (inferred options source).buffer.lines = [l.origin]) ∨
    (l.prepared.shape = .header ∧ Buffer.declaring n (inferred options source).buffer.lines = [] ∧
      ∃ q, (inferred options source).analysis.procedure = some q ∧
        (q.name.lower = n.lower ∨ ∃ arg ∈ q.arguments, arg.lower = n.lower)) := by
  intro l hl
  have hdeclaring := declaring_enters hl
  rcases shape_enters hl with hs | hs
  · rw [if_pos hs] at hdeclaring
    exact .inl ⟨hs, hdeclaring⟩
  · rw [if_neg (by simp [hs])] at hdeclaring
    exact .inr ⟨hs, hdeclaring, named_of_enters hl hs⟩

/-- The arguments are written as their symbols say. -/
theorem isWritten_arguments {options : Options} {source : Text} {q : Procedure}
    (hq : (inferred options source).analysis.procedure = some q) :
    ∀ arg ∈ q.arguments, ∃ s written, (inferred options source).analysis.symbols.lookup? arg = some s ∧
      q.renderings.get? arg = some written ∧
      ((∃ type, written = targetType type ++ " *" ++ arg) ↔ s.kind.isArray = true) ∧
      ((inferred options source).analysis.isOwnName arg = false → IsWritten s arg written) := by
  intro arg harg
  obtain ⟨-, -, hwritten⟩ := arguments_written hq
  obtain ⟨hhas, hget⟩ := hwritten arg harg
  have htyped (s : Symbol) (hs : (inferred options source).analysis.symbols.lookup? arg = some s)
      (hown : (inferred options source).analysis.isOwnName arg = false) :
      s.kind = .unknown ∨ ∃ type, s.baseType = some type := by
    have hhistory : Analysis.History (inferred options source).analysis arg _ _ :=
      history_inference options source hown
    exact hhistory.typed hs
  generalize inferred options source = p at hhas hget htyped ⊢
  obtain ⟨s, hs⟩ := Option.isSome_iff_exists.1 hhas
  rw [hs] at hget
  exact ⟨s, _, hs, hget, renderParameter_pointer_iff s arg,
    fun hown => isWritten_renderParameter (htyped s hs hown) arg⟩

/-- After inference a name is in the symbol table exactly when some card brought it in.  If that is a
type declaration, one line declares the name, and it comes from that card; if it is the header, no line
does, and the name is that of the unit or of an argument.  Every argument is written once: arrays as
pointers, and all arguments but one of the unit's own name as their symbols say. -/
theorem locals_declared_once (options : Options) (source n : Text) :
    let p := inferred options source
    (p.analysis.symbols.has n = true ↔ ∃ l, Enters options source n l) ∧
    (∀ l, Enters options source n l →
      (l.prepared.shape = .declaration ∧ Buffer.declaring n p.buffer.lines = [l.origin]) ∨
      (l.prepared.shape = .header ∧ Buffer.declaring n p.buffer.lines = [] ∧
        ∃ q, p.analysis.procedure = some q ∧
          (q.name.lower = n.lower ∨ ∃ arg ∈ q.arguments, arg.lower = n.lower))) ∧
    (p.analysis.symbols.has n = false → Buffer.declaring n p.buffer.lines = []) ∧
    (∀ m ∈ p.buffer.lines, ∀ name, m.declares = some name → name.lower = name ∨
      ∃ l ∈ (Card.read source).lines, l.origin = m.origin ∧ Spelling.hasQuote l.text = true) ∧
    ∀ q, p.analysis.procedure = some q →
      q.renderings.names.Nodup ∧ (∀ arg, arg ∈ q.renderings.names ↔ arg ∈ q.arguments) ∧
      ∀ arg ∈ q.arguments, ∃ s written,
        p.analysis.symbols.lookup? arg = some s ∧ q.renderings.get? arg = some written ∧
        ((∃ type, written = targetType type ++ " *" ++ arg) ↔ s.kind.isArray = true) ∧
        (p.analysis.isOwnName arg = false → IsWritten s arg written) := by
  have hiff := has_iff_enters options source n
  have henters := declared_by_enters options source n
  have hnone (h : ∀ l, ¬ Enters options source n l) := declaring_of_not_enters h
  have hlower := lower_of_declares options source
  have hwritten (q : Procedure) (hq : (inferred options source).analysis.procedure = some q) :=
    And.intro (arguments_written hq).1 (And.intro (arguments_written hq).2.1 (isWritten_arguments hq))
  generalize inferred options source = p at hiff henters hnone hlower hwritten ⊢
  refine ⟨hiff, henters, fun h => hnone fun l hl => ?_, hlower, hwritten⟩
  rw [hiff.2 ⟨l, hl⟩] at h
  cases h

/-- A name between the quotes of an initial value keeps its capitals: it is in the table in lower case, no
line declares it in that spelling, and one does in its own.  An argument that has the name of its subroutine
is of that kind, and is still written like one that nothing describes. -/
theorem quoted_capital_and_own_argument :
    (let p := inferred {}
      "      subroutine s(a)\n      integer a\n      character b*3 /'X,Y'/\n      a = 1\n      end\n"
    p.analysis.symbols.has "y" = true ∧ (∀ m ∈ p.buffer.lines, m.declares ≠ some "y".toList) ∧
      (∃ m ∈ p.buffer.lines, m.declares = some "Y".toList) ∧
      Buffer.declaring "y" p.buffer.lines = [3]) ∧
    let p := inferred {} "      subroutine s(s)\n      end\n"
    (p.analysis.symbols.lookup? "s").map (·.kind) = some .subroutine ∧
      p.analysis.procedure.bind (·.renderings.get? "s") = some "unknown_type s".toList := by
  decide +kernel

end Progress

end FixedForm
