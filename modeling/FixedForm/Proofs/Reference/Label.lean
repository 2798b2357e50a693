import FixedForm.Proofs.Reference.Scan
import FixedForm.Proofs.Statement.Field
import FixedForm.Proofs.Text.Case

/-! Settling the references of a line does not change its label. -/
namespace FixedForm.Reference
open Text

section Lead
variable (scope : ReferenceScope) (top : Bool) (call : Option (Nat × Text)) (i : Nat)
  (stack : List (Option Text)) (out : Text)

/-- A scan adds to what it was given. -/
theorem scan_lead (rest : Text) : out <+: (scan scope top call i stack out rest).1 := by
  fun_induction scan scope top call i stack out rest
  case case1 => exact List.prefix_refl _
  case case2 ih | case3 ih | case4 ih | case5 ih | case10 ih | case12 ih =>
    exact (List.prefix_append _ _).trans ih
  case case6 hs ih | case9 hs ih | case11 hs ih =>
    rw [hs] at ih
    exact (List.prefix_append _ _).trans ih
  case case7 hs _ ih =>
    rw [hs] at ih
    exact (List.prefix_append _ _).trans ih
  case case8 ih =>
    exact (List.prefix_append _ _).trans ((List.prefix_append _ _).trans
      ((List.prefix_append _ _).trans ih))

/-- The name of an array starts with a letter or an underscore, like the name it was found under. -/
theorem array?_name {symbols : SymbolTable} {name : Text} {s : Symbol}
    (h : symbols.array? name = some s) : s.name = name.lower := by
  obtain ⟨hs, -⟩ := Option.filter_eq_some_iff.1 h
  rw [SymbolTable.lookup?] at hs
  have hb := List.find?_some hs
  exact eq_of_beq hb

/-- A character that stands for no label and no blank. -/
def IsSolid (c : Char) : Prop := isBlank c = false ∧ c.isDigit = false

theorem isSolid_of_name {c : Char} (h : (c.isAlpha || c == '_') = true) :
    IsSolid c ∧ IsSolid c.toLower ∧ c.toNat < 0x80 := by
  have hall : ∀ n < 0x80, ((Char.ofNat n).isAlpha || Char.ofNat n == '_') = true →
      (isBlank (Char.ofNat n) = false ∧ (Char.ofNat n).isDigit = false) ∧
        isBlank (Char.ofNat n).toLower = false ∧ (Char.ofNat n).toLower.isDigit = false := by decide
  have hlt : c.toNat < 0x80 := by
    rw [Bool.or_eq_true, isAlpha_iff, beq_iff_eq, eq_iff_toNat] at h
    have h95 : '_'.toNat = 95 := rfl
    omega
  have hc := hall c.toNat hlt
  rw [Char.ofNat_toNat] at hc
  exact ⟨(hc h).1, (hc h).2, hlt⟩

theorem passing_mark (s : Symbol) (reference : Text) (callee : Option Text) (whole : Bool) :
    (passing s reference callee whole).1 = [] ∨ (passing s reference callee whole).1 = ['&'] := by
  cases callee with
  | none => exact .inl rfl
  | some callee => cases whole <;> simp [passing]

theorem render_start {s : Symbol} {d : Char} {u : Text} (hs : s.name = d :: u) (hd : IsSolid d)
    (inner : Text) (terms settled : List Text) (callee : Option Text) (before after : Text) :
    ∃ e v, (render scope s inner terms settled callee before after).1 = e :: v ∧ IsSolid e := by
  simp only [render]
  split
  · exact ⟨d, _, by rw [hs]; rfl, hd⟩
  · next bracket _ _ =>
    rcases passing_mark s (s.name ++ "(" ++ inner ++ ")") callee (isWhole before after) with hm | hm
    · exact ⟨d, _, by rw [hm, hs]; rfl, hd⟩
    · exact ⟨'&', _, by rw [hm]; rfl, by decide, by decide⟩

/-- The first character of a text, as the scan writes it. -/
theorem scan_first (rest : Text) {c : Char} (hc : rest.head? = some c) :
    ∃ d, out ++ [d] <+: (scan scope top call i stack out rest).1 ∧
      if c.isAlpha || c == '_' then IsSolid d else d = c := by
  have hlead (d : Char) {u v : Text} (h : out ++ d :: u <+: v) : out ++ [d] <+: v :=
    List.IsPrefix.trans ⟨u, by simp⟩ h
  have hself (d : Char) : if d.isAlpha || d == '_' then IsSolid d else d = d := by
    split
    · next h => exact (isSolid_of_name h).1
    · rfl
  fun_cases scan scope top call i stack out rest
  case case1 => cases hc
  case case2 | case3 | case4 | case5 | case10 | case12 =>
    cases hc
    exact ⟨_, hlead _ (scan_lead ..), hself _⟩
  case case6 hs | case9 hs | case11 hs =>
    cases hc
    have h := congrArg Prod.fst hs
    exact ⟨_, hlead _ (h ▸ scan_lead ..), hself _⟩
  case case7 halpha _ _ _ _ _ _ s harray _ _ _ _ _ _ _ _ hrender _ _ hs =>
    cases hc
    obtain ⟨hsolid, hlower, hascii⟩ := isSolid_of_name halpha
    obtain ⟨u, hu⟩ := lower_cons_ascii hascii (List.takeWhile isWord _)
    obtain ⟨e, v, he, hsolid'⟩ :=
      render_start scope ((array?_name harray).trans hu) hlower _ _ _ _ _ _
    rw [hrender] at he
    refine ⟨e, hlead e (u := v) ?_, by rw [if_pos halpha]; exact hsolid'⟩
    rw [← he, ← congrArg Prod.fst hs]
    exact scan_lead ..
  case case8 name _ gap _ _ _ _ _ =>
    cases hc
    have happ : out ++ name <+: out ++ name ++ gap ++ "(" :=
      (List.prefix_append _ _).trans (List.prefix_append _ _)
    exact ⟨_, hlead _ (happ.trans (scan_lead ..)), hself _⟩

end Lead

/-- A line that starts with a digit.  A number is copied, and so is what stands behind it. -/
theorem label_number (scope : ReferenceScope) (top : Bool) (call : Option (Nat × Text)) (i : Nat)
    (stack : List (Option Text)) (g : Text) {c : Char} (hd : c.isDigit = true) (w : Text) :
    (Labelled.split (scanText scope top call i stack g (c :: w))).label =
      (Labelled.split (g ++ c :: w)).label := by
  have hc : (c.isDigit || c == '.') = true := by rw [hd]; rfl
  have hw : c :: w = (c :: w).takeWhile isOperand ++ (c :: w).dropWhile isOperand :=
    List.takeWhile_append_dropWhile.symm
  have hfirst : c ∈ (c :: w).takeWhile isOperand := by simp [operand_of_number hc]
  have hrest : StartsOutside isOperand ((c :: w).dropWhile isOperand) := by
    intro d hd
    have := List.head?_dropWhile_not isOperand (c :: w)
    simpa [hd] using this
  rw [scanText_number _ _ _ _ _ _ hc, tokenText]
  generalize (c :: w).takeWhile isOperand = number at hw hfirst ⊢
  generalize (c :: w).dropWhile isOperand = rest at hw hrest ⊢
  rw [hw, ← List.append_assoc]
  cases rest with
  | nil => rw [scanText_nil, List.append_nil]
  | cons e rest =>
    have he : isOperand e = false := hrest e rfl
    obtain ⟨d, hlead, hsame⟩ := scan_first scope top call (i + number.length) stack (g ++ number)
      (e :: rest) rfl
    have hname : ¬ (e.isAlpha || e == '_') = true := fun hn => by
      have hword : isWord e = true := by
        rw [Bool.or_eq_true] at hn
        rcases hn with hn | hn <;> simp [isWord, Char.isAlphanum, hn]
      simp [operand_of_word hword] at he
    rw [if_neg hname] at hsame
    subst hsame
    refine label_congr (p := g ++ number ++ [d]) ?_ hlead ⟨rest, by simp⟩
    have hdigit : d.isDigit = false := by
      cases hdd : d.isDigit with
      | false => rfl
      | true => simp [operand_of_word (word_of_digit hdd)] at he
    have hne : (g ++ number).dropWhile isBlank ≠ [] :=
      List.ne_nil_of_mem (mem_dropWhile_of_not (List.mem_append_right g hfirst)
        (not_blank_of_word (word_of_digit hd)))
    rw [Decides, trimStart, dropWhile_append_of_drop hne]
    exact List.ne_nil_of_mem (mem_dropWhile_of_not (List.mem_append_right _ (by simp)) hdigit)

/-- The label of a line whose references are settled. -/
theorem label_linearize (scope : ReferenceScope) (t : Text) :
    (Labelled.split (linearize scope t).1).label = (Labelled.split t).label := by
  rw [linearize]
  generalize callTarget? [] 0 t = call
  have hmarks : ∀ c ∈ t.takeWhile isBlank,
      isOperand c = false ∧ isQuote c = false ∧ c ≠ '(' ∧ c ≠ ')' := by
    intro c hc
    have hb : isBlank c = true := List.all_eq_true.1 List.all_takeWhile c hc
    have hne (d : Char) (hd : isBlank d = false) : c ≠ d := by
      rintro rfl
      simp [hb] at hd
    refine ⟨?_, ?_, hne _ (by decide), hne _ (by decide)⟩
    · simp [isOperand, not_word_of_blank hb, hne '.' (by decide)]
    · simp [isQuote, hne '\x27' (by decide), hne '"' (by decide)]
  have hstart := scanText_marks scope true call 0 [] [] hmarks (t.dropWhile isBlank)
  rw [List.takeWhile_append_dropWhile, List.nil_append] at hstart
  change (Labelled.split (scanText scope true call 0 [] [] t)).label = _
  rw [hstart]
  have hg : allBlank (t.takeWhile isBlank) = true := List.all_takeWhile
  have ht : t = t.takeWhile isBlank ++ t.dropWhile isBlank := List.takeWhile_append_dropWhile.symm
  generalize t.takeWhile isBlank = g at hg ht ⊢
  have hw : StartsOutside isBlank (t.dropWhile isBlank) := outside_trimStart
  generalize t.dropWhile isBlank = w at ht hw ⊢
  subst ht
  cases w with
  | nil => rw [scanText_nil, List.append_nil]
  | cons c w =>
    have hb : isBlank c = false := hw c rfl
    by_cases hd : c.isDigit = true
    · exact label_number scope true call _ [] g hd w
    · obtain ⟨d, ⟨u, hu⟩, hsolid⟩ := scan_first scope true call (0 + g.length) [] g (c :: w) rfl
      have hd' : isBlank d = false ∧ d.isDigit = false := by
        split at hsolid
        · exact hsolid
        · exact hsolid ▸ ⟨hb, by simpa using hd⟩
      have hc : startsSolid (c :: w) = true := by simpa [startsSolid, hb] using hd
      have hdu : startsSolid (d :: u) = true := by simp [startsSolid, hd']
      rw [scanText, ← hu, List.append_assoc, List.singleton_append, label_none hg hdu,
        label_none hg hc]

end FixedForm.Reference
