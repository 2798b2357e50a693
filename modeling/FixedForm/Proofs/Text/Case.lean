import FixedForm.Proofs.Text.Classes
import FixedForm.Text.Case

/-! Lower case leaves blanks and digits alone, takes an ASCII letter to an ASCII letter, and leaves no
capital of ASCII. -/
namespace FixedForm.Text
variable {c : Char}

/-- One unit that is no half of a character. -/
def IsUnit (c : Char) : Prop := c.toNat < 0xD800 ∨ (0xE000 ≤ c.toNat ∧ c.toNat < 0x10000)

theorem points_cons (hc : IsUnit c) (t : Text) : points (c :: t) = c.toNat :: points t := by
  have hu : unit c = c.toNat := by
    rw [unit, if_pos]
    rcases hc with h | h <;> omega
  cases t with
  | nil => simp [points, hu]
  | cons d t =>
    rw [points, if_neg, hu]
    rw [hu]
    rcases hc with h | h <;> omega

theorem ofPoint_toNat (hc : IsUnit c) : ofPoint c.toNat = [c] := by
  have hn : ¬ (0xD800 ≤ c.toNat ∧ c.toNat ≤ 0xDFFF) := by rcases hc with h | h <;> omega
  rw [ofPoint, if_pos (by rcases hc with h | h <;> omega), ofUnit, if_neg hn]
  simp

/-- A character that is its own lower case, whatever its neighbours are. -/
structure IsSmall (c : Char) : Prop where
  unit : IsUnit c
  ne_sigma : c.toNat ≠ 0x3A3
  lower : lowerPoint c.toNat = [c.toNat]

theorem isSmall_of_digit (h : c.isDigit = true) : IsSmall c := by
  have hdigit : ∀ n < 58, 48 ≤ n → lowerPoint n = [n] := by decide
  have hr := isDigit_iff.1 h
  exact ⟨.inl (by omega), by omega, hdigit _ (by omega) hr.1⟩

theorem isSmall_of_blank (h : isBlank c = true) : IsSmall c := by
  have hlow : ∀ n < 33, lowerPoint n = [n] := by decide
  have hquad : ∀ i < 11, lowerPoint (0x2000 + i) = [0x2000 + i] := by decide +kernel
  have hall : ∀ n ∈ [0xA0, 0x1680, 0x2028, 0x2029, 0x202F, 0x205F, 0x3000, 0xFEFF],
      lowerPoint n = [n] := by decide +kernel
  simp only [isBlank, Bool.or_eq_true, Bool.and_eq_true, beq_iff_eq, decide_eq_true_eq] at h
  refine ⟨?_, by omega, ?_⟩
  · unfold IsUnit
    omega
  · by_cases hquad' : 0x2000 ≤ c.toNat ∧ c.toNat ≤ 0x200A
    · obtain ⟨i, hi⟩ := Nat.exists_eq_add_of_le hquad'.1
      rw [hi]
      exact hquad i (by omega)
    · by_cases hsmall : c.toNat < 33
      · exact hlow _ hsmall
      · refine hall _ ?_
        simp only [List.mem_cons, List.not_mem_nil, or_false]
        omega

theorem lowerPoints_small (hc : IsSmall c) (before ps : List Nat) :
    lowerPoints before (c.toNat :: ps) = c.toNat :: lowerPoints (c.toNat :: before) ps := by
  have hs : (c.toNat == 0x3A3) = false := beq_eq_false_iff_ne.2 hc.ne_sigma
  rw [lowerPoints, hs, hc.lower]
  rfl

/-- A start of small characters stays, and the rest does not lose its first small character. -/
theorem lower_append {p : Text} (hp : ∀ c ∈ p, IsSmall c) (t : Text) :
    ∃ before, lower (p ++ t) = p ++ ofPoints (lowerPoints before (points t)) := by
  suffices h : ∀ before, ∃ before', ofPoints (lowerPoints before (points (p ++ t))) =
      p ++ ofPoints (lowerPoints before' (points t)) from h []
  induction p with
  | nil => exact fun before => ⟨before, rfl⟩
  | cons c p ih =>
    intro before
    have hc := hp c (by simp)
    obtain ⟨before', h⟩ := ih (fun d hd => hp d (by simp [hd])) (c.toNat :: before)
    refine ⟨before', ?_⟩
    rw [List.cons_append, points_cons hc.unit, lowerPoints_small hc, ofPoints, List.flatMap_cons,
      ofPoint_toNat hc.unit]
    exact congrArg (c :: ·) h

theorem ascii_toLower : ∀ n < 0x80, (Char.ofNat n).toLower.toNat < 0x80 := by decide

theorem lowerPoints_ascii (hc : c.toNat < 0x80) (before : List Nat) (t : Text) :
    ofPoints (lowerPoints before (points (c :: t))) =
      c.toLower :: ofPoints (lowerPoints (c.toNat :: before) (points t)) := by
  have hs : (c.toNat == 0x3A3) = false := beq_eq_false_iff_ne.2 (by omega)
  have hl : c.toLower.toNat < 0x80 := by simpa using ascii_toLower c.toNat hc
  rw [points_cons (.inl (by omega)), lowerPoints, hs, lowerPoint, if_pos hc, Char.ofNat_toNat,
    ofPoints, List.flatMap_append]
  simp only [Bool.false_eq_true, if_false, List.flatMap_cons, List.flatMap_nil, List.append_nil]
  rw [ofPoint_toNat (.inl (by omega))]
  rfl

/-- The lower case of an ASCII character. -/
theorem lower_cons_ascii (hc : c.toNat < 0x80) (t : Text) : ∃ u, lower (c :: t) = c.toLower :: u :=
  ⟨_, lowerPoints_ascii hc [] t⟩

/-- In ASCII every character has a lower case of its own. -/
theorem lower_ascii {t : Text} (h : ∀ c ∈ t, c.toNat < 0x80) : lower t = t.map Char.toLower := by
  suffices hpoints : ∀ before, ofPoints (lowerPoints before (points t)) = t.map Char.toLower from
    hpoints []
  induction t with
  | nil => exact fun _ => rfl
  | cons c t ih =>
    intro before
    rw [lowerPoints_ascii (h c (by simp)), ih fun d hd => h d (by simp [hd]), List.map_cons]

/-- The numbers of the capitals of ASCII. -/
def isCapital (n : Nat) : Bool := 65 ≤ n && n ≤ 90

theorem CaseRun.holds_iff {run : CaseRun} {n : Nat} :
    run.holds n = true ↔ run.first ≤ n ∧ n ≤ run.last ∧ (n - run.first) % run.step = 0 := by
  simp [holds, and_assoc]

/-- Where a code point in lower case comes from. -/
inductive LowerOf (n : Nat) : Nat → Prop
  | ascii (h : n < 0x80) : LowerOf n (Char.ofNat n).toLower.toNat
  | dotted {m : Nat} (h : n = 0x130) (hm : m = 0x69 ∨ m = 0x307) : LowerOf n m
  | partner {run : CaseRun} (hrun : run ∈ smallRuns) (h : run.holds n = true) :
    LowerOf n ((n : Int) + run.shift).toNat
  | self (hascii : ¬ n < 0x80) (hdot : n ≠ 0x130) (h : ∀ run ∈ smallRuns, run.holds n = false) :
    LowerOf n n

theorem lowerOf_mem {n m : Nat} (h : m ∈ lowerPoint n) : LowerOf n m := by
  rw [lowerPoint] at h
  split at h
  · next hn =>
    rw [List.mem_singleton.1 h]
    exact .ascii hn
  · next hn =>
    split at h
    · next hdot => exact .dotted (eq_of_beq hdot) (by simpa using h)
    · next hdot =>
      rw [List.mem_singleton.1 h]
      cases hp : smallRuns.findSome? (CaseRun.partner? · n) with
      | none =>
        have hnone := List.findSome?_eq_none_iff.1 hp
        refine .self hn (by simpa using hdot) fun run hrun => ?_
        simpa [CaseRun.partner?] using hnone run hrun
      | some k =>
        obtain ⟨run, hrun, hk⟩ := List.exists_of_findSome?_eq_some hp
        rw [CaseRun.partner?] at hk
        split at hk
        · next hholds =>
          cases hk
          exact .partner hrun hholds
        · cases hk

theorem not_capital_of_not_ascii {n : Nat} (h : ¬ n < 0x80) : isCapital n = false := by
  simp only [isCapital, Bool.and_eq_false_iff, decide_eq_false_iff_not]
  omega

theorem not_capital_lowerPoint (n : Nat) : ∀ m ∈ lowerPoint n, isCapital m = false := by
  have hascii : ∀ n < 0x80, isCapital (Char.ofNat n).toLower.toNat = false := by decide
  have hruns : ∀ run ∈ smallRuns, 90 < (run.first : Int) + run.shift := by decide +kernel
  intro m hm
  cases lowerOf_mem hm with
  | ascii h => exact hascii n h
  | dotted _ hm => rcases hm with rfl | rfl <;> rfl
  | partner hrun h =>
    have hfirst := (CaseRun.holds_iff.1 h).1
    have hshift := hruns _ hrun
    simp only [isCapital, Bool.and_eq_false_iff, decide_eq_false_iff_not]
    omega
  | self h => exact not_capital_of_not_ascii h

theorem not_capital_lowerPoints (before ps : List Nat) :
    ∀ m ∈ lowerPoints before ps, isCapital m = false := by
  induction ps generalizing before with
  | nil => simp [lowerPoints]
  | cons n ps ih =>
    intro m hm
    rw [lowerPoints] at hm
    rcases List.mem_append.1 hm with hm | hm
    · split at hm
      · rw [List.mem_singleton.1 hm]
        split <;> rfl
      · exact not_capital_lowerPoint n m hm
    · exact ih _ m hm

theorem toNat_ofNat (n : Nat) : (Char.ofNat n).toNat = n ∨ (Char.ofNat n).toNat = 0 := by
  by_cases hn : n.isValidChar
  · rw [Char.ofNat, dif_pos hn]
    exact .inl rfl
  · rw [Char.ofNat, dif_neg hn]
    exact .inr rfl

theorem toNat_ofUnit (n : Nat) :
    (ofUnit n).toNat = n ∨ (ofUnit n).toNat = 0 ∨ halfShift ≤ (ofUnit n).toNat := by
  rw [ofUnit]
  split
  · rcases toNat_ofNat (n + halfShift) with h | h
    · exact .inr (.inr (by rw [h]; exact Nat.le_add_left _ _))
    · exact .inr (.inl h)
  · rcases toNat_ofNat n with h | h
    · exact .inl h
    · exact .inr (.inl h)

/-- A character of ASCII comes from its own code point only. -/
theorem eq_of_ascii_mem_ofPoint {n : Nat} (hpos : 0 < c.toNat) (hc : c.toNat < 0x80)
    (h : c ∈ ofPoint n) : c.toNat = n := by
  have hunit (m : Nat) (he : c = ofUnit m) : c.toNat = m := by
    have hm := toNat_ofUnit m
    rw [← he, halfShift] at hm
    omega
  rw [ofPoint] at h
  split at h
  · exact hunit n (List.mem_singleton.1 h)
  · rcases List.mem_cons.1 h with he | h
    · have := hunit _ he
      omega
    · have := hunit _ (List.mem_singleton.1 h)
      omega

theorem not_capital_lower {t : Text} (h : c ∈ lower t) : isCapital c.toNat = false := by
  obtain ⟨n, hn, hc⟩ := List.mem_flatMap.1 h
  cases hcap : isCapital c.toNat with
  | false => rfl
  | true =>
    have hrange : 65 ≤ c.toNat ∧ c.toNat ≤ 90 := by simpa [isCapital] using hcap
    have he := eq_of_ascii_mem_ofPoint (by omega) (by omega) hc
    rw [← hcap, he]
    exact not_capital_lowerPoints _ _ n hn

end FixedForm.Text
