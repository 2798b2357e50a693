import FixedForm.Proofs.Text.Case
import Mathlib.Data.List.Chain

/-! A text in lower case is its own lower case.  No partner of a capital is a capital, and lower case
neither makes halves of characters nor brings two of them together. -/
namespace FixedForm.Text

namespace CaseRun

/-- The first partner. -/
def start (run : CaseRun) : Nat := ((run.first : Int) + run.shift).toNat

/-- The last partner. -/
def stop (run : CaseRun) : Nat := ((run.last : Int) + run.shift).toNat

/-- No partner of a member of `run` is a member of `other`: they are apart, or between the members. -/
def misses (run other : CaseRun) : Bool :=
  Nat.blt run.stop other.first || Nat.blt other.last run.start ||
    (other.step == 2 && (run.step == 2 || run.first == run.last) && (run.start + other.first) % 2 == 1)

theorem not_holds_partner {run other : CaseRun} (h : run.misses other = true)
    (hlow : 0 < run.start) {n : Nat} (hn : run.holds n = true) :
    other.holds ((n : Int) + run.shift).toNat = false := by
  rw [Bool.eq_false_iff]
  intro hm
  obtain ⟨hfirst, hlast, hstep⟩ := holds_iff.1 hn
  obtain ⟨hfirst', hlast', hstep'⟩ := holds_iff.1 hm
  simp only [misses, Bool.or_eq_true, Nat.blt_eq, Bool.and_eq_true, beq_iff_eq] at h
  simp only [start, stop] at h hlow
  rcases h with (h | h) | ⟨⟨htwo, hrun⟩, hodd⟩
  · omega
  · omega
  · rw [htwo] at hstep'
    rcases hrun with hrun | hrun
    · rw [hrun] at hstep
      omega
    · omega

end CaseRun

/-- What no partner of a capital is: `İ`, or one half of a character. -/
def otherRuns : List CaseRun := [⟨0x130, 0x130, 1, 0⟩, ⟨0xD800, 0xDFFF, 1, 0⟩]

theorem misses_smallRuns :
    (smallRuns.all fun run => (otherRuns ++ smallRuns).all run.misses) = true := by
  decide +kernel

theorem smallRuns_bounds : ∀ run ∈ smallRuns,
    0x80 ≤ run.first ∧ 0 < run.start ∧ run.stop < 0x110000 := by
  decide +kernel

/-- One half of a character. -/
def IsHalf (n : Nat) : Prop := 0xD800 ≤ n ∧ n < 0xE000

/-- A code point that is its own lower case. -/
structure IsLower (n : Nat) : Prop where
  lower : lowerPoint n = [n]
  ne_sigma : n ≠ 0x3A3

theorem isLower_of_not_holds {n : Nat} (h : ∀ run ∈ smallRuns, run.holds n = false)
    (hcapital : isCapital n = false) (hdot : n ≠ 0x130) : IsLower n := by
  have hascii : ∀ n < 0x80, isCapital n = false → (Char.ofNat n).toLower.toNat = n := by decide
  refine ⟨?_, ?_⟩
  · rw [lowerPoint]
    split
    · next hn => rw [hascii n hn hcapital]
    · have hnone : smallRuns.findSome? (CaseRun.partner? · n) = none := by
        refine List.findSome?_eq_none_iff.2 fun run hrun => ?_
        rw [CaseRun.partner?, h run hrun]
        rfl
      rw [if_neg (by simpa using hdot), hnone]
      rfl
  · rintro rfl
    have hsigma : smallRuns.any (·.holds 0x3A3) = true := by decide +kernel
    obtain ⟨run, hrun, hholds⟩ := List.any_eq_true.1 hsigma
    rw [h run hrun] at hholds
    cases hholds

theorem not_holds_of_lt {n : Nat} (h : n < 0x80) {run : CaseRun} (hrun : run ∈ smallRuns) :
    run.holds n = false := by
  rw [Bool.eq_false_iff]
  intro hholds
  have hfirst := (CaseRun.holds_iff.1 hholds).1
  have hbounds := smallRuns_bounds run hrun
  omega

theorem not_holds_of_partner {n : Nat} {run : CaseRun} (hrun : run ∈ smallRuns) (h : run.holds n = true)
    (other : CaseRun) (ho : other ∈ otherRuns ++ smallRuns) :
    other.holds ((n : Int) + run.shift).toNat = false :=
  CaseRun.not_holds_partner (List.all_eq_true.1 (List.all_eq_true.1 misses_smallRuns run hrun) other ho)
    (smallRuns_bounds run hrun).2.1 h

namespace LowerOf
variable {n m : Nat}

theorem isLower (h : LowerOf n m) (hcapital : isCapital m = false) : IsLower m := by
  cases h with
  | ascii h =>
    have hm := ascii_toLower n h
    exact isLower_of_not_holds (fun run hrun => not_holds_of_lt hm hrun) hcapital (by omega)
  | dotted _ hm =>
    have habove : ∀ run ∈ smallRuns, run.holds 0x307 = false := by decide +kernel
    rcases hm with rfl | rfl
    · exact isLower_of_not_holds (fun run hrun => not_holds_of_lt (by omega) hrun) hcapital (by omega)
    · exact isLower_of_not_holds habove hcapital (by omega)
  | partner hrun h =>
    refine isLower_of_not_holds (fun other ho =>
      not_holds_of_partner hrun h other (List.mem_append_right _ ho)) hcapital fun he => ?_
    have hdot := not_holds_of_partner hrun h ⟨0x130, 0x130, 1, 0⟩ (by simp [otherRuns])
    rw [he] at hdot
    cases hdot
  | self _ hdot h => exact isLower_of_not_holds h hcapital hdot

/-- A half comes from itself only. -/
theorem eq_of_half (h : LowerOf n m) (hm : IsHalf m) : m = n := by
  obtain ⟨hlow, hhigh⟩ := hm
  cases h with
  | ascii h =>
    have := ascii_toLower n h
    omega
  | dotted _ hm => omega
  | @partner run hrun h =>
    have hnot := not_holds_of_partner hrun h ⟨0xD800, 0xDFFF, 1, 0⟩ (by simp [otherRuns])
    have hin : CaseRun.holds ⟨0xD800, 0xDFFF, 1, 0⟩ ((n : Int) + run.shift).toNat = true :=
      CaseRun.holds_iff.2 ⟨hlow, Nat.le_of_lt_succ hhigh, Nat.mod_one _⟩
    rw [hnot] at hin
    cases hin
  | self => rfl

theorem lt (h : LowerOf n m) (hn : n < 0x110000) : m < 0x110000 := by
  cases h with
  | ascii h =>
    have := ascii_toLower n h
    omega
  | dotted _ hm => omega
  | partner hrun h =>
    have hlast := (CaseRun.holds_iff.1 h).2.1
    have hbounds := (smallRuns_bounds _ hrun).2.2
    rw [CaseRun.stop] at hbounds
    omega
  | self => exact hn

end LowerOf

/-- The lower-case form of a code point between others. -/
def lowerForm (before : List Nat) (n : Nat) (ps : List Nat) : List Nat :=
  if n == 0x3A3 then [if meetsCased before && !meetsCased ps then 0x3C2 else 0x3C3] else lowerPoint n

theorem lowerPoints_cons (before : List Nat) (n : Nat) (ps : List Nat) :
    lowerPoints before (n :: ps) = lowerForm before n ps ++ lowerPoints (n :: before) ps := rfl

section Form
variable {before ps : List Nat} {n m : Nat}

theorem lowerForm_spec (h : m ∈ lowerForm before n ps) :
    IsLower m ∧ (IsHalf m → m = n) ∧ (n < 0x110000 → m < 0x110000) := by
  rw [lowerForm] at h
  split at h
  · have hforms : ∀ m ∈ [0x3C2, 0x3C3], ∀ run ∈ smallRuns, run.holds m = false := by decide +kernel
    have hm : m ∈ [0x3C2, 0x3C3] := by
      rw [List.mem_singleton.1 h]
      split <;> simp
    have heq : m = 0x3C2 ∨ m = 0x3C3 := by simpa using hm
    refine ⟨isLower_of_not_holds (hforms m hm) ?_ (by omega), fun hhalf => ?_, fun _ => by omega⟩
    · rcases heq with rfl | rfl <;> rfl
    · have := hhalf.1
      omega
  · have hof := lowerOf_mem h
    exact ⟨hof.isLower (not_capital_lowerPoint n m h), hof.eq_of_half, hof.lt⟩

theorem lowerForm_of_isLower (h : IsLower n) : lowerForm before n ps = [n] := by
  rw [lowerForm, if_neg (by simpa using h.ne_sigma), h.lower]

theorem lowerForm_ne_nil : lowerForm before n ps ≠ [] := by
  rw [lowerForm, lowerPoint]
  split
  · exact List.cons_ne_nil _ _
  · split
    · exact List.cons_ne_nil _ _
    · split <;> exact List.cons_ne_nil _ _

/-- A half at the start was there before. -/
theorem head?_lowerPoints (h : m ∈ (lowerPoints before ps).head?) (hm : IsHalf m) : m ∈ ps.head? := by
  cases ps with
  | nil => exact h
  | cons k ps =>
    rw [lowerPoints_cons, List.head?_append_of_ne_nil _ lowerForm_ne_nil] at h
    rw [(lowerForm_spec (List.mem_of_mem_head? h)).2.1 hm]
    rfl

end Form

theorem isLower_lowerPoints {before ps : List Nat} {m : Nat} (h : m ∈ lowerPoints before ps) : IsLower m := by
  induction ps generalizing before with
  | nil => cases h
  | cons n ps ih =>
    rw [lowerPoints_cons] at h
    rcases List.mem_append.1 h with h | h
    · exact (lowerForm_spec h).1
    · exact ih h

theorem lowerPoints_of_isLower {before ps : List Nat} (h : ∀ m ∈ ps, IsLower m) :
    lowerPoints before ps = ps := by
  induction ps generalizing before with
  | nil => rfl
  | cons n ps ih =>
    rw [lowerPoints_cons, lowerForm_of_isLower (h n (by simp)), ih fun m hm => h m (by simp [hm])]
    rfl

/-- The two halves of one character. -/
def Joins (p q : Nat) : Prop := 0xD800 ≤ p ∧ p < 0xDC00 ∧ 0xDC00 ≤ q ∧ q < 0xE000

theorem Joins.isHalf {p q : Nat} (h : Joins p q) : IsHalf p ∧ IsHalf q := by
  obtain ⟨h₁, h₂, h₃, h₄⟩ := h
  exact ⟨⟨h₁, by omega⟩, ⟨by omega, h₄⟩⟩

/-- Code points of a text: no two of them are the halves of a character. -/
structure Whole (ps : List Nat) : Prop where
  lt : ∀ p ∈ ps, p < 0x110000
  apart : ps.IsChain fun p q => ¬ Joins p q

theorem unit_lt (c : Char) : unit c < 0x10000 := by
  have hc : c.toNat < 0xD800 ∨ 0xDFFF < c.toNat ∧ c.toNat < 0x110000 := c.valid
  rw [unit, halfShift]
  split <;> omega

theorem unit_ofUnit {n : Nat} (h : n < 0x10000) : unit (ofUnit n) = n := by
  have hvalid {k : Nat} (hk : k < 0xD800 ∨ 0xDFFF < k ∧ k < 0x110000) : (Char.ofNat k).toNat = k := by
    rw [Char.ofNat, dif_pos hk]
    rfl
  rw [ofUnit]
  split
  · next hhalf =>
    rw [unit, halfShift, hvalid (.inr (by omega)), if_neg (by omega)]
    omega
  · next hhalf => rw [unit, hvalid (by omega), if_pos h]

/-- The first unit of a code point is that point or the first half of it. -/
theorem head?_points (c : Char) (t : Text) :
    ∃ q, (points (c :: t)).head? = some q ∧ (q = unit c ∨ 0x10000 ≤ q) := by
  cases t with
  | nil => exact ⟨_, rfl, .inl rfl⟩
  | cons d t =>
    rw [points]
    split
    · exact ⟨_, rfl, .inr (by omega)⟩
    · exact ⟨_, rfl, .inl rfl⟩

theorem whole_points (t : Text) : Whole (points t) := by
  fun_induction points t with
  | case1 => exact ⟨by simp, .nil⟩
  | case2 c =>
    refine ⟨fun p hp => ?_, .singleton _⟩
    rw [List.mem_singleton.1 hp]
    exact Nat.lt_trans (unit_lt c) (by omega)
  | case3 c d t hjoin ih =>
    have hp : 0x10000 + (unit c - 0xD800) * 0x400 + (unit d - 0xDC00) < 0x110000 := by omega
    refine ⟨List.forall_mem_cons.2 ⟨hp, ih.lt⟩, List.isChain_cons.2 ⟨fun q _ hq => ?_, ih.apart⟩⟩
    have := hq.2.1
    omega
  | case4 c d t hjoin ih =>
    have hc := unit_lt c
    refine ⟨List.forall_mem_cons.2 ⟨by omega, ih.lt⟩, List.isChain_cons.2 ⟨fun q hq hcq => ?_, ih.apart⟩⟩
    obtain ⟨r, hr, hhead⟩ := head?_points d t
    obtain rfl := Option.some.inj (hr.symm.trans hq)
    obtain ⟨h₁, h₂, h₃, h₄⟩ := hcq
    rcases hhead with rfl | hbig
    · exact hjoin ⟨h₁, h₂, h₃, h₄⟩
    · omega

/-- Lower case does not bring two halves together. -/
theorem whole_lowerPoints {before ps : List Nat} (h : Whole ps) : Whole (lowerPoints before ps) := by
  induction ps generalizing before with
  | nil => exact h
  | cons n ps ih =>
    have hlt := List.forall_mem_cons.1 h.lt
    obtain ⟨hnext, hchain⟩ := List.isChain_cons.1 h.apart
    have hrest : Whole (lowerPoints (n :: before) ps) := ih ⟨hlt.2, hchain⟩
    rw [lowerPoints_cons]
    refine ⟨fun m hm => ?_, List.isChain_append.2 ⟨?_, hrest.apart, fun p hp q hq hpq => ?_⟩⟩
    · rcases List.mem_append.1 hm with hm | hm
      · exact (lowerForm_spec hm).2.2 hlt.1
      · exact hrest.lt m hm
    · refine (List.pairwise_of_forall_mem_list fun p hp q hq hpq => ?_).isChain
      have hpn := (lowerForm_spec hp).2.1 hpq.isHalf.1
      have hqn := (lowerForm_spec hq).2.1 hpq.isHalf.2
      obtain ⟨-, h₂, h₃, -⟩ := hpq
      omega
    · have hpn := (lowerForm_spec (List.mem_of_mem_getLast? hp)).2.1 hpq.isHalf.1
      exact hnext q (head?_lowerPoints hq hpq.isHalf.2) (hpn ▸ hpq)

/-- The first unit of a code point. -/
theorem ofPoint_head {p : Nat} (h : p < 0x110000) :
    ∃ c t, ofPoint p = c :: t ∧ (unit c = p ∨ unit c < 0xDC00) := by
  rw [ofPoint]
  split
  · next hp => exact ⟨_, _, rfl, .inl (unit_ofUnit hp)⟩
  · refine ⟨_, _, rfl, .inr ?_⟩
    rw [unit_ofUnit (by omega)]
    omega

theorem points_ofPoints {ps : List Nat} (h : Whole ps) : points (ofPoints ps) = ps := by
  induction ps with
  | nil => rfl
  | cons p ps ih =>
    obtain ⟨hp, hlt⟩ := List.forall_mem_cons.1 h.lt
    obtain ⟨hnext, hchain⟩ := List.isChain_cons.1 h.apart
    have hrest := ih ⟨hlt, hchain⟩
    rw [ofPoints, List.flatMap_cons, ofPoint]
    split
    · next hone =>
      -- no half that the next unit completes
      cases ps with
      | nil => simp [points, unit_ofUnit hone]
      | cons q ps =>
        obtain ⟨c, t, hc, hunit⟩ := ofPoint_head (hlt q (by simp))
        have happart := hnext q rfl
        rw [ofPoints, List.flatMap_cons, hc] at hrest
        rw [List.flatMap_cons, hc, List.singleton_append, List.cons_append, points, if_neg, unit_ofUnit hone]
        · exact congrArg (p :: ·) hrest
        · rw [unit_ofUnit hone]
          rintro ⟨h₁, h₂, h₃, h₄⟩
          rcases hunit with hunit | hunit
          · exact happart ⟨h₁, h₂, hunit ▸ h₃, hunit ▸ h₄⟩
          · omega
    · have hhigh := unit_ofUnit (n := 0xD800 + (p - 0x10000) / 0x400) (by omega)
      have hlow := unit_ofUnit (n := 0xDC00 + (p - 0x10000) % 0x400) (by omega)
      rw [List.cons_append, List.singleton_append, points, hhigh, hlow, if_pos (by omega)]
      refine List.cons_eq_cons.2 ⟨by omega, hrest⟩

theorem lower_lower (t : Text) : t.lower.lower = t.lower := by
  have hwhole : Whole (lowerPoints [] (points t)) := whole_lowerPoints (whole_points t)
  rw [lower, lower, points_ofPoints hwhole, lowerPoints_of_isLower fun _ hm => isLower_lowerPoints hm]

end FixedForm.Text
