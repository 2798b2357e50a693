import FixedForm.Proofs.Text.Parens
import Mathlib.Data.Nat.Find

/-! The partner of a parenthesis by counting.  The search from the left stops at the first place where as many
parentheses are closed as opened, and the search from the right is its mirror image. -/
namespace FixedForm.Text

/-- The first number with a property. -/
def IsFirst (P : Nat → Prop) (n : Nat) : Prop := P n ∧ ∀ m < n, ¬ P m

/-- A property of the numbers from `k` on. -/
theorem isFirst_shift {P Q : Nat → Prop} {k : Nat} (h : ∀ i, P i ↔ ∃ n, i = k + n ∧ Q n) (i : Nat) :
    IsFirst P i ↔ ∃ n, i = k + n ∧ IsFirst Q n := by
  constructor
  · rintro ⟨hi, hfirst⟩
    obtain ⟨n, rfl, hn⟩ := (h i).1 hi
    exact ⟨n, rfl, hn, fun m hm hq => hfirst (k + m) (by omega) ((h _).2 ⟨m, rfl, hq⟩)⟩
  · rintro ⟨n, rfl, hn, hfirst⟩
    refine ⟨(h _).2 ⟨n, rfl, hn⟩, fun m hm hp => ?_⟩
    obtain ⟨l, rfl, hl⟩ := (h m).1 hp
    exact hfirst l (by omega) hl

/-- Up to place `n` as many `up` are closed as were opened, `depth` of them before the text. -/
def EvensFrom (up down : Char) (depth : Nat) (t : Text) (n : Nat) : Prop :=
  n < t.length ∧ depth + (t.take (n + 1)).count up = (t.take (n + 1)).count down

section Count
variable {up down c : Char} {d i j n : Nat} {t : Text}

theorem evensFrom_zero (hne : up ≠ down) : EvensFrom up down (d + 1) (c :: t) 0 ↔ c = down ∧ d = 0 := by
  by_cases hu : c = up
  · subst hu
    simp [EvensFrom, hne]
  · by_cases hd : c = down
    · subst hd
      simp [EvensFrom, hu]
    · simp [EvensFrom, hu, hd]

theorem evensFrom_up (hne : up ≠ down) :
    EvensFrom up down d (up :: t) (n + 1) ↔ EvensFrom up down (d + 1) t n := by
  simp only [EvensFrom, List.take_succ_cons, List.count_cons_self, List.count_cons_of_ne hne, List.length_cons,
    Nat.add_lt_add_iff_right]
  omega

theorem evensFrom_down (hne : up ≠ down) :
    EvensFrom up down (d + 1) (down :: t) (n + 1) ↔ EvensFrom up down d t n := by
  simp only [EvensFrom, List.take_succ_cons, List.count_cons_self, List.count_cons_of_ne hne.symm, List.length_cons,
    Nat.add_lt_add_iff_right]
  omega

theorem evensFrom_skip (hu : c ≠ up) (hd : c ≠ down) :
    EvensFrom up down d (c :: t) (n + 1) ↔ EvensFrom up down d t n := by
  simp only [EvensFrom, List.take_succ_cons, List.count_cons_of_ne hu, List.count_cons_of_ne hd, List.length_cons,
    Nat.add_lt_add_iff_right]

/-- The search goes on behind a character that does not end it. -/
theorem exists_isFirst_cons {d' : Nat} (hzero : ¬ EvensFrom up down d (c :: t) 0)
    (hstep : ∀ n, EvensFrom up down d (c :: t) (n + 1) ↔ EvensFrom up down d' t n) :
    (∃ n, j = i + n ∧ IsFirst (EvensFrom up down d (c :: t)) n) ↔
      ∃ n, j = i + 1 + n ∧ IsFirst (EvensFrom up down d' t) n := by
  have hshift : ∀ k, IsFirst (EvensFrom up down d (c :: t)) k ↔
      ∃ n, k = 1 + n ∧ IsFirst (EvensFrom up down d' t) n := by
    refine isFirst_shift fun k => ?_
    cases k with
    | zero => exact iff_of_false hzero (by rintro ⟨n, he, -⟩; omega)
    | succ k => simp [hstep, Nat.add_comm 1]
  simp only [hshift]
  constructor
  · rintro ⟨k, rfl, n, rfl, h⟩
    exact ⟨n, by omega, h⟩
  · rintro ⟨n, rfl, h⟩
    exact ⟨1 + n, by omega, n, rfl, h⟩

/-- Where one is open, the search ends at the first place where all are closed. -/
theorem balance_eq_some_iff (hne : up ≠ down) : balance up down (d + 1) i t = some j ↔
    ∃ n, j = i + n ∧ IsFirst (EvensFrom up down (d + 1) t) n := by
  induction t generalizing d i with
  | nil =>
    refine iff_of_false (fun h => by cases h) ?_
    rintro ⟨n, -, ⟨hlt, -⟩, -⟩
    cases hlt
  | cons c t ih =>
    by_cases hu : c = up
    · subst hu
      rw [balance_up, ih, exists_isFirst_cons (by simp [evensFrom_zero hne, hne]) fun n => evensFrom_up hne]
    · by_cases hd : c = down
      · subst hd
        cases d with
        | zero =>
          have hzero : EvensFrom up c 1 (c :: t) 0 := (evensFrom_zero hne).2 ⟨rfl, rfl⟩
          rw [balance_last hne]
          constructor
          · intro h
            exact ⟨0, (Option.some.inj h).symm, hzero, fun m hm => absurd hm (Nat.not_lt_zero m)⟩
          · rintro ⟨n, rfl, -, hfirst⟩
            cases n with
            | zero => rfl
            | succ n => exact absurd hzero (hfirst 0 (by omega))
        | succ d =>
          rw [balance_down hne, ih, exists_isFirst_cons (by simp [evensFrom_zero hne]) fun n => evensFrom_down hne]
      · rw [balance_skip ⟨hu, hd⟩, ih,
          exists_isFirst_cons (by simp [evensFrom_zero hne, hd]) fun n => evensFrom_skip hu hd]

theorem balance_stray (hne : up ≠ down) (i : Nat) (t : Text) :
    balance up down 0 i (down :: t) = balance up down 0 (i + 1) t := by
  rw [balance.eq_def]
  simp [hne.symm]

/-- Nothing is counted before the first `up`. -/
theorem balance_before {x : Text} (hx : up ∉ x) (i : Nat) (t : Text) :
    balance up down 0 i (x ++ t) = balance up down 0 (i + x.length) t := by
  induction x generalizing i with
  | nil => rfl
  | cons c x ih =>
    obtain ⟨hc, hx⟩ : up ≠ c ∧ up ∉ x := by simpa using hx
    have hstep : balance up down 0 i (c :: (x ++ t)) = balance up down 0 (i + 1) (x ++ t) := by
      by_cases hd : c = down
      · rw [hd, balance_stray (hd ▸ hc)]
      · rw [balance_skip ⟨hc.symm, hd⟩]
    rw [List.cons_append, hstep, ih hx, List.length_cons, Nat.add_right_comm]
    rfl

end Count

/-- From the first `up` to place `i` there are as many `down` as `up`. -/
def Evens (up down : Char) (t : Text) (i : Nat) : Prop :=
  t.idxOf up ≤ i ∧ i < t.length ∧
    ((t.take (i + 1)).drop (t.idxOf up)).count up = ((t.take (i + 1)).drop (t.idxOf up)).count down

instance (up down : Char) (t : Text) (i : Nat) : Decidable (Evens up down t i) :=
  inferInstanceAs (Decidable (_ ∧ _))

section Partner
variable {up down : Char} {i : Nat} {t : Text}

theorem idxOf_first {x : Text} (hx : up ∉ x) (u : Text) : (x ++ up :: u).idxOf up = x.length := by
  rw [List.idxOf_append, if_neg hx, List.idxOf_cons_self, Nat.zero_add]

theorem evens_iff {x u : Text} (hne : up ≠ down) (hx : up ∉ x) :
    Evens up down (x ++ up :: u) i ↔ ∃ n, i = x.length + 1 + n ∧ EvensFrom up down 1 u n := by
  have hlen : (x ++ up :: u).length = x.length + (u.length + 1) := List.length_append
  rw [Evens, idxOf_first hx, hlen, List.drop_take, List.drop_left]
  constructor
  · rintro ⟨hle, hlt, hcount⟩
    obtain ⟨n, rfl⟩ := Nat.exists_eq_add_of_le hle
    rw [Nat.add_assoc, Nat.add_sub_cancel_left] at hcount
    cases n with
    | zero => simp [hne] at hcount
    | succ n =>
      refine ⟨n, by omega, by omega, ?_⟩
      rwa [List.take_succ_cons, List.count_cons_self, List.count_cons_of_ne hne, Nat.add_comm] at hcount
  · rintro ⟨n, rfl, hlt, hcount⟩
    have hplace : x.length + 1 + n + 1 - x.length = n + 1 + 1 := by omega
    refine ⟨by omega, by omega, ?_⟩
    rwa [hplace, List.take_succ_cons, List.count_cons_self, List.count_cons_of_ne hne, Nat.add_comm]

theorem not_evens_of_notMem (h : up ∉ t) : ¬ Evens up down t i := by
  rintro ⟨hle, hlt, -⟩
  rw [List.idxOf_eq_length h] at hle
  omega

/-- The search from the first `up`. -/
theorem balance_iff (hne : up ≠ down) : balance up down 0 0 t = some i ↔ IsFirst (Evens up down t) i := by
  by_cases hmem : up ∈ t
  · obtain ⟨x, u, rfl, hx⟩ := List.eq_append_cons_of_mem hmem
    rw [balance_before hx, balance_up, balance_eq_some_iff hne, isFirst_shift (fun j => evens_iff hne hx) i,
      Nat.zero_add]
  · have hnone : balance up down 0 0 t = none := by
      have h : balance up down 0 0 (t ++ []) = balance up down 0 (0 + t.length) [] := balance_before hmem 0 []
      rwa [List.append_nil] at h
    rw [hnone]
    exact iff_of_false (fun h => by cases h) fun h => not_evens_of_notMem hmem h.1

theorem balance_eq_none_iff (hne : up ≠ down) : balance up down 0 0 t = none ↔ ∀ i, ¬ Evens up down t i := by
  constructor
  · intro hnone i hi
    have hex : ∃ i, Evens up down t i := ⟨i, hi⟩
    have hsome := (balance_iff hne).2 ⟨Nat.find_spec hex, fun m => Nat.find_min hex⟩
    rw [hnone] at hsome
    cases hsome
  · intro h
    rw [Option.eq_none_iff_forall_ne_some]
    exact fun i hi => h i ((balance_iff hne).1 hi).1

end Partner

/-- The parenthesis of the other direction. -/
def turned (c : Char) : Char := if c = '(' then ')' else if c = ')' then '(' else c

/-- The text read backwards, with opening and closing parentheses exchanged. -/
def mirror (t : Text) : Text := t.reverse.map turned

theorem balance_turned (d i : Nat) (t : Text) : balance '(' ')' d i (t.map turned) = balance ')' '(' d i t := by
  induction t generalizing d i with
  | nil => rfl
  | cons c t ih =>
    by_cases ho : c = '('
    · subst ho
      change balance '(' ')' d i (')' :: t.map turned) = _
      rcases d with _ | _ | d
      · rw [balance_stray (by decide), balance_stray (by decide), ih]
      · rw [balance_last (by decide), balance_last (by decide)]
      · rw [balance_down (by decide), balance_down (by decide), ih]
    · by_cases hc : c = ')'
      · subst hc
        change balance '(' ')' d i ('(' :: t.map turned) = _
        rw [balance_up, balance_up, ih]
      · have hself : turned c = c := by simp [turned, ho, hc]
        rw [List.map_cons, hself, balance_skip ⟨ho, hc⟩, balance_skip ⟨hc, ho⟩, ih]

/-- The two searches are mirror images. -/
theorem opening?_eq_mirror (t : Text) : opening? t = (closing? (mirror t)).map fun p => t.length - 1 - p := by
  rw [opening?, closing?, mirror, balance_turned]

/-- The last place of a character that the text holds. -/
def lastIdxOf (c : Char) (t : Text) : Nat := t.length - 1 - t.reverse.idxOf c

/-- From place `i` to the last `)` there are as many `(` as `)`. -/
def EvensBack (t : Text) (i : Nat) : Prop :=
  ')' ∈ t ∧ i ≤ lastIdxOf ')' t ∧
    ((t.take (lastIdxOf ')' t + 1)).drop i).count '(' = ((t.take (lastIdxOf ')' t + 1)).drop i).count ')'

instance (t : Text) (i : Nat) : Decidable (EvensBack t i) := inferInstanceAs (Decidable (_ ∧ _))

section Backwards
variable {i : Nat} {t : Text}

theorem evensBack_iff : EvensBack t i ↔ i < t.length ∧ Evens ')' '(' t.reverse (t.length - 1 - i) := by
  by_cases hmem : ')' ∈ t
  · obtain ⟨y, x, ht, hy⟩ := List.eq_append_cons_of_mem (List.mem_reverse.2 hmem)
    have hidx : t.reverse.idxOf ')' = y.length := by rw [ht, idxOf_first hy]
    have hlen : t.length = y.length + (x.length + 1) := by
      rw [← List.length_reverse, ht, List.length_append, List.length_cons]
    have hlast : lastIdxOf ')' t = x.length := by
      rw [lastIdxOf, hidx]
      omega
    have htake : t.take (x.length + 1) = (')' :: x).reverse := by
      have h := congrArg List.reverse ht
      rw [List.reverse_reverse, List.reverse_append] at h
      rw [h, List.take_left' (by simp)]
    have hturn (hi : i ≤ x.length) : (t.reverse.take (t.length - 1 - i + 1)).drop y.length =
        ((t.take (x.length + 1)).drop i).reverse := by
      have hplace : t.length - 1 - i + 1 - y.length = (')' :: x).reverse.length - i := by
        rw [List.length_reverse, List.length_cons]
        omega
      rw [htake, List.reverse_drop, List.reverse_reverse, List.drop_take, ht, List.drop_left, hplace]
    rw [EvensBack, Evens, hlast, hidx, List.length_reverse]
    constructor
    · rintro ⟨-, hi, hcount⟩
      refine ⟨by omega, by omega, by omega, ?_⟩
      rw [hturn hi, List.count_reverse, List.count_reverse, hcount]
    · rintro ⟨hlt, hle, -, hcount⟩
      have hi : i ≤ x.length := by omega
      rw [hturn hi, List.count_reverse, List.count_reverse] at hcount
      exact ⟨hmem, hi, hcount.symm⟩
  · refine iff_of_false (fun h => hmem h.1) fun h => not_evens_of_notMem ?_ h.2
    simpa using hmem

theorem opening?_eq_some_iff : opening? t = some i ↔ EvensBack t i ∧ ∀ j, i < j → ¬ EvensBack t j := by
  rw [opening?, Option.map_eq_some_iff]
  simp only [balance_iff (by decide : ')' ≠ '('), evensBack_iff]
  constructor
  · rintro ⟨p, ⟨hp, hfirst⟩, rfl⟩
    have hlt : p < t.length := by simpa using hp.2.1
    have hback : t.length - 1 - (t.length - 1 - p) = p := by omega
    refine ⟨⟨by omega, by rwa [hback]⟩, fun j hj hj' => hfirst _ (by omega) hj'.2⟩
  · rintro ⟨⟨hlt, hp⟩, hlast⟩
    refine ⟨t.length - 1 - i, ⟨hp, fun m hm hm' => ?_⟩, by omega⟩
    have hlt' : m < t.length := by simpa using hm'.2.1
    have hback : t.length - 1 - (t.length - 1 - m) = m := by omega
    exact hlast (t.length - 1 - m) (by omega) ⟨by omega, by rwa [hback]⟩

/-- A text with a partner for its first parenthesis. -/
theorem exists_of_closing? (h : closing? t = some i) : ∃ x inner after, t = x ++ '(' :: (inner ++ ')' :: after) ∧
    '(' ∉ x ∧ Balanced '(' ')' inner ∧ i = x.length + 1 + inner.length := by
  have hmem : '(' ∈ t := by
    refine Decidable.byContradiction fun hmem => ?_
    exact not_evens_of_notMem hmem ((balance_iff (by decide)).1 h).1
  obtain ⟨x, u, rfl, hx⟩ := List.eq_append_cons_of_mem hmem
  rw [closing?, balance_before hx] at h
  obtain ⟨inner, after, rfl, hi, rfl⟩ := exists_partner (by decide) h
  exact ⟨x, inner, after, rfl, hx, hi, by rw [Nat.zero_add]⟩

/-- Where the partner of the first `(` is the last `)`, it leads back. -/
theorem opening?_of_closing? (h : closing? t = some i) (hlast : ')' ∉ t.drop (i + 1)) :
    opening? t = some (t.idxOf '(') := by
  obtain ⟨x, inner, after, rfl, hx, hi, rfl⟩ := exists_of_closing? h
  have hafter : ')' ∉ after.reverse := by
    have hsplit : x ++ '(' :: (inner ++ ')' :: after) = x ++ '(' :: (inner ++ [')']) ++ after := by simp
    rwa [hsplit, List.drop_left' (by simp; omega), ← List.mem_reverse] at hlast
  have hreverse : (x ++ '(' :: (inner ++ ')' :: after)).reverse =
      after.reverse ++ ')' :: (inner.reverse ++ '(' :: x.reverse) := by simp
  have hbalance := hi.reverse.balance_eq (by decide) 0 (0 + after.reverse.length + 1) ('(' :: x.reverse)
  rw [opening?, hreverse, balance_before hafter, balance_up, hbalance, balance_last (by decide), Option.map_some,
    idxOf_first hx]
  simp only [List.length_append, List.length_cons, List.length_reverse]
  congr 1
  omega

end Backwards

/-- The search from the left stops at the first place where the parentheses even out, or nowhere if there is
none; the search from the right is its mirror image and stops at the last such place; and they meet where the
partner of the first `(` is the last `)`. -/
theorem partners_exact (t : Text) :
    (∀ i, closing? t = some i ↔ Evens '(' ')' t i ∧ ∀ j < i, ¬ Evens '(' ')' t j) ∧
    (closing? t = none ↔ ∀ i, ¬ Evens '(' ')' t i) ∧
    opening? t = (closing? (mirror t)).map (fun p => t.length - 1 - p) ∧
    (∀ i, opening? t = some i ↔ EvensBack t i ∧ ∀ j, i < j → ¬ EvensBack t j) ∧
    ∀ i, closing? t = some i → ')' ∉ t.drop (i + 1) → opening? t = some (t.idxOf '(') :=
  ⟨fun _ => balance_iff (by decide), balance_eq_none_iff (by decide), opening?_eq_mirror t,
    fun _ => opening?_eq_some_iff, fun _ => opening?_of_closing?⟩

/-- A stray `)` before the pair and a stray `(` behind it. -/
theorem partners_exact_sample : closing? "a)(b(c)d)(e" = some 8 ∧ opening? "a)(b(c)d)(e" = some 2 := by
  have hclosing : closing? "a)(b(c)d)(e" = some 8 := by decide
  exact ⟨hclosing, (partners_exact "a)(b(c)d)(e").2.2.2.2 8 hclosing (by decide)⟩

end FixedForm.Text
