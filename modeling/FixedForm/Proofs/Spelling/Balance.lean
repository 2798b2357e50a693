import FixedForm.Proofs.Spelling.Literal
import FixedForm.Proofs.Spelling.Operand

/-! Parentheses and rounds of the rewriting of powers.  A round takes a balanced part out of the middle of a text and
puts a balanced one in its place, and it takes away two stars, so the rounds come to an end and the parentheses
around the powers stay as they were. -/
namespace FixedForm.Power
open Text

/-! ### One round -/

/-- One round: the first power of `t` is rewritten, which gives `u`. -/
def Round (t u : Text) : Prop := ∃ before after, cut? t = some (before, after) ∧ step? before after = some u

section Round
variable {t u : Text}

/-- What a round does: a balanced part gives way to another, and two stars go. -/
theorem Round.frame (h : Round t u) : ∃ lead old new rest, t = lead ++ (old ++ rest) ∧ u = lead ++ (new ++ rest) ∧
    Balanced '(' ')' old ∧ Balanced '(' ')' new := by
  obtain ⟨before, after, hcut, hstep⟩ := h
  simp only [step?, Option.bind_eq_bind, Option.bind_eq_some_iff] at hstep
  obtain ⟨⟨lead, base⟩, hbase, ⟨exponent, rest⟩, hexp, hu⟩ := hstep
  obtain ⟨w, g, rfl, hg, hw⟩ := base?_operand hbase
  obtain ⟨g', s, w', x, rfl, hg', hs, rfl, hw'⟩ := exponent?_operand hexp
  obtain ⟨hleft, hb⟩ := hw.balanced
  obtain ⟨hright, he⟩ := hw'.balanced
  have flat {w : Text} (hw : (w.all fun c => c != '(' && c != ')') = true) : Balanced '(' ')' w :=
    .of_forall fun c hc => by simpa using List.all_eq_true.1 hw c hc
  have hblank {g : Text} (hg : g.allBlank = true) : Balanced '(' ')' g := .of_forall (flat_of_blank hg)
  have hsign : Balanced '(' ')' s := .of_forall fun c hc => by rcases hs c hc with rfl | rfl <;> decide
  have hold : Balanced '(' ')' (w ++ g ++ ("**" ++ (g' ++ (s ++ w')))) :=
    (hleft.append (hblank hg)).append ((flat rfl).append ((hblank hg').append (hsign.append hright)))
  have hargs : Balanced '(' ')' (base ++ (", " ++ (s ++ x))) := hb.append ((flat rfl).append (hsign.append he))
  have hnew : Balanced '(' ')' ("pow" ++ '(' :: (base ++ (", " ++ (s ++ x)) ++ [')'])) :=
    (flat rfl).append hargs.parens
  refine ⟨lead, _, _, rest, ?_, ?_, hold, hnew⟩
  · rw [eq_of_cut? hcut]
    simp
  · rw [← Option.some.inj hu]
    simp

theorem Round.count_star (h : Round t u) : u.count '*' + 2 ≤ t.count '*' := by
  obtain ⟨before, after, hcut, hstep⟩ := h
  have hle := count_step? (c := '*') (by decide) hstep
  have heq := congrArg (List.count '*') (eq_of_cut? hcut)
  rw [List.count_append, List.count_cons_self, List.count_cons_self] at heq
  omega

theorem Round.depth?_eq (h : Round t u) (n : Nat) : depth? n u = depth? n t := by
  obtain ⟨lead, old, new, rest, rfl, rfl, hold, hnew⟩ := h.frame
  have hmid {part : Text} (hpart : Balanced '(' ')' part) :
      depth? n (lead ++ (part ++ rest)) = depth? n (lead ++ rest) := by
    rw [← List.append_assoc, depth?_append, hpart.depth?_behind, ← depth?_append]
  rw [hmid hold, hmid hnew]

theorem Round.excess (h : Round t u) : u.count '(' + t.count ')' = t.count '(' + u.count ')' := by
  obtain ⟨lead, old, new, rest, rfl, rfl, hold, hnew⟩ := h.frame
  have ho := hold.count_eq
  have hn := hnew.count_eq
  simp only [List.count_append]
  omega

end Round

/-! ### All rounds -/

/-- `n` rounds, one after the other. -/
inductive Rounds : Nat → Text → Text → Prop where
  | zero (t : Text) : Rounds 0 t t
  | succ {n : Nat} {t u v : Text} (hround : Round t u) (hrest : Rounds n u v) : Rounds (n + 1) t v

section Rounds
variable {n : Nat} {t u : Text}

theorem Rounds.count_star (h : Rounds n t u) : u.count '*' + 2 * n ≤ t.count '*' := by
  induction h with
  | zero t => exact Nat.le_refl _
  | succ hround _ ih =>
    have hstep := hround.count_star
    omega

theorem Rounds.depth?_eq (h : Rounds n t u) (d : Nat) : depth? d u = depth? d t := by
  induction h with
  | zero t => rfl
  | succ hround _ ih => rw [ih, hround.depth?_eq]

theorem Rounds.balanced_iff (h : Rounds n t u) : Balanced '(' ')' u ↔ Balanced '(' ')' t := by
  rw [balanced_iff_depth?, balanced_iff_depth?, h.depth?_eq]

theorem Rounds.excess (h : Rounds n t u) : u.count '(' + t.count ')' = t.count '(' + u.count ')' := by
  induction h with
  | zero t => rfl
  | succ hround _ ih =>
    have hstep := hround.excess
    omega

/-- The text where the rounds end: it has no power, or one of which an operand has no clear end. -/
theorem exists_rounds (t : Text) : ∃ n u, Rounds n t u ∧
    (replace? t = some u ∧ cut? u = none ∨
      replace? t = none ∧ ∃ before after, cut? u = some (before, after) ∧ step? before after = none) := by
  fun_induction replace? t with
  | case1 t hcut => exact ⟨0, t, .zero t, .inl ⟨rfl, hcut⟩⟩
  | case2 t before after hcut hstep => exact ⟨0, t, .zero t, .inr ⟨rfl, before, after, hcut, hstep⟩⟩
  | case3 t before after hcut next hstep ih =>
    obtain ⟨n, u, hrounds, hend⟩ := ih
    exact ⟨n + 1, u, .succ ⟨before, after, hcut, hstep⟩ hrounds, hend⟩

end Rounds

theorem cut?_eq_none_iff {t : Text} : cut? t = none ↔ ¬ "**".toList <:+: t := by
  constructor
  · rintro hcut hstars
    cases cut?_infix hstars hcut
  · intro hstars
    cases hcut : cut? t with
    | none => rfl
    | some p => exact absurd ⟨p.1, p.2, by rw [eq_of_cut? hcut]; simp⟩ hstars

/-- The rewriting of powers comes to an end: a text with `k` stars has at most `k / 2` rounds, and it is given up
only where an operand has no clear end.  A text that it returns has no power, as many more opening than closing
parentheses as the line, and properly nested ones if those of the line are. -/
theorem replace?_ends_clean (t : Text) :
    (∀ n u, Rounds n t u → 2 * n ≤ t.count '*') ∧
    (∃ n u, Rounds n t u ∧ (replace? t = some u ∨
      replace? t = none ∧ ∃ before after, cut? u = some (before, after) ∧ step? before after = none)) ∧
    ∀ r, replace? t = some r → ¬ "**".toList <:+: r ∧
      (r.count '(' : Int) - r.count ')' = t.count '(' - t.count ')' ∧
      (Balanced '(' ')' t → Balanced '(' ')' r) := by
  obtain ⟨n, u, hrounds, hend⟩ := exists_rounds t
  refine ⟨fun m v h => ?_, ⟨n, u, hrounds, hend.imp_left And.left⟩, fun r hr => ?_⟩
  · have hcount := h.count_star
    omega
  · obtain ⟨hu, hcut⟩ | ⟨hnone, -⟩ := hend
    · obtain rfl := Option.some.inj (hr.symm.trans hu)
      have hexcess := hrounds.excess
      exact ⟨cut?_eq_none_iff.1 hcut, by omega, hrounds.balanced_iff.2⟩
    · cases hr.symm.trans hnone

/-- A power inside the call that is the base of another one, whose exponent is a group with a sign. -/
def sampleRounds : Text := "f(a**2)**-(n+1)"

theorem replace?_ends_clean_sample : Rounds 2 sampleRounds "pow(f(pow(a, 2)), -n+1)" ∧
    replace? sampleRounds = some "pow(f(pow(a, 2)), -n+1)".toList ∧ Balanced '(' ')' sampleRounds ∧
    Balanced '(' ')' "pow(f(pow(a, 2)), -n+1)" ∧ 2 * 2 ≤ sampleRounds.count '*' := by
  have hcut₁ : cut? sampleRounds = some ("f(a".toList, "2)**-(n+1)".toList) := by decide
  have hstep₁ : step? "f(a" "2)**-(n+1)" = some "f(pow(a, 2))**-(n+1)".toList := by decide
  have hcut₂ : cut? "f(pow(a, 2))**-(n+1)" = some ("f(pow(a, 2))".toList, "-(n+1)".toList) := by decide
  have hstep₂ : step? "f(pow(a, 2))" "-(n+1)" = some "pow(f(pow(a, 2)), -n+1)".toList := by decide
  have hrounds : Rounds 2 sampleRounds "pow(f(pow(a, 2)), -n+1)" :=
    .succ ⟨_, _, hcut₁, hstep₁⟩ (.succ ⟨_, _, hcut₂, hstep₂⟩ (.zero _))
  have hresult : replace? sampleRounds = some "pow(f(pow(a, 2)), -n+1)".toList := by
    rw [replace?_step hcut₁ hstep₁, replace?_step hcut₂ hstep₂, replace?_of_cut? (by decide)]
  have hline : Balanced '(' ')' sampleRounds := by decide
  obtain ⟨hbound, -, hends⟩ := replace?_ends_clean sampleRounds
  exact ⟨hrounds, hresult, hline, (hends _ hresult).2.2 hline, hbound 2 _ hrounds⟩

end FixedForm.Power
