import FixedForm.Proofs.Spelling.Label

/-! Powers behind a label.  A base reaches back over a word or a group, and so never into the blanks
before the statement. -/
namespace FixedForm.Power
open Text

theorem cut?_cons (c : Char) (t : Text) : cut? (c :: t) =
    if c = '*' ∧ t.head? = some '*' then some ([], t.tail)
    else (cut? t).map fun (before, after) => (c :: before, after) := by
  split
  · next h =>
    obtain ⟨rfl, h⟩ := h
    cases t with
    | nil => cases h
    | cons d t =>
      obtain rfl : d = '*' := by simpa using h
      rfl
  · next h =>
    rw [cut?]
    rintro u rfl rfl
    exact h ⟨rfl, rfl⟩

theorem cut?_cons_eq_none {c : Char} {t : Text} :
    cut? (c :: t) = none ↔ ¬ (c = '*' ∧ t.head? = some '*') ∧ cut? t = none := by
  rw [cut?_cons]
  split
  · next h => simp [h]
  · next h => simp [h]

theorem cut?_append {p : Text} (hp : '*' ∉ p) (t : Text) :
    cut? (p ++ t) = (cut? t).map fun (before, after) => (p ++ before, after) := by
  induction p with
  | nil =>
    rw [List.nil_append]
    cases cut? t <;> rfl
  | cons c p ih =>
    have hc : c ≠ '*' := fun he => hp (by simp [he])
    have hi := ih fun hm => hp (by simp [hm])
    rw [List.cons_append, cut?, hi]
    · cases cut? t <;> rfl
    · exact fun _ he _ => hc he

theorem balance_eq_none {up down : Char} {t : Text} (ht : down ∉ t) (depth i : Nat) :
    balance up down depth i t = none := by
  induction t generalizing depth i with
  | nil => rfl
  | cons c t ih =>
    have hc : c ≠ down := fun he => ht (by simp [he])
    have hi := ih fun hm => ht (by simp [hm])
    rw [balance.eq_def]
    dsimp only
    split
    · exact hi _ _
    · rw [if_neg (by simpa using hc)]
      exact hi _ _

/-- A balance is found before a text in which nothing closes. -/
theorem lt_of_balance {up down : Char} {t r : Text} (hr : down ∉ r) {depth i j : Nat}
    (h : balance up down depth i (t ++ r) = some j) : j < i + t.length := by
  induction t generalizing depth i with
  | nil => simp [balance_eq_none hr] at h
  | cons c t ih =>
    rw [List.length_cons]
    rw [List.cons_append, balance.eq_def] at h
    dsimp only at h
    split at h
    · have := ih h
      omega
    · split at h
      · split at h
        · have := ih h
          omega
        · cases h
          omega
        · have := ih h
          omega
      · have := ih h
        omega

theorem le_opening? {p t : Text} (hp : '(' ∉ p) {i : Nat} (h : (p ++ t).opening? = some i) :
    p.length ≤ i := by
  obtain ⟨j, hj, rfl⟩ := Option.map_eq_some_iff.1 h
  rw [List.reverse_append] at hj
  have hlt := lt_of_balance (by simpa using hp) hj
  simp only [List.length_reverse, List.length_append] at hlt ⊢
  omega

/-- A text that ends outside a class stays in front of the longest stretch of that class. -/
theorem spanEnd_append_of_last {q : Char → Bool} {p : Text} {b : Char} (hb : q b = false)
    (t : Text) : (spanEnd q (p ++ [b] ++ t)).1 = p ++ [b] ++ (spanEnd q t).1 := by
  have hd : (p ++ [b]).reverse.dropWhile q = (p ++ [b]).reverse := by simp [hb]
  rw [spanEnd, List.reverse_append, List.dropWhile_append]
  split
  · next he =>
    have hn : t.reverse.dropWhile q = [] := by simpa using he
    rw [hd, spanEnd, hn]
    simp
  · simp [spanEnd]

theorem spanEnd_lead (q : Char → Bool) (t : Text) : (spanEnd q t).1 <+: t :=
  ⟨(spanEnd q t).2, spanEnd_append q t⟩

theorem eq_of_replace? {t r : Text} (ht : '*' ∉ t) (h : replace? t = some r) : t = r := by
  have hcut : cut? t = none := by
    have := cut?_append ht []
    rwa [List.append_nil] at this
  rw [replace?] at h
  split at h
  · exact Option.some.inj h
  · next hc => rw [hcut] at hc; cases hc

/-- The base of a power starts behind a lead that holds no parenthesis and ends with a blank. -/
theorem base?_lead {p w before base : Text} {b : Char} (hp : '(' ∉ p ++ [b]) (hb : isBlank b = true)
    (hw : w.allBlank = false) (h : base? (p ++ [b] ++ w) = some (before, base)) :
    ∃ w', before = p ++ [b] ++ w' ∧ w' <+: w := by
  have hoperand : isOperand b = false := by
    have hpoint : b ≠ '.' := by
      rintro rfl
      exact absurd hb (by decide)
    simp [isOperand, not_word_of_blank hb, hpoint]
  have hlead := trimEnd_lead w
  simp only [base?, trimEnd_append hw] at h
  split at h
  · obtain ⟨i, hi, h⟩ := Option.bind_eq_some_iff.1 h
    have hle := le_opening? hp hi
    have htake : (p ++ [b] ++ w.trimEnd).take i =
        p ++ [b] ++ w.trimEnd.take (i - (p ++ [b]).length) := by
      rw [List.take_append, List.take_of_length_le hle]
    cases h
    refine ⟨_, by rw [htake, spanEnd_append_of_last hoperand], ?_⟩
    exact (spanEnd_lead _ _).trans ((List.take_prefix _ _).trans hlead)
  · split at h
    · cases h
    · cases h
      exact ⟨_, spanEnd_append_of_last hoperand _, (spanEnd_lead _ _).trans hlead⟩

/-- The statement behind a label does not start with a power. -/
def StartsPlain (w : Text) : Prop := StartsOutside isBlank w ∧ startsWith "**" w = false

theorem startsWith_stars (c d : Char) (t : Text) :
    startsWith "**" (c :: d :: t) = (c == '*' && d == '*') := by
  by_cases hc : c = '*' <;> by_cases hd : d = '*' <;> simp [startsWith, after?, hc, hd]

/-- A call in the place of what follows some start. -/
theorem StartsPlain.power {w w' : Text} (hw : StartsPlain w) (h : w' <+: w) (t : Text) :
    StartsPlain (w' ++ ("pow(" ++ t)) := by
  cases w' with
  | nil => exact ⟨.cons (by decide), rfl⟩
  | cons c w' =>
    refine ⟨.cons ?_, ?_⟩
    · obtain ⟨r, rfl⟩ := h
      exact hw.1 c rfl
    · cases w' with
      | nil =>
        change startsWith "**" (c :: 'p' :: ("ow(" ++ t)) = false
        rw [startsWith_stars]
        simp
      | cons d w' =>
        obtain ⟨r, rfl⟩ := h
        have h₂ := hw.2
        rw [List.cons_append, List.cons_append, startsWith_stars] at h₂
        rw [List.cons_append, List.cons_append, startsWith_stars]
        exact h₂

theorem replace?_lead {p : Text} {b : Char} (hp : ∀ c ∈ p ++ [b], InField c) (hb : isBlank b = true)
    {t r : Text} (ht : ∃ w, t = p ++ [b] ++ w ∧ StartsPlain w) (h : replace? t = some r) :
    ∃ w, r = p ++ [b] ++ w := by
  have hfree {c : Char} (hc : ¬ InField c) : c ∉ p ++ [b] := fun hm => hc (hp c hm)
  have hstar : '*' ∉ p ++ [b] := hfree (by simp [InField, isBlank, Char.isDigit])
  have hparen : '(' ∉ p ++ [b] := hfree (by simp [InField, isBlank, Char.isDigit])
  fun_induction replace? t with
  | case1 t _ =>
    obtain ⟨w, rfl, -⟩ := ht
    exact ⟨w, (Option.some.inj h).symm⟩
  | case2 => cases h
  | case3 t before after hcut next hstep ih =>
    refine ih ?_ h
    obtain ⟨w, rfl, hw⟩ := ht
    rw [cut?_append hstar] at hcut
    obtain ⟨⟨w₀, after'⟩, hcut', heq⟩ := Option.map_eq_some_iff.1 hcut
    cases heq
    have hw₀ := eq_of_cut? hcut'
    have hblank : w₀.allBlank = false := by
      cases w₀ with
      | nil =>
        rw [hw₀] at hw
        exact absurd hw.2 (by simp [startsWith, after?])
      | cons c w₀ => simp [allBlank, hw.1 c (by rw [hw₀]; rfl)]
    simp only [step?, Option.bind_eq_bind, Option.bind_eq_some_iff] at hstep
    obtain ⟨⟨before, base⟩, hbase, ⟨exponent, rest⟩, -, hnext⟩ := hstep
    obtain ⟨w', rfl, hlead⟩ := base?_lead hparen hb hblank hbase
    refine ⟨w' ++ ("pow(" ++ (base ++ ", " ++ exponent ++ ")" ++ rest)), ?_, ?_⟩
    · rw [← Option.some.inj hnext]
      simp only [List.append_assoc]
    · exact hw.power (hlead.trans ⟨_, hw₀.symm⟩) _

end FixedForm.Power

namespace FixedForm.Spelling
open Text

/-- The first characters of a text stay when blanks at its end go. -/
theorem startsWith_trimEnd {lead t : Text} (hl : ∀ c ∈ lead, isBlank c = false)
    (h : startsWith lead t = true) : startsWith lead t.trimEnd = true := by
  obtain ⟨u, hu⟩ := Option.isSome_iff_exists.1 h
  rw [eq_of_after? hu]
  cases hb : u.allBlank with
  | true =>
    have hself := startsWith_append lead []
    rw [trimEnd_blanks hb, trimEnd_of_solid hl]
    rwa [List.append_nil] at hself
  | false =>
    rw [trimEnd_append hb]
    exact startsWith_append lead _

/-- Powers keep a label that no power starts right behind. -/
theorem label_replace? {t blanks digits rest r : Text} (h : HasLabel t blanks digits rest)
    (hs : startsWith "**" (statementOf t) = false) (hr : Power.replace? t = some r) :
    (Labelled.split r).label = some digits := by
  rcases List.eq_nil_or_concat (rest.takeWhile isBlank) with hnil | ⟨g, b, hg⟩
  · have hrest : rest = [] := by
      cases rest with
      | nil => rfl
      | cons c u => simp [h.head_field rfl] at hnil
    have hstar : '*' ∉ t := fun hm => by
      rw [h.text_eq, hrest, List.append_nil] at hm
      exact absurd (h.mem_field _ hm) (by simp [InField, isBlank, Char.isDigit])
    rw [← Power.eq_of_replace? hstar hr, h.split_eq]
  · have hblank : ∀ c ∈ g ++ [b], isBlank c = true := by
      rw [← List.concat_eq_append, ← hg]
      exact List.all_eq_true.1 List.all_takeWhile
    have hrest : rest = g ++ [b] ++ rest.trimStart := by
      rw [← List.concat_eq_append, ← hg, trimStart, List.takeWhile_append_dropWhile]
    have hplain : Power.StartsPlain rest.trimStart := by
      refine ⟨outside_trimStart, ?_⟩
      rw [statementOf, h.split_eq] at hs
      cases hw : startsWith "**" rest.trimStart with
      | false => rfl
      | true => exact absurd (startsWith_trimEnd (by simp [isBlank]) hw) (by rw [← trim, hs]; decide)
    have hfield : ∀ c ∈ blanks ++ digits ++ g ++ [b], InField c := by
      intro c hc
      rw [List.append_assoc] at hc
      rcases List.mem_append.1 hc with hc | hc
      · exact h.mem_field c hc
      · exact .inl (hblank c hc)
    have htext : t = blanks ++ digits ++ g ++ [b] ++ rest.trimStart :=
      calc
        t = blanks ++ (digits ++ (g ++ [b] ++ rest.trimStart)) := by rw [← hrest, ← h.text_eq]
        _ = blanks ++ digits ++ g ++ [b] ++ rest.trimStart := by simp
    obtain ⟨w, hw⟩ :=
      Power.replace?_lead hfield (hblank b (by simp)) ⟨rest.trimStart, htext, hplain⟩ hr
    have hl : HasLabel (blanks ++ (digits ++ (g ++ [b] ++ w))) blanks digits (g ++ [b] ++ w) := by
      refine h.of_head ?_
      rw [hrest]
      cases g <;> rfl
    rw [hw, show blanks ++ digits ++ g ++ [b] ++ w = blanks ++ (digits ++ (g ++ [b] ++ w)) by simp,
      hl.split_eq]

/-- The label of a statement in its new spelling. -/
theorem label_normalize {t k : Text} (h : (Labelled.split t).label = some k)
    (hs : startsWith "**" (statementOf (beforePowers t)) = false) :
    (Labelled.split (normalize t).1).label = some k := by
  rcases split_cases t with ⟨blanks, digits, rest, hl⟩ | hn
  · rw [hl.split_eq] at h
    obtain rfl := Option.some.inj h
    obtain ⟨rest', he, hr⟩ := keepsField_beforePowers hl
    have hl' : HasLabel (beforePowers t) blanks digits rest' := by
      rw [he]
      exact hl.of_head hr
    simp only [normalize]
    split
    · next hp => exact label_replace? hl' hs hp
    · rw [hl'.split_eq]
  · rw [hn] at h
    cases h

end FixedForm.Spelling
