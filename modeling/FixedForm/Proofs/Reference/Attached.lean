import FixedForm.Proofs.Count
import FixedForm.Proofs.Reference.Rule
import FixedForm.Proofs.Text.Parens

/-! Parentheses right behind a name or a subscript.  They belong to a call or to a reference, and no rule
of the simplifier takes them away: after any number of replacements each is there, behind the same name
and with the same partner. -/
namespace FixedForm.Simplify
open Text

/-- The parentheses at the places `i` and `j` are partners.  They stand right behind the word `w`, which
stands behind `before`; where there is no word they stand right behind a subscript. -/
structure Attached (t : Text) (i j : Nat) (before w : Text) : Prop where
  parts : ∃ inner rest : Text, t = before ++ (w ++ '(' :: (inner ++ ')' :: rest)) ∧ Balanced '(' ')' inner ∧
    i = before.length + w.length ∧ j = i + inner.length + 1
  word : ∀ c ∈ w, isWord c = true
  subscript : w = [] → before.getLast? = some ']'

/-! ### What a replacement leaves -/

/-- What a rule does to the parentheses of a match `o a c`: it puts a balanced text in its place, or one
between the same two marks. -/
structure Shape (before : Text) (o c : Char) (a new : Text) : Prop where
  opener : o = '[' ∨ o = '('
  closer : c = ']' ∨ c = ')'
  balanced : Balanced '(' ')' a
  /-- Between the marks no parenthesis is attached. -/
  head : ∀ x y, a = x ++ '(' :: y → x = []
  result : (isGroup before = true ∧ o = '(' ∧ c = ')' ∧ Balanced '(' ')' new) ∨
    ∃ b : Text, new = o :: (b ++ [c]) ∧ Balanced '(' ')' b

theorem flat_of_marks {t : Text} (h : ∀ c ∈ t, isOperand c = true ∨ c = '+' ∨ c = '-') :
    ∀ c ∈ t, c ≠ '(' ∧ c ≠ ')' := by
  intro c hc
  constructor <;> rintro rfl <;> exact absurd (h _ hc) (by decide)

/-- A sum or a difference of two words. -/
theorem flat_sum {a b : Text} {op : Char} (hop : op = '+' ∨ op = '-') (ha : a.isDigits = true)
    (hb : b.isDigits = true) : ∀ c ∈ a ++ op :: b, c ≠ '(' ∧ c ≠ ')' := by
  have hdigit {d : Text} (hd : d.isDigits = true) : ∀ c ∈ d, c ≠ '(' ∧ c ≠ ')' :=
    flat_of_word fun c hc => word_of_digit ((mem_of_isDigits hd).2 c hc)
  refine List.forall_mem_append.2 ⟨hdigit ha, List.forall_mem_cons.2 ⟨?_, hdigit hb⟩⟩
  rcases hop with rfl | rfl <;> decide

theorem head_of_single {u : Text} (hu : '(' ∉ u) : ∀ x y, '(' :: u = x ++ '(' :: y → x = [] := by
  intro x y h
  cases x with
  | nil => rfl
  | cons c x =>
    obtain ⟨-, rfl⟩ := List.cons.inj h
    simp at hu

/-- A group of parentheses that is not attached. -/
theorem Shape.group {before a new : Text} (hgroup : isGroup before = true) (ha : ∀ c ∈ a, c ≠ '(' ∧ c ≠ ')')
    (hnew : Balanced '(' ')' new) : Shape before '(' ')' a new :=
  ⟨.inr rfl, .inr rfl, .of_forall ha, fun _ _ h => absurd rfl (ha '(' (by simp [h])).1,
    .inl ⟨hgroup, rfl, rfl, hnew⟩⟩

theorem Rewrite.shape {before old new : Text} (h : Rewrite before old new) :
    ∃ o c a, old = o :: (a ++ [c]) ∧ Shape before o c a new := by
  cases h with
  | @word g w g' hgroup hg hg' hne hw =>
    refine ⟨'(', ')', g ++ (new ++ g'), by simp, .group hgroup ?_ (.of_forall (flat_of_word hw))⟩
    exact List.forall_mem_append.2 ⟨flat_of_blank hg,
      List.forall_mem_append.2 ⟨flat_of_word hw, flat_of_blank hg'⟩⟩
  | @groupSum a b op hgroup hop ha hb =>
    have hrender := Balanced.of_forall (flat_of_marks (Count.render_marks (combine op a b)))
    refine ⟨'(', ')', a ++ op :: b, by simp, .group hgroup (flat_sum hop ha hb) ?_⟩
    split
    · exact .pair hrender .nil
    · exact hrender
  | @indexSum a b op hop ha hb =>
    have hflat := flat_sum hop ha hb
    exact ⟨'[', ']', a ++ op :: b, by simp, .inl rfl, .inl rfl, .of_forall hflat,
      fun _ _ h => absurd rfl (hflat '(' (by simp [h])).1,
      .inr ⟨(combine op a b).render, rfl, .of_forall (flat_of_marks (Count.render_marks _))⟩⟩
  | @undo o op op' c x ho hc hop hne hx =>
    have hsign : (op ≠ '(' ∧ op ≠ ')') ∧ op' ≠ '(' ∧ op' ≠ ')' := by
      rcases hop with ⟨rfl, rfl⟩ | ⟨rfl, rfl⟩ <;> decide
    have hold : Balanced '(' ')' ('(' :: ((x ++ [op, '1']) ++ ')' :: [op', '1'])) := by
      refine .pair (.of_forall ?_) (.of_forall ?_)
      · simpa [or_imp, forall_and, hsign] using hx
      · simp [hsign]
    refine ⟨o, c, _, ?_, ho, hc, hold, head_of_single ?_, .inr ⟨x, by simp, .of_forall hx⟩⟩
    · simp
    · simpa [hsign.1.1.symm, hsign.2.1.symm] using fun h => (hx _ h).1 rfl
  | @collect op x a b hop hne hx ha hb =>
    have hop' : op ≠ '(' ∧ op ≠ ')' := by rcases hop with rfl | rfl <;> decide
    have hfirst : ∀ c ∈ x ++ op :: a, c ≠ '(' ∧ c ≠ ')' :=
      List.forall_mem_append.2 ⟨hx, List.forall_mem_cons.2 ⟨hop', flat_of_word ha.2⟩⟩
    have hlast : ∀ c ∈ op :: b, c ≠ '(' ∧ c ≠ ')' := List.forall_mem_cons.2 ⟨hop', flat_of_word hb.2⟩
    have hone {u : Text} (hu : ∀ c ∈ u, isWord c = true) : Balanced '(' ')' ('(' :: (u ++ [')'])) :=
      .pair (.of_forall (flat_of_word hu)) .nil
    have hsum : Balanced '(' ')' (('(' :: (a ++ [')'])) ++ '+' :: '(' :: (b ++ [')'])) :=
      (hone ha.2).append (.cons (by decide) (by decide) (hone hb.2))
    refine ⟨'(', ')', _, ?_, .inr rfl, .inr rfl, .pair (.of_forall hfirst) (.of_forall hlast), head_of_single ?_,
      .inr ⟨_, ?_, .pair (.of_forall hx) (.cons hop'.1 hop'.2 (.pair hsum .nil))⟩⟩
    · simp
    · exact fun h => (List.mem_append.1 h).elim (fun h => (hfirst _ h).1 rfl)
        fun h => (List.mem_cons.1 h).elim (by decide) fun h => (hlast _ h).1 rfl
    · simp

section Shape
variable {before a new : Text} {o c : Char} (h : Shape before o c a new)
include h

theorem Shape.depth?_eq (n : Nat) : depth? n new = depth? n (o :: (a ++ [c])) := by
  have hmid {b : Text} (hb : Balanced '(' ')' b) : depth? n (o :: (b ++ [c])) = depth? n [o, c] := by
    have hsplit := depth?_append n (o :: b) [c]
    rw [← List.singleton_append, hb.depth?_behind, ← depth?_append] at hsplit
    exact hsplit
  rw [hmid h.balanced]
  rcases h.result with ⟨-, rfl, rfl, hnew⟩ | ⟨b, rfl, hb⟩
  · rw [hnew.depth?_eq]
    rfl
  · exact hmid hb

theorem Shape.getLast?_eq :
    new.getLast? = (o :: (a ++ [c])).getLast? ∨ (o :: (a ++ [c])).getLast? = some ')' := by
  have hlast (b : Text) : (o :: (b ++ [c])).getLast? = some c := List.getLast?_concat (l := o :: b)
  rcases h.result with ⟨-, -, rfl, -⟩ | ⟨b, rfl, -⟩
  · exact .inr (hlast a)
  · exact .inl ((hlast b).trans (hlast a).symm)

theorem Shape.not_word : isWord o = false ∧ o ≠ ')' := by
  rcases h.opener with rfl | rfl <;> decide

end Shape

/-! ### Where a match can lie -/

/-- A character of two texts in a row is in the first or in the second. -/
theorem mem_parts {xs ys lead v : Text} {o : Char} (h : xs ++ ys = lead ++ o :: v) :
    (∃ x, xs = lead ++ o :: x ∧ v = x ++ ys) ∨ ∃ x, lead = xs ++ x ∧ ys = x ++ o :: v := by
  rcases List.append_eq_append_iff.1 h with ⟨x, hx, hy⟩ | ⟨x, hx, hy⟩
  · exact .inr ⟨x, hx, hy⟩
  · cases x with
    | nil => exact .inr ⟨[], by simpa using hx.symm, hy.symm⟩
    | cons c x =>
      obtain ⟨rfl, hv⟩ := List.cons.inj hy
      exact .inl ⟨x, hx, hv⟩

section Place
variable {lead before w inner rest v q a : Text} {o c : Char}

/-- Where a character stands in a text with an attached pair, when it is neither part of the word nor
the parenthesis that closes. -/
theorem locate (ho : isWord o = false) (hclose : o ≠ ')') (hw : ∀ c ∈ w, isWord c = true)
    (h : before ++ (w ++ '(' :: (inner ++ ')' :: rest)) = lead ++ o :: v) :
    (∃ x, before = lead ++ o :: x ∧ v = x ++ (w ++ '(' :: (inner ++ ')' :: rest))) ∨
      (lead = before ++ w ∧ o = '(' ∧ v = inner ++ ')' :: rest) ∨
      (∃ x y, lead = before ++ (w ++ '(' :: x) ∧ inner = x ++ o :: y ∧ v = y ++ ')' :: rest) ∨
      ∃ x, lead = before ++ (w ++ '(' :: (inner ++ ')' :: x)) ∧ rest = x ++ o :: v := by
  obtain hbefore | ⟨x, rfl, hx⟩ := mem_parts h
  · exact .inl hbefore
  refine .inr ?_
  obtain ⟨y, rfl, -⟩ | ⟨y, rfl, hy⟩ := mem_parts hx
  · have hword := hw o (by simp)
    rw [ho] at hword
    cases hword
  cases y with
  | nil =>
    obtain ⟨rfl, hv⟩ := List.cons.inj hy
    exact .inl ⟨by simp, rfl, hv.symm⟩
  | cons d y =>
    obtain ⟨rfl, hinner⟩ := List.cons.inj hy
    refine .inr ?_
    obtain ⟨z, rfl, hv⟩ | ⟨z, rfl, hz⟩ := mem_parts hinner
    · exact .inl ⟨y, z, rfl, rfl, hv⟩
    cases z with
    | nil => exact absurd (List.cons.inj hz).1.symm hclose
    | cons e z =>
      obtain ⟨rfl, hrest⟩ := List.cons.inj hz
      exact .inr ⟨z, rfl, hrest⟩

/-- A match that starts before an attached pair and its word ends before them. -/
theorem Shape.ends_before {new : Text} (hs : Shape lead.reverse o c a new) (hw : ∀ c ∈ w, isWord c = true)
    (hsub : w = [] → before.getLast? = some ']') {x : Text} (hbefore : before = lead ++ o :: x)
    (h : x ++ (w ++ '(' :: v) = a ++ c :: q) : ∃ y, x = a ++ c :: y ∧ q = y ++ (w ++ '(' :: v) := by
  refine (mem_parts h).resolve_right ?_
  rintro ⟨y, rfl, hy⟩
  obtain ⟨z, rfl, -⟩ | ⟨z, rfl, hz⟩ := mem_parts hy
  · have hword := hw c (by simp)
    rcases hs.closer with rfl | rfl <;> exact absurd hword (by decide)
  cases z with
  | nil =>
    obtain ⟨rfl, -⟩ := List.cons.inj hz
    rcases hs.closer with hc | hc <;> cases hc
  | cons d z =>
    -- the parenthesis would be the first character behind `o`
    obtain ⟨rfl, -⟩ := List.cons.inj hz
    obtain ⟨rfl, rfl⟩ := List.append_eq_nil_iff.1 (hs.head (x ++ w) z (by simp))
    have hlast := hsub rfl
    rw [hbefore, List.getLast?_concat] at hlast
    rcases hs.opener with rfl | rfl <;> cases hlast

/-- A match that starts between attached partners ends there, or with the parenthesis that closes. -/
theorem ends_between (ha : Balanced '(' ')' a) {x y : Text} (hi : Balanced '(' ')' (x ++ o :: y))
    (h : y ++ ')' :: rest = a ++ c :: q) :
    (∃ z, y = a ++ c :: z ∧ q = z ++ ')' :: rest) ∨ (y = a ∧ c = ')' ∧ q = rest) := by
  refine (mem_parts h).imp_right ?_
  rintro ⟨z, rfl, hz⟩
  cases z with
  | nil =>
    obtain ⟨rfl, rfl⟩ := List.cons.inj hz
    exact ⟨by simp, rfl, rfl⟩
  | cons d z =>
    -- a parenthesis in the match would close the pair, but its partner is in the match
    obtain ⟨rfl, -⟩ := List.cons.inj hz
    exfalso
    have hd := ha.depth?_eq 0
    rw [depth?_append] at hd
    obtain ⟨k, hk, hd⟩ := Option.bind_eq_some_iff.1 hd
    cases k with
    | zero =>
      rw [depth?_stray] at hd
      cases hd
    | succ k =>
      have hi := hi.depth?_eq 0
      rw [List.append_cons, depth?_append] at hi
      obtain ⟨m, -, hi⟩ := Option.bind_eq_some_iff.1 hi
      have hm := depth?_add hk m
      rw [Nat.zero_add, hi] at hm
      have hsum := Option.some.inj hm
      omega

end Place

/-! ### One replacement -/

/-- The place of the character at place `k`, when `m'` characters come for the `m` from place `n` on.
The first of them keeps its place. -/
def shift (n m m' k : Nat) : Nat := if k ≤ n then k else k + m' - m

/-- A place outside of what is replaced, or at one of its ends where these stay. -/
def Stays (n m m' k : Nat) : Prop := k < n ∨ n + m ≤ k ∨ (2 ≤ m' ∧ (k = n ∨ k + 1 = n + m))

theorem shift_lt {n m m' k k' : Nat} (hm : 2 ≤ m) (h : Stays n m m' k) (h' : Stays n m m' k') (hk : k < k') :
    shift n m m' k < shift n m m' k' := by
  simp only [Stays] at h h'
  simp only [shift]
  split <;> split <;> omega

section Replace
variable {lead old new q before w : Text} {i j : Nat}

/-- An attached pair of the text with `old` is one of the text with `new`. -/
def Survives (lead old new q : Text) (i j : Nat) (before w : Text) : Prop :=
  Stays lead.length old.length new.length i ∧ Stays lead.length old.length new.length j ∧
    ∃ before', Attached (lead ++ (new ++ q)) (shift lead.length old.length new.length i)
        (shift lead.length old.length new.length j) before' w ∧
      (before'.getLast? = before.getLast? ∨ before.getLast? = some ')')

section Parts
variable {inner rest x y : Text} (hi : Balanced '(' ')' inner) (hw : ∀ c ∈ w, isWord c = true)
  (hsub : w = [] → before.getLast? = some ']')
  (hip : i = before.length + w.length) (hjp : j = i + inner.length + 1)
include hi hw hsub hip hjp

theorem survives_before (hold : 0 < old.length) (hlast : new.getLast? = old.getLast? ∨ old.getLast? = some ')')
    (hbefore : before = lead ++ (old ++ x)) (hq : q = x ++ (w ++ '(' :: (inner ++ ')' :: rest))) :
    Survives lead old new q i j before w := by
  have hlen : before.length = lead.length + (old.length + x.length) := by simp [hbefore]
  have hends : (lead ++ (new ++ x)).getLast? = before.getLast? ∨ before.getLast? = some ')' := by
    rw [hbefore, List.getLast?_append, List.getLast?_append, List.getLast?_append, List.getLast?_append]
    cases x.getLast? with
    | some c => exact .inl rfl
    | none =>
      rcases hlast with h | h
      · exact .inl (by rw [h])
      · exact .inr (by rw [h]; rfl)
  refine ⟨.inr (.inl (by omega)), .inr (.inl (by omega)), lead ++ (new ++ x), ⟨⟨inner, rest, ?_, hi, ?_, ?_⟩, hw, ?_⟩,
    hends⟩
  · simp [hq]
  · simp only [shift, List.length_append]
    split <;> omega
  · simp only [shift]
    split <;> split <;> omega
  · intro hnil
    rcases hends with h | h
    · rw [h, hsub hnil]
    · rw [hsub hnil] at h
      cases h

theorem survives_between (hold : 0 < old.length) (hdepth : ∀ n, depth? n new = depth? n old)
    (hlead : lead = before ++ (w ++ '(' :: x)) (hinner : inner = x ++ (old ++ y)) (hq : q = y ++ ')' :: rest) :
    Survives lead old new q i j before w := by
  have hlen : lead.length = before.length + (w.length + (x.length + 1)) := by simp [hlead]
  have hlen' : inner.length = x.length + (old.length + y.length) := by simp [hinner]
  have hnew : Balanced '(' ')' (x ++ (new ++ y)) := by
    have hbalanced := hi.depth?_eq 0
    refine balanced_of_depth? ?_
    rw [hinner, depth?_append] at hbalanced
    rw [depth?_append, ← hbalanced]
    congr 1
    funext n
    rw [depth?_append, depth?_append, hdepth]
  refine ⟨.inl (by omega), .inr (.inl (by omega)), before, ⟨⟨x ++ (new ++ y), rest, ?_, hnew, ?_, ?_⟩, hw, hsub⟩,
    .inl rfl⟩
  · simp [hlead, hq]
  · simp only [shift]
    split <;> omega
  · simp only [shift, List.length_append]
    split <;> split <;> omega

theorem survives_after (hlead : lead = before ++ (w ++ '(' :: (inner ++ ')' :: x))) :
    Survives lead old new q i j before w := by
  have hlen : lead.length = before.length + (w.length + (inner.length + (x.length + 1) + 1)) := by simp [hlead]
  refine ⟨.inl (by omega), .inl (by omega), before, ⟨⟨inner, x ++ (new ++ q), ?_, hi, ?_, ?_⟩, hw, hsub⟩, .inl rfl⟩
  · simp [hlead]
  · simp only [shift]
    split <;> omega
  · simp only [shift]
    split <;> split <;> omega

/-- A pair whose first parenthesis is the first mark of a frame. -/
theorem survives_first {a b : Text} {c : Char} (hc : c = ']' ∨ c = ')') (ha : Balanced '(' ')' a)
    (hb : Balanced '(' ')' b) (hlead : lead = before ++ w) (h : inner ++ ')' :: rest = a ++ c :: q) :
    Survives lead ('(' :: (a ++ [c])) ('(' :: (b ++ [c])) q i j before w := by
  have hlen : lead.length = before.length + w.length := by simp [hlead]
  have hold : ('(' :: (a ++ [c])).length = a.length + 2 := by simp
  have hnew : ('(' :: (b ++ [c])).length = b.length + 2 := by simp
  have hfirst : Stays lead.length ('(' :: (a ++ [c])).length ('(' :: (b ++ [c])).length i :=
    .inr (.inr ⟨by omega, .inl (by omega)⟩)
  have hplace : shift lead.length ('(' :: (a ++ [c])).length ('(' :: (b ++ [c])).length i =
      before.length + w.length := by
    simp only [shift]
    split <;> omega
  obtain ⟨y, rfl, hy⟩ := hi.enclosed ha h
  cases y with
  | nil =>
    obtain ⟨rfl, rfl⟩ := List.cons.inj hy
    rw [List.append_nil] at hjp
    refine ⟨hfirst, .inr (.inr ⟨by omega, .inr (by omega)⟩), before,
      ⟨⟨b, q, by simp [hlead], hb, hplace, ?_⟩, hw, hsub⟩, .inl rfl⟩
    simp only [shift]
    split <;> split <;> omega
  | cons d y =>
    obtain ⟨rfl, rfl⟩ := List.cons.inj hy
    have hd := hi.depth?_eq 0
    rw [depth?_append, ha.depth?_eq, Option.bind_some] at hd
    have hsquare : c = ']' := by
      refine hc.resolve_right ?_
      rintro rfl
      rw [depth?_stray] at hd
      cases hd
    subst hsquare
    rw [depth?_skip (by decide)] at hd
    have hinner : (a ++ ']' :: y).length = a.length + (y.length + 1) := by simp
    refine ⟨hfirst, .inr (.inl (by omega)), before, ⟨⟨b ++ ']' :: y, rest, by simp [hlead],
      hb.append (.cons (by decide) (by decide) (balanced_of_depth? hd)), hplace, ?_⟩, hw, hsub⟩, .inl rfl⟩
    simp only [shift, List.length_append, List.length_cons]
    split <;> split <;> omega

/-- A pair whose second parenthesis is the last mark of a frame. -/
theorem survives_last {a b : Text} {o : Char} (ha : Balanced '(' ')' a) (hb : Balanced '(' ')' b)
    (hlead : lead = before ++ (w ++ '(' :: x)) (hinner : inner = x ++ o :: a) :
    Survives lead (o :: (a ++ [')'])) (o :: (b ++ [')'])) q i j before w := by
  have hlen : lead.length = before.length + (w.length + (x.length + 1)) := by simp [hlead]
  have hold : (o :: (a ++ [')'])).length = a.length + 2 := by simp
  have hnew : (o :: (b ++ [')'])).length = b.length + 2 := by simp
  have hlen' : inner.length = x.length + (a.length + 1) := by simp [hinner]
  have hbalanced : Balanced '(' ')' (x ++ o :: b) := by
    have hd := hi.depth?_eq 0
    rw [hinner, List.append_cons, ha.depth?_behind] at hd
    refine balanced_of_depth? ?_
    rw [List.append_cons, hb.depth?_behind, hd]
  refine ⟨.inl (by omega), .inr (.inr ⟨by omega, .inr (by omega)⟩), before,
    ⟨⟨x ++ o :: b, q, by simp [hlead], hbalanced, ?_, ?_⟩, hw, hsub⟩, .inl rfl⟩
  · simp only [shift]
    split <;> omega
  · simp only [shift, List.length_append, List.length_cons]
    split <;> split <;> omega

end Parts

/-- The text before attached parentheses leaves no group there. -/
theorem not_isGroup (hw : ∀ c ∈ w, isWord c = true) (hsub : w = [] → before.getLast? = some ']') :
    isGroup (before ++ w).reverse = false := by
  rw [isGroup, List.head?_reverse, List.getLast?_append]
  cases hlast : w.getLast? with
  | none =>
    rw [hsub (List.getLast?_eq_none_iff.1 hlast)]
    rfl
  | some c => simp [hw c (List.mem_of_getLast? hlast)]

theorem Shape.survives {o c : Char} {a : Text} (h : Shape lead.reverse o c a new)
    (ha : Attached (lead ++ ((o :: (a ++ [c])) ++ q)) i j before w) :
    Survives lead (o :: (a ++ [c])) new q i j before w := by
  obtain ⟨⟨inner, rest, ht, hi, hip, hjp⟩, hw, hsub⟩ := ha
  simp only [List.cons_append, List.append_assoc, List.nil_append] at ht
  obtain ⟨x, hx, hv⟩ | ⟨hlead, rfl, hv⟩ | ⟨x, y, hlead, hinner, hv⟩ | ⟨x, hlead, -⟩ :=
    locate h.not_word.1 h.not_word.2 hw ht.symm
  · obtain ⟨y, rfl, rfl⟩ := h.ends_before hw hsub hx hv.symm
    exact survives_before hi hw hsub hip hjp (by simp) h.getLast?_eq (by simp [hx]) rfl
  · obtain ⟨hgroup, -⟩ | ⟨b, rfl, hb⟩ := h.result
    · rw [hlead, not_isGroup hw hsub] at hgroup
      cases hgroup
    · exact survives_first hi hw hsub hip hjp h.closer h.balanced hb hlead hv.symm
  · obtain ⟨z, rfl, rfl⟩ | ⟨rfl, rfl, rfl⟩ := ends_between h.balanced (hinner ▸ hi) hv.symm
    · exact survives_between hi hw hsub hip hjp (by simp) h.depth?_eq hlead (by simp [hinner]) rfl
    obtain ⟨-, rfl, -⟩ | ⟨b, rfl, hb⟩ := h.result
    · -- the group would not be closed
      have hd := hi.depth?_eq 0
      rw [hinner, List.append_cons, h.balanced.depth?_behind, depth?_append] at hd
      obtain ⟨n, -, hd⟩ := Option.bind_eq_some_iff.1 hd
      rw [depth?_open] at hd
      cases Option.some.inj hd
    · exact survives_last hi hw hsub hip hjp h.balanced hb hlead hinner
  · exact survives_after hi hw hsub hip hjp hlead

end Replace

/-! ### Any number of replacements -/

/-- One of an attached pair of parentheses stands at this place. -/
def IsAttached (t : Text) (k : Nat) : Prop :=
  ∃ i j before w, Attached t i j before w ∧ (k = i ∨ k = j)

/-- The attached parentheses of `t` are in `u`, at other places but in the same order, with the same
partners and behind the same words.  What stands before a word may change only where it ends in a
parenthesis. -/
structure Keeps (place : Nat → Nat) (t u : Text) : Prop where
  order {k k' : Nat} : IsAttached t k → IsAttached t k' → k < k' → place k < place k'
  attached {i j : Nat} {before w : Text} : Attached t i j before w →
    ∃ before', Attached u (place i) (place j) before' w ∧
      (before'.getLast? = before.getLast? ∨ before.getLast? = some ')')

namespace Keeps
variable {t u v : Text} {place place' : Nat → Nat}

theorem refl (t : Text) : Keeps id t t :=
  ⟨fun _ _ h => h, fun {_ _ before _} h => ⟨before, h, .inl rfl⟩⟩

theorem isAttached (h : Keeps place t u) {k : Nat} (hk : IsAttached t k) : IsAttached u (place k) := by
  obtain ⟨i, j, before, w, ha, hk⟩ := hk
  obtain ⟨before', ha', -⟩ := h.attached ha
  exact ⟨_, _, before', w, ha', hk.imp (congrArg place) (congrArg place)⟩

theorem trans (h : Keeps place t u) (h' : Keeps place' u v) : Keeps (place' ∘ place) t v := by
  refine ⟨fun hk hk' hlt => h'.order (h.isAttached hk) (h.isAttached hk') (h.order hk hk' hlt), fun ha => ?_⟩
  obtain ⟨before', ha', hends⟩ := h.attached ha
  obtain ⟨before'', ha'', hends'⟩ := h'.attached ha'
  refine ⟨before'', ha'', ?_⟩
  rcases hends with he | he
  · rwa [he] at hends'
  · exact .inr he

end Keeps

theorem Move.keeps {t u : Text} (h : Move t u) : ∃ place, Keeps place t u := by
  cases h with
  | @intro lead rest old new h =>
    obtain ⟨o, c, a, rfl, hshape⟩ := h.shape
    refine ⟨shift lead.length (o :: (a ++ [c])).length new.length, fun hk hk' hlt => ?_, fun ha => ?_⟩
    · have hstays {k : Nat} (hk : IsAttached (lead ++ ((o :: (a ++ [c])) ++ rest)) k) :
          Stays lead.length (o :: (a ++ [c])).length new.length k := by
        obtain ⟨i, j, before, w, ha, rfl | rfl⟩ := hk
        · exact (hshape.survives ha).1
        · exact (hshape.survives ha).2.1
      exact shift_lt (by simp) (hstays hk) (hstays hk') hlt
    · exact (hshape.survives ha).2.2

/-- The parentheses of a call or a reference stay when an index is simplified. -/
theorem simplifySubscript_keeps (t : Text) : ∃ place, Keeps place t (simplifySubscript t) := by
  have hreach := reaches_simplifySubscript t
  generalize simplifySubscript t = u at hreach
  induction hreach with
  | refl => exact ⟨id, .refl t⟩
  | tail _ hmove ih =>
    obtain ⟨place, h⟩ := ih
    obtain ⟨place', h'⟩ := hmove.keeps
    exact ⟨place' ∘ place, h.trans h'⟩

/-- A call whose argument is simplified, and an element that is called. -/
theorem simplifySubscript_keeps_sample :
    let t := vectorSubscript "abs((i+1)-1)+m[k](n)"
    simplifySubscript t = "[(abs(i)+m[k](n))-1]".toList ∧ ∃ i j before i' j' before',
      Attached (simplifySubscript t) i j before "abs" ∧ Attached (simplifySubscript t) i' j' before' [] ∧
        j < i' := by
  intro t
  have hcall : Attached t 5 13 "[(" "abs" :=
    ⟨⟨"(i+1)-1", "+m[k](n))-1]", rfl, by decide, rfl, rfl⟩, List.all_eq_true.1 (by decide), nofun⟩
  have helement : Attached t 19 21 "[(abs((i+1)-1)+m[k]" [] :=
    ⟨⟨"n", ")-1]", rfl, by decide, rfl, rfl⟩, nofun, fun _ => rfl⟩
  obtain ⟨place, h⟩ := simplifySubscript_keeps t
  obtain ⟨before, hcall', -⟩ := h.attached hcall
  obtain ⟨before', helement', -⟩ := h.attached helement
  refine ⟨by decide +kernel, _, _, before, _, _, before', hcall', helement', ?_⟩
  exact h.order ⟨_, _, _, _, hcall, .inr rfl⟩ ⟨_, _, _, _, helement, .inl rfl⟩ (by decide)

/-- Behind blanks they may go: the call of `f` is not one any more. -/
example : simplifySubscript (vectorSubscript "f(x)") = "[(f(x))-1]".toList ∧
    simplifySubscript (vectorSubscript "f (x)") = "[(f x)-1]".toList := by decide +kernel

end FixedForm.Simplify
