import FixedForm.Proofs.Reference.Numeral
import FixedForm.Proofs.Reference.Rule
import FixedForm.Proofs.Text.Substitution

/-! The rules of the simplifier keep the value of an index.  Each is shown on the machine that reads
index expressions: where the text before a match leads it to a state, the match and its replacement
take it on to the same state, up to the sum of the literals. -/
namespace FixedForm.Index
open Text

/-! ### The sum of the literals has no influence -/

def Machine.raise (k : Nat) : Machine → Machine
  | .fresh => .fresh
  | .inside s => .inside { s with total := s.total + k }
  | .closed m n => .closed m (n + k)

section Raise
variable {k n : Nat} {c : Char} {st : List Opening}

theorem finish_raise {v : Meaning} :
    finish c v (n + k) st = (finish c v n st).map (Machine.raise k) := by
  unfold finish
  split
  · split <;> rfl
  · split
    · rfl
    · split <;> rfl
  · split
    · rfl
    · split <;> rfl
  · split <;> rfl
  · rfl

theorem follow_raise {r : Lead × Meaning × Nat} :
    follow c st (n + k) r = (follow c st n r).map (Machine.raise k) := by
  obtain ⟨lead, t, j⟩ := r
  have hsum : n + k + j = n + j + k := Nat.add_right_comm n k j
  rw [follow, follow, hsum]
  split
  · rfl
  split
  · rfl
  split
  · rfl
  split
  · rfl
  · exact finish_raise

theorem lack_raise {cur : Cursor} :
    lack c (n + k) cur st = (lack c n cur st).map (Machine.raise k) := by
  unfold lack
  split
  · split
    · rfl
    split
    · split <;> rfl
    · rfl
  · rfl

theorem step_raise (m : Machine) (hm : m ≠ .fresh) :
    (m.raise k).step c = (m.step c).map (Machine.raise k) := by
  cases m with
  | fresh => exact absurd rfl hm
  | inside s =>
    change State.step _ c = (s.step c).map _
    unfold State.step
    split
    · cases s.cursor.extend? c <;> rfl
    split
    · cases s.cursor.open? <;> rfl
    split
    · cases s.cursor.openElement? <;> rfl
    cases h : s.cursor.term? with
    | some r => exact follow_raise
    | none => exact lack_raise
  | closed m n => rfl

/-- The machine never goes back to where it started. -/
theorem ne_fresh_of_step {m m' : Machine} (h : m.step c = some m') : m' ≠ .fresh := by
  rintro rfl
  cases m with
  | fresh => simp [Machine.step] at h
  | inside s =>
    have hfinish (v : Meaning) (n : Nat) (st : List Opening) : finish c v n st ≠ some .fresh := by
      fun_cases finish c v n st <;> simp
    have hfollow (r : Lead × Meaning × Nat) : follow c s.openings s.total r ≠ some .fresh := by
      fun_cases follow c s.openings s.total r <;> simp [hfinish]
    have hlack : lack c s.total s.cursor s.openings ≠ some .fresh := by
      fun_cases lack c s.total s.cursor s.openings <;> simp
    have hstep : s.step c ≠ some .fresh := by
      fun_cases State.step s c <;> simp [hfollow, hlack]
    exact hstep h
  | closed m n => cases h

theorem run_raise {m : Machine} (hm : m ≠ .fresh) (t : Text) :
    (m.raise k).run t = (m.run t).map (Machine.raise k) := by
  induction t generalizing m with
  | nil => rfl
  | cons c t ih =>
    rw [Machine.run_cons, Machine.run_cons, step_raise m hm]
    cases h : m.step c with
    | none => rfl
    | some m' => exact ih (ne_fresh_of_step h)

/-- A state with fewer literals accepts what the same state with more of them accepts. -/
theorem exists_of_run_raise {s : State} {m : Meaning} {t : Text}
    (h : (Machine.inside { s with total := s.total + k }).run t = some (.closed m n)) :
    ∃ j, n = j + k ∧ (Machine.inside s).run t = some (.closed m j) := by
  have hr := run_raise (k := k) (m := .inside s) (by simp) t
  rw [Machine.raise, h] at hr
  obtain ⟨m', hm', hraise⟩ := Option.map_eq_some_iff.1 hr.symm
  cases m' with
  | fresh => cases hraise
  | inside s => cases hraise
  | closed m' j =>
    obtain ⟨rfl, rfl⟩ : m' = m ∧ j + k = n := by simpa [Machine.raise] using hraise
    exact ⟨j, rfl, hm'⟩

end Raise

/-! ### A text without parentheses inside a group -/

def Opening.isElement : Opening → Bool
  | .element _ _ _ _ => true
  | _ => false

/-- Where the machine comes to depends on the openings around a place only in that they stay.  Those
behind the place are of elements, and an expression can begin only in one of these. -/
def Local (f : List Opening → Option Machine) : Prop :=
  ∃ cur inner n, (∀ o ∈ inner, o.isElement = true) ∧ (cur = start → inner ≠ []) ∧
    ∀ st, f st = some (.inside ⟨cur, inner ++ st, n⟩)

section Frame
variable {cur : Cursor} {inner st : List Opening} {lead : Lead} {product : Product} {c : Char}
  {n : Nat} {m : Machine}

theorem finish_local {v : Meaning} (hin : ∀ o ∈ inner, o.isElement = true) (hc : c ≠ ')')
    (h : finish c v n (inner ++ .group lead product :: st) = some m) :
    Local fun st => finish c v n (inner ++ st) := by
  cases inner with
  | nil => simp [finish, hc] at h
  | cons o inner =>
    have hin' : ∀ o ∈ inner, o.isElement = true := fun o ho => hin o (by simp [ho])
    cases o with
    | element lead' product' a args =>
      by_cases hb : c = ']'
      · exact ⟨.done lead' (product'.apply (.entry a (args ++ [v]))), inner, n, hin', nofun,
          fun st => by simp [finish, hb]⟩
      · have hcomma : c = ',' := by
          simp only [List.cons_append, finish, hb, if_false] at h
          split at h
          · assumption
          · cases h
        exact ⟨start, .element lead' product' a (args ++ [v]) :: inner, n,
          List.forall_mem_cons.2 ⟨rfl, hin'⟩, fun _ => by simp, fun st => by simp [finish, hcomma]⟩
    | whole => cases hin _ List.mem_cons_self
    | group => cases hin _ List.mem_cons_self
    | call => cases hin _ List.mem_cons_self

theorem follow_local {r : Lead × Meaning × Nat} (hin : ∀ o ∈ inner, o.isElement = true)
    (hc : c ≠ ')') (h : follow c (inner ++ .group lead product :: st) n r = some m) :
    Local fun st => follow c (inner ++ st) n r := by
  obtain ⟨lead', t, k⟩ := r
  have hneed (lead'' : Lead) (product' : Product) (hs : Cursor.need lead'' product' ≠ start) :
      Local fun st => some (.inside ⟨.need lead'' product', inner ++ st, n + k⟩) :=
    ⟨_, inner, n + k, hin, fun h => absurd h hs, fun _ => rfl⟩
  simp only [follow] at h ⊢
  split at h
  · next hplus => simpa [hplus] using hneed (.plus (lead'.apply t)) .first (by simp [start])
  next hplus =>
  split at h
  · next hless => simpa [hless] using hneed (.less (lead'.apply t)) .first (by simp [start])
  next hless =>
  split at h
  · next htimes => simpa [htimes] using hneed lead' (.times t) (by simp [start])
  next htimes =>
  split at h
  · next hover => simpa [hover] using hneed lead' (.divide t) (by simp [start])
  next hover =>
  simpa [hplus, hless, htimes, hover] using finish_local hin hc h

theorem lack_local (hin : ∀ o ∈ inner, o.isElement = true) (hc : c ≠ ')')
    (h : lack c n cur (inner ++ .group lead product :: st) = some m) :
    Local fun st => lack c n cur (inner ++ st) := by
  unfold lack at h
  split at h
  · split at h
    · next hminus =>
      exact ⟨.need .minus .first, inner, n, hin, nofun, fun st => by simp [lack, hminus]⟩
    · simp at h
  · cases h

theorem step_local (hin : ∀ o ∈ inner, o.isElement = true) (hp : c ≠ '(') (hq : c ≠ ')')
    (h : State.step ⟨cur, inner ++ .group lead product :: st, n⟩ c = some m) :
    Local fun st => State.step ⟨cur, inner ++ st, n⟩ c := by
  by_cases hw : isWord c = true
  · simp only [State.step, hw, if_true] at h ⊢
    obtain ⟨cur', hcur, -⟩ := Option.map_eq_some_iff.1 h
    refine ⟨cur', inner, n, hin, ?_, fun _ => by simp [hcur]⟩
    rintro rfl
    cases cur <;> simp [Cursor.extend?, start] at hcur
  by_cases hb : c = '['
  · subst hb
    obtain ⟨o, ho, -⟩ := Option.map_eq_some_iff.1 h
    have hel : o.isElement = true := by
      cases cur with
      | word lead product w =>
        obtain ⟨-, rfl⟩ : IsName w ∧ _ = o := by simpa [Cursor.openElement?] using ho
        rfl
      | need => cases ho
      | done => cases ho
    refine ⟨start, o :: inner, n, List.forall_mem_cons.2 ⟨hel, hin⟩, fun _ => by simp, fun st => ?_⟩
    change (cur.openElement?).map _ = _
    rw [ho]
    rfl
  have hend : isEnd c = true := by simp [isEnd, hw, hp, hb]
  cases ht : cur.term? with
  | some r =>
    have hstep (st : List Opening) : State.step ⟨cur, inner ++ st, n⟩ c = follow c (inner ++ st) n r :=
      step_of_term hend ht
    rw [hstep] at h
    simp only [hstep]
    exact follow_local hin hq h
  | none =>
    have hstep (st : List Opening) : State.step ⟨cur, inner ++ st, n⟩ c = lack c n cur (inner ++ st) :=
      step_of_lack hend ht
    rw [hstep] at h
    simp only [hstep]
    exact lack_local hin hq h

/-- What `step_local` says of a character it says of a text. -/
theorem run_local (inner : List Opening) {x : Text} (hx : ∀ c ∈ x, c ≠ '(' ∧ c ≠ ')') (hne : x ≠ [])
    (hin : ∀ o ∈ inner, o.isElement = true)
    (h : (Machine.inside ⟨cur, inner ++ .group lead product :: st, n⟩).run x = some m) :
    Local fun st => (Machine.inside ⟨cur, inner ++ st, n⟩).run x := by
  induction x generalizing cur inner n with
  | nil => exact absurd rfl hne
  | cons c x ih =>
    obtain ⟨hp, hq⟩ := hx c (by simp)
    obtain ⟨m', hstep, hrun⟩ := Option.bind_eq_some_iff.1 h
    obtain ⟨cur', inner', n', hin', hst', hloc⟩ := step_local hin hp hq hstep
    have hm' : State.step ⟨cur, inner ++ .group lead product :: st, n⟩ c = some m' := hstep
    have hloc' (st : List Opening) : (Machine.inside ⟨cur, inner ++ st, n⟩).step c =
        some (.inside ⟨cur', inner' ++ st, n'⟩) := hloc st
    simp only [Machine.run_cons, hloc', Option.bind_some] at h ⊢
    cases x with
    | nil => exact ⟨cur', inner', n', hin', hst', fun _ => rfl⟩
    | cons d x => exact ih inner' (fun c hc => hx c (by simp [hc])) (by simp) hin' h

end Frame

/-! ### Pieces of the rules -/

/-- The place behind `m+` or `m-`. -/
def signed (op : Char) (m : Meaning) : Lead := if op = '+' then .plus m else .less m

section Pieces
variable {cur : Cursor} {st : List Opening} {lead : Lead} {product : Product} {c op : Char} {n k : Nat}
  {m : Machine} {t : Meaning} {a b w x rest : Text}

theorem step_start_group : (Machine.inside ⟨start, st, n⟩).step '(' =
    some (.inside ⟨start, .group .start .first :: st, n⟩) := rfl

theorem isEnd_sign (hop : op = '+' ∨ op = '-') : isEnd op = true := by
  rcases hop with rfl | rfl <;> decide

theorem step_signed {s : Cursor} (hop : op = '+' ∨ op = '-') (ht : s.term? = some (lead, t, k)) :
    (Machine.inside ⟨s, st, n⟩).step op =
      some (.inside ⟨.need (signed op (lead.apply t)) .first, st, n + k⟩) := by
  have hstep : State.step ⟨s, st, n⟩ op = follow op st n (lead, t, k) :=
    step_of_term (isEnd_sign hop) ht
  rw [Machine.step, hstep, follow]
  rcases hop with rfl | rfl <;> rfl

/-- Only at the start of an expression can a sign stand without a term before it. -/
theorem exists_step_signed (hop : op = '+' ∨ op = '-')
    (h : (Machine.inside ⟨cur, st, n⟩).step op = some m) :
    ∃ lead' k, m = .inside ⟨.need lead' .first, st, n + k⟩ ∧
      (cur ≠ start → ∃ lead t, cur.term? = some (lead, t, k) ∧ lead' = signed op (lead.apply t)) := by
  cases ht : cur.term? with
  | some r =>
    obtain ⟨lead, t, k⟩ := r
    rw [step_signed hop ht] at h
    exact ⟨_, k, (Option.some.inj h).symm, fun _ => ⟨lead, t, rfl, rfl⟩⟩
  | none =>
    have hlack : lack op n cur st = some m := (step_of_lack (isEnd_sign hop) ht).symm.trans h
    unfold lack at hlack
    split at hlack
    · rcases hop with rfl | rfl
      · cases hlack
      · exact ⟨.minus, 0, (Option.some.inj hlack).symm, fun h => absurd rfl h⟩
    · cases hlack

/-- A word that is read on has a meaning. -/
theorem exists_word (hne : w ≠ []) (hw : ∀ c ∈ w, isWord c = true) (hr : Ends rest)
    (h : (Machine.inside ⟨.need lead product, st, n⟩).run (w ++ rest) = some m) :
    ∃ v k, Index.word? w = some (v, k) ∧
      (Machine.inside ⟨.done lead (product.apply v), st, n + k⟩).run rest = some m := by
  cases hv : Index.word? w with
  | some r =>
    obtain ⟨v, k⟩ := r
    rw [run_word_append hne hw hv hr] at h
    exact ⟨v, k, rfl, h⟩
  | none =>
    obtain ⟨c, u, rfl, hc⟩ := hr
    have hterm : (Cursor.word lead product w).term? = none := by simp [Cursor.term?, hv]
    have hstep : (Machine.inside ⟨.word lead product w, st, n⟩).step c = none := step_of_lack hc hterm
    rw [Machine.run_append, run_word hne hw, Option.bind_some, Machine.run_cons, hstep] at h
    cases h

/-- A term, a sign and a word. -/
theorem run_signed_word (hop : op = '+' ∨ op = '-') (hne : w ≠ []) (hw : ∀ c ∈ w, isWord c = true)
    (hr : Ends rest) (h : (Machine.inside ⟨.done lead t, st, n⟩).run (op :: (w ++ rest)) = some m) :
    ∃ v k, Index.word? w = some (v, k) ∧
      (Machine.inside ⟨.done (signed op (lead.apply t)) v, st, n + k⟩).run rest = some m := by
  rw [Machine.run_cons, step_signed (s := .done lead t) hop rfl, Option.bind_some] at h
  exact exists_word hne hw hr h

/-- At the end of a group or an index only the value of the expression counts. -/
theorem run_close {l : Lead} {u : Meaning} (hc : c = ')' ∨ c = ']')
    (hv : lead.apply t = l.apply u) :
    (Machine.inside ⟨.done lead t, st, n⟩).run (c :: rest) =
      (Machine.inside ⟨.done l u, st, n⟩).run (c :: rest) := by
  have hstep (lead : Lead) (t : Meaning) :
      (Machine.inside ⟨.done lead t, st, n⟩).step c = finish c (lead.apply t) n st := by
    rcases hc with rfl | rfl <;> rfl
  rw [Machine.run_cons, Machine.run_cons, hstep, hstep, hv]

theorem outside_of_ends (h : Ends rest) : StartsOutside isWord rest := by
  obtain ⟨c, u, rfl, hc⟩ := h
  simp only [isEnd, Bool.and_eq_true, Bool.not_eq_true'] at hc
  exact .cons hc.1.1

/-- Behind a term a mark must come. -/
theorem ends_of_run {v : Meaning} (h : (Machine.inside ⟨.done lead t, st, n⟩).run rest = some (.closed v k)) :
    Ends rest := by
  cases rest with
  | nil => cases h
  | cons c rest =>
    refine ends_cons rest ?_
    obtain ⟨m, hstep, -⟩ := Option.bind_eq_some_iff.1 h
    by_cases hw : isWord c = true
    · simp [Machine.step, State.step, hw, Cursor.extend?] at hstep
    by_cases hp : c = '('
    · subst hp
      cases hstep
    by_cases hb : c = '['
    · subst hb
      cases hstep
    simp [isEnd, hw, hp, hb]

theorem exists_opened {s s' : Machine} (hc : c = '[' ∨ c = '(') (h : s.step c = some s') :
    ∃ st n, s' = .inside ⟨start, st, n⟩ := by
  cases s with
  | fresh =>
    obtain ⟨-, rfl⟩ : c = '[' ∧ _ = s' := by simpa [Machine.step] using h
    exact ⟨_, _, rfl⟩
  | inside s =>
    rcases hc with rfl | rfl <;> obtain ⟨o, -, rfl⟩ := Option.map_eq_some_iff.1 h <;> exact ⟨_, _, rfl⟩
  | closed => cases h

/-- A group of a text without parentheses, a sign and a word, behind an opening: the text is read in the
same way elsewhere, and the group has the value of the sum. -/
theorem run_flat_group {s : Machine} {o : Char} (ho : o = '[' ∨ o = '(') (hx : ∀ c ∈ x, c ≠ '(' ∧ c ≠ ')')
    (hxne : x ≠ []) (hop : op = '+' ∨ op = '-') (hane : a ≠ []) (ha : ∀ c ∈ a, isWord c = true)
    (h : s.run (o :: '(' :: (x ++ op :: (a ++ ')' :: rest))) = some m) :
    ∃ st n cur n' lead t k v j, s.step o = some (.inside ⟨start, st, n⟩) ∧
      (∀ st, (Machine.inside ⟨start, st, n⟩).run x = some (.inside ⟨cur, st, n'⟩)) ∧
      cur.term? = some (lead, t, k) ∧ Index.word? a = some (v, j) ∧
      (Machine.inside ⟨.done .start ((signed op (lead.apply t)).apply v), st, n' + k + j⟩).run rest =
        some m := by
  rw [Machine.run_cons] at h
  obtain ⟨s₁, hopen, h⟩ := Option.bind_eq_some_iff.1 h
  obtain ⟨st, n, rfl⟩ := exists_opened ho hopen
  rw [Machine.run_cons, step_start_group, Option.bind_some, Machine.run_append] at h
  obtain ⟨mid, hmid, htail⟩ := Option.bind_eq_some_iff.1 h
  obtain ⟨cur, inner, n', hin, hstart, hloc⟩ := run_local [] hx hxne (by simp) hmid
  simp only [List.nil_append] at hloc
  obtain rfl := Option.some.inj (hmid.symm.trans (hloc _))
  obtain ⟨mid, hsign, htail⟩ := Option.bind_eq_some_iff.1 htail
  obtain ⟨lead', k, rfl, hsigned⟩ := exists_step_signed hop hsign
  obtain ⟨v, j, hv, htail⟩ := exists_word hane ha (ends_cons rest (by decide)) htail
  cases inner with
  | cons o inner =>
    -- an element that was opened in the text is still open at the parenthesis
    have ho : o.isElement = true := hin o List.mem_cons_self
    cases o <;> cases ho
    cases htail
  | nil =>
    obtain ⟨lead, t, ht, rfl⟩ := hsigned fun h => absurd rfl (hstart h)
    exact ⟨st, n, cur, n', lead, t, k, v, j, hopen, hloc, ht, hv, htail⟩

/-- Parentheses that belong to no call open a group where a factor must come. -/
theorem exists_need {before : Text} {s s' : Machine} (hs : Machine.fresh.run before.reverse = some s)
    (hg : Simplify.isGroup before = true) (h : s.step '(' = some s') :
    ∃ lead product st n, s = .inside ⟨.need lead product, st, n⟩ := by
  have hfresh : Machine.fresh.Writes [] := rfl
  have hwrites := run_writes hfresh hs
  cases s with
  | fresh => cases h
  | closed => cases h
  | inside s =>
    obtain ⟨cur, st, n⟩ := s
    cases cur with
    | need lead product => exact ⟨lead, product, st, n, rfl⟩
    | done lead t => cases h
    | word lead product w =>
      obtain ⟨u, v, ht, -, ⟨hne, hw⟩, y, rfl, -⟩ := hwrites
      have hbefore : before = w.reverse ++ (y.reverse ++ u.reverse) := by
        have hrev := congrArg List.reverse ht
        simpa using hrev
      have hlast : isWord (w.getLast hne) = true := hw _ (List.getLast_mem hne)
      have hhead : before.head? = some (w.getLast hne) := by
        rw [hbefore, List.head?_append, List.head?_reverse, List.getLast?_eq_some_getLast hne]
        rfl
      simp [Simplify.isGroup, hhead, hlast] at hg

end Pieces

/-! ### The rules -/

/-- From `s` on `new` may stand for `old`, when the literals add up to a count.  It has no needless zero in
front of a number that `old` has not. -/
def Replaces (s : Machine) (old new : Text) : Prop :=
  ∀ rest m n, s.run (old ++ rest) = some (.closed m n) → n < Nat.pow 2 Count.precision →
    (∃ k ≤ n, s.run (new ++ rest) = some (.closed m k)) ∧ (Unled (old ++ rest) → Unled (new ++ rest))

section Rules
variable {s : Machine} {a b x : Text} {o c op op' : Char}

theorem word?_one : Index.word? ['1'] = some (fun _ => 1, 1) := rfl

theorem not_word_round : isWord '(' = false ∧ isWord ')' = false := by decide

theorem not_word_sign (hop : op = '+' ∨ op = '-') : isWord op = false := by
  rcases hop with rfl | rfl <;> decide

theorem replaces_undo (ho : o = '[' ∨ o = '(') (hc : c = ']' ∨ c = ')')
    (hx : ∀ c ∈ x, c ≠ '(' ∧ c ≠ ')') (hxne : x ≠ [])
    (hop : (op = '+' ∧ op' = '-') ∨ (op = '-' ∧ op' = '+')) :
    Replaces s (o :: '(' :: (x ++ [op, '1', ')', op', '1', c])) (o :: x ++ [c]) := by
  intro rest m n h hn
  have hsign : op = '+' ∨ op = '-' := by grind
  have hsign' : op' = '+' ∨ op' = '-' := by grind
  have hend : isEnd c = true := by rcases hc with rfl | rfl <;> decide
  have hone : ∀ c ∈ ['1'], isWord c = true := by
    intro c hc
    obtain rfl := List.mem_singleton.1 hc
    decide
  simp only [List.cons_append, List.append_assoc, List.nil_append] at h ⊢
  obtain ⟨st, j, cur, n', lead, t, k, v, i, hopen, hrun, hterm, hv, h⟩ :=
    run_flat_group (a := ['1']) ho hx hxne hsign (by simp) hone h
  obtain ⟨rfl, rfl⟩ := Prod.mk.inj (Option.some.inj (word?_one.symm.trans hv))
  obtain ⟨v, i, hv, h⟩ := run_signed_word (w := ['1']) hsign' (by simp) hone (ends_cons rest hend) h
  obtain ⟨rfl, rfl⟩ := Prod.mk.inj (Option.some.inj (word?_one.symm.trans hv))
  have hvalue : (signed op' ((signed op (lead.apply t)).apply fun _ => 1)).apply (fun _ => 1) =
      lead.apply t := by
    rcases hop with ⟨rfl, rfl⟩ | ⟨rfl, rfl⟩
    · funext I
      exact Int.add_sub_cancel _ _
    · funext I
      exact Int.sub_add_cancel _ _
  rw [Lead.apply, run_close (l := lead) (u := t) hc.symm hvalue, Nat.add_assoc] at h
  obtain ⟨i, rfl, hlow⟩ := exists_of_run_raise (s := ⟨.done lead t, st, n' + k⟩) h
  refine ⟨⟨i, Nat.le_add_right _ _, ?_⟩, fun hu => ?_⟩
  · rw [Machine.run_cons, hopen, Option.bind_some, Machine.run_append, hrun st, Option.bind_some,
      run_settled hterm (ends_cons rest hend), hlow]
  · have ho : isWord o = false := by rcases ho with rfl | rfl <;> decide
    have hc : isWord c = false := by rcases hc with rfl | rfl <;> decide
    have hones : o :: '(' :: (x ++ op :: '1' :: ')' :: op' :: '1' :: c :: rest) =
      o :: '(' :: (x ++ op :: (['1'] ++ ')' :: op' :: (['1'] ++ c :: rest))) := rfl
    simp only [hones, unled_mark, unled_cons, ho, hc, not_word_sign hsign, not_word_sign hsign',
      not_word_round] at hu
    simp only [unled_mark, unled_cons, ho, hc, hu, and_self]

theorem replaces_collect (hx : ∀ c ∈ x, c ≠ '(' ∧ c ≠ ')') (hxne : x ≠ []) (hop : op = '+' ∨ op = '-')
    (ha : a ≠ [] ∧ ∀ c ∈ a, isWord c = true) (hb : b ≠ [] ∧ ∀ c ∈ b, isWord c = true) :
    Replaces s ('(' :: '(' :: (x ++ op :: (a ++ ')' :: op :: (b ++ [')']))))
      ('(' :: '(' :: (x ++ ')' :: op :: '(' :: '(' ::
        (a ++ ')' :: '+' :: '(' :: (b ++ [')', ')', ')'])))) := by
  intro rest m n h hn
  simp only [List.cons_append, List.append_assoc, List.nil_append] at h ⊢
  obtain ⟨st, j, cur, n', lead, t, k, v, i, hopen, hrun, hterm, hv, h⟩ :=
    run_flat_group (.inr rfl) hx hxne hop ha.1 ha.2 h
  obtain ⟨w, i', hw, h⟩ := run_signed_word hop hb.1 hb.2 (ends_cons rest (by decide)) h
  obtain ⟨f, rfl, rfl, rfl⟩ := exists_factor hv
  obtain ⟨g, rfl, rfl, rfl⟩ := exists_factor hw
  let sum : Tree .factor := .group (.add (.plain (.single (.group (.plain (.single f)))))
    (.single (.group (.plain (.single g)))))
  have hprint : '(' :: '(' :: (f.print ++ ')' :: '+' :: '(' :: (g.print ++ ')' :: ')' :: ')' :: rest)) =
      sum.print ++ ')' :: rest := by
    simp [sum, Tree.print]
  have hvalue : (signed op ((signed op (lead.apply t)).apply f.meaning)).apply g.meaning =
      (signed op (lead.apply t)).apply sum.meaning := by
    funext I
    rcases hop with rfl | rfl
    · exact Int.add_assoc _ _ _
    · exact Int.sub_sub _ _ _
  have hclose : (Machine.inside ⟨.done lead t, .group .start .first :: st, n' + k⟩).step ')' =
    some (.inside ⟨.done .start (lead.apply t), st, n' + k⟩) := rfl
  refine ⟨⟨n, Nat.le_refl n, ?_⟩, fun hu => ?_⟩
  · rw [Machine.run_cons, hopen, Option.bind_some, Machine.run_cons, step_start_group, Option.bind_some,
      Machine.run_append, hrun, Option.bind_some, run_settled hterm (ends_cons _ (by decide)),
      Machine.run_cons, hclose, Option.bind_some, Machine.run_cons,
      step_signed (s := .done .start (lead.apply t)) hop rfl, Option.bind_some, hprint,
      sum.read _ _ _ _ _ (ends_cons rest (by decide))]
    rw [Lead.apply, run_close (.inl rfl) hvalue, Nat.add_assoc] at h
    exact h
  · simp only [unled_mark, unled_cons, not_word_sign hop, not_word_round] at hu
    simp only [unled_mark, unled_cons, not_word_sign hop, not_word_sign (.inl rfl), not_word_round, hu, and_self]

/-- A written factor may stand where its value is known. -/
theorem exists_of_factor {lead : Lead} {product : Product} {st : List Opening} {n k N : Nat}
    {v : Meaning} {rest : Text} (f : Tree .factor) (hk : f.literals ≤ k)
    (h : (Machine.inside ⟨.done lead (product.apply f.meaning), st, n + k⟩).run rest =
      some (.closed v N)) :
    ∃ j ≤ N, (Machine.inside ⟨.need lead product, st, n⟩).run (f.print ++ rest) = some (.closed v j) := by
  obtain ⟨d, rfl⟩ := Nat.exists_eq_add_of_le hk
  have hr := ends_of_run h
  rw [← Nat.add_assoc] at h
  obtain ⟨j, rfl, hlow⟩ := exists_of_run_raise
    (s := ⟨.done lead (product.apply f.meaning), st, n + f.literals⟩) h
  exact ⟨j, Nat.le_add_right _ _, by rw [f.read lead product st n rest hr, hlow]⟩

/-- A word in parentheses. -/
theorem replaces_word {lead : Lead} {product : Product} {st : List Opening} {n : Nat}
    (ha : a ≠ [] ∧ ∀ c ∈ a, isWord c = true) :
    Replaces (.inside ⟨.need lead product, st, n⟩) ('(' :: (a ++ [')'])) a := by
  intro rest m N h _
  simp only [List.cons_append, List.append_assoc, List.nil_append] at h
  rw [Machine.run_cons, step_group, Option.bind_some] at h
  obtain ⟨v, k, hv, h⟩ := exists_word ha.1 ha.2 (ends_cons rest (by decide)) h
  obtain ⟨f, rfl, rfl, rfl⟩ := exists_factor hv
  rw [Machine.run_cons, close_group, Option.bind_some] at h
  refine ⟨exists_of_factor f (Nat.le_refl _) h, fun hu => ?_⟩
  simp only [List.cons_append, List.append_assoc, List.nil_append, unled_mark, unled_cons, not_word_round] at hu
  exact (unled_append (.inr (outside_of_ends (ends_of_run h)))).2 hu

/-- An integer as it is written. -/
def ofInt (z : Int) : Tree .expr :=
  let digits : Tree .term := .single (.number ⟨Nat.toDigits 10 z.natAbs, isDigits_toDigits _⟩)
  if z < 0 then .neg digits else .plain digits

theorem unled_ofInt (z : Int) : Unled (ofInt z).print := by
  rw [ofInt]
  split
  · exact (unled_cons (not_word_sign (.inr rfl))).2 (unled_toDigits _)
  · exact unled_toDigits _

theorem ofInt_print {z : Int} (h : z.natAbs < Nat.pow 2 Count.precision) :
    (ofInt z).print = (Count.finite z).render := by
  rw [Count.render_of_lt h, ofInt]
  split <;> rfl

theorem ofInt_meaning (z : Int) : (ofInt z).meaning = fun _ => z := by
  funext I
  rw [ofInt]
  split <;> simp only [Tree.meaning, value_toDigits] <;> omega

theorem ofInt_literals (z : Int) : (ofInt z).literals = z.natAbs := by
  rw [ofInt]
  split <;> exact value_toDigits _

/-- The value of a sum or difference of two literals. -/
def sumOf (op : Char) (a b : Text) : Int :=
  if op = '+' then (a.value : Int) + b.value else (a.value : Int) - b.value

theorem natAbs_sumOf_le (op : Char) (a b : Text) : (sumOf op a b).natAbs ≤ a.value + b.value := by
  rw [sumOf]
  split <;> omega

theorem combine_eq (h : a.value + b.value < Nat.pow 2 Count.precision) :
    Simplify.combine op a b = .finite (sumOf op a b) := by
  rw [Simplify.combine, sumOf, Count.add_ofDigits h, Count.sub_ofDigits h]
  split <;> rfl

/-- The literals of a sum are counted, and the sum they are combined to may stand for it. -/
theorem run_sum {st : List Opening} {n N : Nat} {m : Meaning} {rest : Text} (a b : Literal)
    (hop : op = '+' ∨ op = '-') (hc : c = ')' ∨ c = ']') (hN : N < Nat.pow 2 Count.precision)
    (h : (Machine.inside ⟨start, st, n⟩).run (a.1 ++ op :: (b.1 ++ c :: rest)) = some (.closed m N)) :
    let v := Simplify.combine op a.1 b.1
    v = .finite (sumOf op a.1 b.1) ∧ v.render = (ofInt (sumOf op a.1 b.1)).print ∧ ∃ j ≤ N,
      (Machine.inside ⟨start, st, n⟩).run ((ofInt (sumOf op a.1 b.1)).print ++ c :: rest) =
        some (.closed m j) := by
  have hend : isEnd c = true := by rcases hc with rfl | rfl <;> decide
  have hword (d : Literal) : d.1 ≠ [] ∧ ∀ c ∈ d.1, isWord c = true := by
    obtain ⟨hne, hd⟩ := mem_of_isDigits d.2
    exact ⟨hne, fun c hc => word_of_digit (hd c hc)⟩
  let sum := ofInt (sumOf op a.1 b.1)
  obtain ⟨lead, t, ht, hread⟩ := sum.read st n (c :: rest) (ends_cons rest hend)
  have hvalue : (signed op fun _ => (a.1.value : Int)).apply (fun _ => (b.1.value : Int)) =
      lead.apply t := by
    rw [ht, ofInt_meaning]
    funext I
    rcases hop with rfl | rfl <;> rfl
  rw [start, run_word_append (hword a).1 (hword a).2 (word?_digits a) (ends_cons _ (isEnd_sign hop)),
    Machine.run_cons, step_signed (s := .done .start _) hop rfl, Option.bind_some,
    run_word_append (hword b).1 (hword b).2 (word?_digits b) (ends_cons rest hend)] at h
  have hlit : sum.literals ≤ a.1.value + b.1.value := by
    rw [ofInt_literals]
    exact natAbs_sumOf_le op a.1 b.1
  obtain ⟨d, hd⟩ := Nat.exists_eq_add_of_le hlit
  have htotal : n + a.1.value + 0 + b.1.value = n + sum.literals + d := by omega
  have hend : (Machine.inside ⟨.done lead t, st, n + sum.literals + d⟩).run (c :: rest) =
      some (.closed m N) := by
    rw [← htotal, ← h]
    exact (run_close hc hvalue).symm
  obtain ⟨j, rfl, hlow⟩ := exists_of_run_raise (s := ⟨.done lead t, st, n + sum.literals⟩) hend
  obtain ⟨i, rfl, -⟩ := exists_of_run_raise (s := ⟨.done lead t, st, 0⟩) (k := n + sum.literals)
    (by rw [Nat.zero_add, hlow])
  have hcombine : Simplify.combine op a.1 b.1 = _ := combine_eq (by omega)
  refine ⟨hcombine, ?_, _, Nat.le_add_right _ _, by rw [hread, hlow]⟩
  have habs := natAbs_sumOf_le op a.1 b.1
  rw [hcombine, ofInt_print (by omega)]

theorem replaces_groupSum {lead : Lead} {product : Product} {st : List Opening} {n : Nat}
    {v : Count} (a b : Literal) (hop : op = '+' ∨ op = '-') (hv : Simplify.combine op a.1 b.1 = v) :
    Replaces (.inside ⟨.need lead product, st, n⟩) ('(' :: (a.1 ++ op :: (b.1 ++ [')'])))
      (if v.isNegative then "(" ++ v.render ++ ")" else v.render) := by
  intro rest m N h hN
  simp only [List.cons_append, List.append_assoc, List.nil_append] at h
  rw [Machine.run_cons, step_group, Option.bind_some] at h
  obtain ⟨hcombine, hrender, j, hj, hrun⟩ := run_sum a b hop (.inl rfl) hN h
  rw [← hv, hrender, hcombine]
  have hgroup : (Machine.inside ⟨.need lead product, st, n⟩).run
      ((Tree.group (ofInt (sumOf op a.1 b.1))).print ++ rest) = some (.closed m j) := by
    rw [← hrun]
    simp [Tree.print]
  have hunled (hu : Unled ('(' :: (a.1 ++ op :: (b.1 ++ [')'])) ++ rest)) :
      Unled ((Tree.group (ofInt (sumOf op a.1 b.1))).print ++ rest) := by
    simp only [List.cons_append, List.append_assoc, List.nil_append, unled_mark, unled_cons, not_word_round,
      not_word_sign hop] at hu
    simp [Tree.print, unled_mark, unled_cons, not_word_round, unled_ofInt, hu]
  split
  · exact ⟨⟨j, hj, hgroup⟩, hunled⟩
  · next hneg =>
    -- the digits alone are a word in parentheses
    have hdigits : (ofInt (sumOf op a.1 b.1)).print = Nat.toDigits 10 (sumOf op a.1 b.1).natAbs := by
      rw [ofInt, if_neg (by simpa [Count.isNegative] using hneg)]
      rfl
    obtain ⟨hne, hd⟩ := mem_of_isDigits (isDigits_toDigits (sumOf op a.1 b.1).natAbs)
    rw [Tree.print, hdigits] at hgroup hunled
    rw [hdigits]
    obtain ⟨⟨i, hi, hword⟩, hdigits⟩ := replaces_word ⟨hne, fun c hc => word_of_digit (hd c hc)⟩ rest m j hgroup
      (Nat.lt_of_le_of_lt hj hN)
    exact ⟨⟨i, Nat.le_trans hi hj, hword⟩, fun hu => hdigits (hunled hu)⟩

theorem replaces_indexSum (a b : Literal) (hop : op = '+' ∨ op = '-') :
    Replaces s ('[' :: (a.1 ++ op :: (b.1 ++ [']'])))
      ("[" ++ (Simplify.combine op a.1 b.1).render ++ "]") := by
  intro rest m N h hN
  simp only [List.cons_append, List.append_assoc, List.nil_append] at h
  obtain ⟨s₁, hopen, h⟩ := Option.bind_eq_some_iff.1 h
  obtain ⟨st, n, rfl⟩ := exists_opened (.inl rfl) hopen
  obtain ⟨-, hrender, j, hj, hrun⟩ := run_sum a b hop (.inr rfl) hN h
  rw [hrender]
  refine ⟨⟨j, hj, ?_⟩, fun hu => ?_⟩
  · rw [← hrun]
    simp [hopen]
  · have hsquare : isWord '[' = false ∧ isWord ']' = false := by decide
    simp only [List.cons_append, List.append_assoc, List.nil_append, unled_mark, unled_cons, hsquare,
      not_word_sign hop] at hu
    simp [unled_mark, unled_cons, hsquare, unled_ofInt, hu]

end Rules

/-- Blanks are not read. -/
theorem not_blank_of_step {s s' : Machine} {c : Char} (h : s.step c = some s') : isBlank c = false := by
  cases hb : isBlank c with
  | false => rfl
  | true =>
    have hw := not_word_of_blank hb
    have hne (d : Char) (hd : isBlank d = false) : c ≠ d := by
      rintro rfl
      simp [hb] at hd
    cases s with
    | fresh => simp [Machine.step, hne '[' (by decide)] at h
    | closed => cases h
    | inside s =>
      have hend : isEnd c = true := by
        simp [isEnd, hw, hne '(' (by decide), hne '[' (by decide)]
      have hfinish (v : Meaning) (n : Nat) (st : List Opening) : finish c v n st = none := by
        fun_cases finish c v n st <;>
          simp_all [hne ')' (by decide), hne ']' (by decide), hne ',' (by decide)]
      cases ht : s.cursor.term? with
      | some r =>
        obtain ⟨lead, t, k⟩ := r
        rw [Machine.step, step_of_term hend ht] at h
        simp [follow, hfinish, hne '+' (by decide), hne '-' (by decide), hne '*' (by decide),
          hne '/' (by decide)] at h
      | none =>
        rw [Machine.step, step_of_lack hend ht] at h
        unfold lack at h
        split at h
        · simp [hne '-' (by decide), hne ')' (by decide)] at h
        · cases h

theorem eq_nil_of_blanks {s s' : Machine} {g rest : Text} (hg : g.allBlank = true)
    (h : s.run (g ++ rest) = some s') : g = [] := by
  cases g with
  | nil => rfl
  | cons c g =>
    obtain ⟨_, hstep, -⟩ := Option.bind_eq_some_iff.1 h
    simp [allBlank, not_blank_of_step hstep] at hg

/-- A rule about groups needs to be looked at only where a factor must come. -/
theorem replaces_group {before old new : Text} {s : Machine}
    (hs : Machine.fresh.run before.reverse = some s) (hg : Simplify.isGroup before = true)
    (H : ∀ lead product st n, Replaces (.inside ⟨.need lead product, st, n⟩) ('(' :: old) new) :
    Replaces s ('(' :: old) new := by
  intro rest m n h hn
  obtain ⟨s', hopen, -⟩ := Option.bind_eq_some_iff.1 h
  obtain ⟨lead, product, st, k, rfl⟩ := exists_need hs hg hopen
  exact H lead product st k rest m n h hn

/-- A match of a rule, where a machine has come to it. -/
theorem replaces_rewrite {before old new : Text} (h : Simplify.Rewrite before old new) {s : Machine}
    (hs : Machine.fresh.run before.reverse = some s) : Replaces s old new := by
  cases h with
  | @word g w g' hgroup hg hg' hne hw =>
    refine replaces_group hs hgroup fun lead product st n => ?_
    intro rest m N h hN
    simp only [List.cons_append, List.append_assoc, List.nil_append] at h
    rw [Machine.run_cons, step_group, Option.bind_some] at h
    obtain rfl := eq_nil_of_blanks hg h
    rw [List.nil_append, Machine.run_append] at h
    obtain ⟨s', hs', h'⟩ := Option.bind_eq_some_iff.1 h
    obtain rfl := eq_nil_of_blanks hg' h'
    refine replaces_word ⟨hne, hw⟩ rest m N ?_ hN
    simp only [List.cons_append, List.append_assoc, List.nil_append] at h' ⊢
    rw [Machine.run_cons, step_group, Option.bind_some, Machine.run_append, hs', Option.bind_some, h']
  | @groupSum a b op hgroup hop ha hb =>
    exact replaces_group hs hgroup fun lead product st n => replaces_groupSum ⟨a, ha⟩ ⟨b, hb⟩ hop rfl
  | @indexSum a b op hop ha hb => exact replaces_indexSum ⟨a, ha⟩ ⟨b, hb⟩ hop
  | undo ho hc hop hne hx => exact replaces_undo ho hc hx hne hop
  | collect hop hne hx ha hb => exact replaces_collect hx hne hop ha hb

/-! ### Passes over an index -/

section Passes
variable {t : Text} {m : Meaning} {n : Nat}

/-- No word reaches into a match, nor into what stands for it. -/
theorem outside_of_rewrite {before old new : Text} (h : Simplify.Rewrite before old new) (rest : Text) :
    StartsOutside isWord (old ++ rest) ∧
      (StartsOutside isWord before ∨ StartsOutside isWord (new ++ rest)) := by
  have hgroup (h : Simplify.isGroup before = true) : StartsOutside isWord before := by
    intro c hc
    simp only [Simplify.isGroup, hc, Option.map_some, Option.getD_some, Bool.and_eq_true, Bool.not_eq_true'] at h
    exact h.1
  cases h with
  | word h | groupSum h => exact ⟨.cons (by decide), .inl (hgroup h)⟩
  | @undo o _ _ _ _ ho =>
    have ho : isWord o = false := by rcases ho with rfl | rfl <;> decide
    exact ⟨.cons ho, .inr (.cons ho)⟩
  | indexSum | collect => exact ⟨.cons (by decide), .inr (.cons (by decide))⟩

theorem accepts_move {u : Text} (hn : n < Nat.pow 2 Count.precision) (hmove : Simplify.Move t u)
    (h : Accepts t m n) : (∃ k ≤ n, Accepts u m k) ∧ (Unled t → Unled u) := by
  cases hmove with
  | intro lead rest hrewrite =>
    rw [Accepts, Machine.run_append] at h
    obtain ⟨s, hs, h⟩ := Option.bind_eq_some_iff.1 h
    obtain ⟨⟨k, hk, hnew⟩, hunled⟩ := replaces_rewrite hrewrite (by rwa [List.reverse_reverse]) rest m n h hn
    obtain ⟨hold, hout⟩ := outside_of_rewrite hrewrite rest
    refine ⟨⟨k, hk, ?_⟩, fun ht => ?_⟩
    · rw [Accepts, Machine.run_append, hs, Option.bind_some, hnew]
    · obtain ⟨hlead, ht⟩ := (unled_append (.inr hold)).1 ht
      exact (unled_append hout).2 ⟨hlead, hunled ht⟩

theorem accepts_iterate (passes : Nat) (hn : n < Nat.pow 2 Count.precision) (h : Accepts t m n) :
    (∃ k ≤ n, Accepts (Simplify.iterate passes t) m k) ∧ (Unled t → Unled (Simplify.iterate passes t)) := by
  have hreach := Simplify.reaches_iterate passes t
  generalize Simplify.iterate passes t = u at hreach
  induction hreach with
  | refl => exact ⟨⟨n, Nat.le_refl n, h⟩, id⟩
  | tail _ hmove ih =>
    obtain ⟨⟨k, hk, hfirst⟩, hunled⟩ := ih
    obtain ⟨⟨j, hj, hlast⟩, hmoved⟩ := accepts_move (Nat.lt_of_le_of_lt hk hn) hmove hfirst
    exact ⟨⟨j, Nat.le_trans hj hk, hlast⟩, hmoved ∘ hunled⟩

end Passes

/-- The subscript of a vector or of a matrix with its leading dimension. -/
inductive Subscript where
  | vector (index : Tree .expr)
  | matrix (row column leading : Tree .expr)

namespace Subscript

def text : Subscript → Text
  | .vector i => vectorSubscript i.print
  | .matrix r c ld => matrixSubscript r.print c.print ld.print

/-- An index less one. -/
def shifted (e : Tree .expr) : Tree .expr := .sub (.plain (.single (.group e))) (.single (.number ⟨['1'], rfl⟩))

/-- The expression between the brackets. -/
def content : Subscript → Tree .expr
  | .vector i => shifted i
  | .matrix r c ld =>
    .add (.plain (.single (.group (shifted r)))) (.mul (.single (.group (shifted c))) (.group ld))

theorem text_eq (b : Subscript) : b.text = "[" ++ b.content.print ++ "]" := by
  cases b with
  | vector i => simp [text, content, shifted, vectorSubscript, Tree.print]
  | matrix r c ld =>
    change "[((" ++ r.print ++ ")-1)+((" ++ c.print ++ ")-1)*(" ++ ld.print ++ ")]" = _
    simp [content, shifted, Tree.print]

end Subscript

/-- A simplified index is an expression again, and its value is the one it had. -/
theorem simplifySubscript_value (b : Subscript) (h : b.content.literals < Nat.pow 2 53) :
    b.text = "[" ++ b.content.print ++ "]" ∧
      (∃ e : Tree .expr, simplifySubscript b.text = "[" ++ e.print ++ "]") ∧
      ∀ e : Tree .expr, simplifySubscript b.text = "[" ++ e.print ++ "]" →
        ∀ I : Reading, e.meaning I = b.content.meaning I := by
  have hb : Accepts b.text b.content.meaning b.content.literals := by
    rw [b.text_eq]
    exact accepts_print b.content
  obtain ⟨⟨k, -, haccepts⟩, -⟩ := accepts_iterate 10 h hb
  have hsimple : Accepts (simplifySubscript b.text) b.content.meaning k := haccepts
  refine ⟨b.text_eq, ?_, fun e he I => ?_⟩
  · obtain ⟨e, he, -⟩ := hsimple.exists_tree
    exact ⟨e, he⟩
  · rw [he] at hsimple
    rw [hsimple.meaning_eq]

/-- The element in row `i-n` and column 3. -/
def sampleSubscript : Subscript :=
  .matrix (.sub (.plain (.single (.name ⟨"i", by decide⟩))) (.single (.name ⟨"n", by decide⟩)))
    (.plain (.single (.number ⟨"3", rfl⟩))) (.plain (.single (.name ⟨"lda", by decide⟩)))

def sampleSimple : Tree .expr :=
  .add (.plain (.single (.group (.sub (.plain (.single (.name ⟨"i", by decide⟩)))
      (.single (.group (.add (.plain (.single (.name ⟨"n", by decide⟩)))
        (.single (.number ⟨"1", rfl⟩)))))))))
    (.mul (.single (.number ⟨"2", rfl⟩)) (.name ⟨"lda", by decide⟩))

theorem simplifySubscript_value_sample :
    sampleSubscript.content.literals < Nat.pow 2 53 ∧
      simplifySubscript sampleSubscript.text = "[(i-(n+1))+2*lda]".toList ∧
      ∀ I : Reading, sampleSimple.meaning I = sampleSubscript.content.meaning I := by
  have hlit : sampleSubscript.content.literals < Nat.pow 2 53 := by decide
  have hsimple : simplifySubscript sampleSubscript.text = "[(i-(n+1))+2*lda]".toList := by
    decide +kernel
  exact ⟨hlit, hsimple, (simplifySubscript_value sampleSubscript hlit).2.2 sampleSimple hsimple⟩

end FixedForm.Index
