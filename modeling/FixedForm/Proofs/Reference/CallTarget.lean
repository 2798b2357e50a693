import FixedForm.Proofs.Text.Classes
import FixedForm.Reference.Linearize
import Mathlib.Data.Option.Basic

/-! The CALL of a text is the first `call name(` in it.  What follows a first part of the text has no
influence on a CALL whose parenthesis is in that part. -/
namespace FixedForm.Reference
open Text

/-- A text starts with `call`, a name and a parenthesis, which has the place `k`.  The text before it,
nearest character first, ends in no word. -/
inductive CallHead (before : Text) : (t : Text) → (k : Nat) → (name : Text) → Prop where
  | intro {g name g' : Text} (rest : Text) (hb : before.wordEnds = true) (hg : g.allBlank = true) (hne : g ≠ [])
      (hn : name ≠ []) (hw : ∀ c ∈ name, isWord c = true) (hg' : g'.allBlank = true) :
      CallHead before ("call" ++ (g ++ (name ++ (g' ++ '(' :: rest))))
        (4 + g.length + name.length + g'.length) name

/-- The parenthesis and the name of a `call name(` at the start of a text. -/
def callHead? (before t : Text) : Option (Nat × Text) := do
  guard before.wordEnds
  let rest ← Text.after? "call" t
  let rest ← rest.blanks?
  let (name, rest) ← Text.word? rest
  guard (Text.startsWith "(" rest.trimStart)
  some (t.length - rest.trimStart.length, name)

theorem callTarget?_cons (before : Text) (i : Nat) (c : Char) (t : Text) :
    callTarget? before i (c :: t) =
      (((callHead? before (c :: t)).map fun (k, name) => (i + k, name)) <|>
        callTarget? (c :: before) (i + 1) t) := by
  rw [callTarget?, callHead?]
  simp only [Option.bind_eq_bind, Option.map_bind, Function.comp_def, Option.map_some]

section Head
variable {before t : Text} {k : Nat} {name : Text}

theorem CallHead.callHead?_eq (h : CallHead before t k name) : callHead? before t = some (k, name) := by
  cases h with
  | @intro g _ g' rest hb hg hne hn hw hg' =>
    have hstart : StartsOutside isBlank (name ++ (g' ++ '(' :: rest)) := by
      refine .append hn fun c hc => ?_
      exact not_blank_of_word (hw c (List.mem_of_mem_head? hc))
    have hword : StartsOutside isWord (g' ++ '(' :: rest) := outside_word_gap hg' (.cons (by decide))
    have htrim : trimStart (g' ++ '(' :: rest) = '(' :: rest := trimStart_run hg' (.cons (by decide))
    have hlen : ("call" ++ (g ++ (name ++ (g' ++ '(' :: rest)))).length - ('(' :: rest).length =
        4 + g.length + name.length + g'.length := by
      simp only [List.length_append, List.length_cons]
      have h4 : "call".toList.length = 4 := rfl
      omega
    rw [callHead?, hb, after?_append]
    simp only [Option.bind_eq_bind, Option.bind_some, blanks?_run hg hne hstart, word?_run hw hn hword, htrim, hlen]
    rfl

theorem callHead?_eq_some_iff : callHead? before t = some (k, name) ↔ CallHead before t k name := by
  refine ⟨fun h => ?_, CallHead.callHead?_eq⟩
  have hparts := h
  simp only [callHead?, Option.bind_eq_bind, Option.bind_eq_some_iff, Option.guard_eq_some'] at hparts
  obtain ⟨-, hb, u, hu, v, hv, ⟨w, x⟩, hw, -, hx, -⟩ := hparts
  obtain ⟨g, rfl, hg, hne⟩ := eq_of_blanks? hv
  obtain ⟨rfl, hn, hword⟩ := eq_of_word? hw
  obtain ⟨rest, hrest⟩ := Option.isSome_iff_exists.1 hx
  have hgap : x = x.takeWhile isBlank ++ '(' :: rest := by
    have hparen : x.trimStart = '(' :: rest := eq_of_after? hrest
    rw [← hparen]
    exact List.takeWhile_append_dropWhile.symm
  have hc := CallHead.intro rest hb hg hne hn hword (allBlank_takeWhile (t := x))
  rw [← hgap, ← eq_of_after? hu] at hc
  obtain ⟨rfl, rfl⟩ := Prod.mk.inj (Option.some.inj (hc.callHead?_eq.symm.trans h))
  exact hc

/-- A text that starts with a CALL, or where the search goes on behind its first character. -/
theorem callTarget?_cases (before : Text) (i : Nat) (c : Char) (t : Text) :
    (∃ k name, CallHead before (c :: t) k name ∧ callTarget? before i (c :: t) = some (i + k, name)) ∨
      ((∀ k name, ¬ CallHead before (c :: t) k name) ∧
        callTarget? before i (c :: t) = callTarget? (c :: before) (i + 1) t) := by
  rw [callTarget?_cons]
  cases h : callHead? before (c :: t) with
  | some head => exact .inl ⟨head.1, head.2, callHead?_eq_some_iff.1 h, rfl⟩
  | none =>
    refine .inr ⟨fun k name hc => ?_, rfl⟩
    rw [hc.callHead?_eq] at h
    cases h

/-- No CALL starts in `u`, behind `before` and ahead of `t`. -/
def NoCall (before u t : Text) : Prop :=
  ∀ k < u.length, callHead? ((u.take k).reverse ++ before) (u.drop k ++ t) = none

instance (before u t : Text) : Decidable (NoCall before u t) :=
  inferInstanceAs (Decidable (∀ k < u.length, callHead? ((u.take k).reverse ++ before) (u.drop k ++ t) = none))

theorem NoCall.tail {c : Char} {u : Text} (h : NoCall before (c :: u) t) : NoCall (c :: before) u t := by
  intro k hk
  have hc := h (k + 1) (Nat.succ_lt_succ hk)
  simpa using hc

theorem CallHead.head?_eq (h : CallHead before t k name) : t.head? = some 'c' := by
  cases h
  rfl

theorem noCall_blanks {g : Text} (hg : g.allBlank = true) (before t : Text) : NoCall before g t := by
  intro j hj
  cases h : callHead? ((g.take j).reverse ++ before) (g.drop j ++ t) with
  | none => rfl
  | some head =>
    have hc := (callHead?_eq_some_iff.1 h).head?_eq
    rw [List.drop_eq_getElem_cons hj] at hc
    have hblank := mem_of_allBlank hg _ (List.getElem_mem hj)
    rw [Option.some.inj hc] at hblank
    exact absurd hblank (by decide)

/-- A CALL is found when none comes before it. -/
theorem callTarget?_first {u : Text} (i : Nat) (h : CallHead (u.reverse ++ before) t k name)
    (hfirst : NoCall before u t) : callTarget? before i (u ++ t) = some (i + u.length + k, name) := by
  induction u generalizing before i with
  | nil =>
    cases t with
    | nil => nomatch h
    | cons c t =>
      obtain ⟨k', name', h', he⟩ | ⟨hnone, -⟩ := callTarget?_cases before i c t
      · obtain ⟨rfl, rfl⟩ := Prod.mk.inj (Option.some.inj (h'.callHead?_eq.symm.trans h.callHead?_eq))
        exact he
      · exact absurd h (hnone k name)
  | cons c u ih =>
    obtain ⟨k', name', h', -⟩ | ⟨-, he⟩ := callTarget?_cases before i c (u ++ t)
    · exact absurd (h'.callHead?_eq.symm.trans (hfirst 0 (Nat.succ_pos _))) (by simp)
    · rw [List.cons_append, he, ih (i + 1) (by simpa using h) hfirst.tail, List.length_cons]
      simp [Nat.add_assoc, Nat.add_comm 1]

end Head

/-! ### A first part of a text -/

section Part
variable {before p q : Text} {k : Nat} {name : Text}

theorem CallHead.mem (h : CallHead before p k name) : '(' ∈ p := by
  cases h
  simp

theorem CallHead.append (h : CallHead before p k name) (q : Text) : CallHead before (p ++ q) k name := by
  cases h with
  | intro rest hb hg hne hn hw hg' =>
    have hc := CallHead.intro (rest ++ q) hb hg hne hn hw hg'
    simpa using hc

/-- The head of a CALL is in the first part, or that part has no parenthesis. -/
theorem CallHead.part (h : CallHead before (p ++ q) k name) :
    CallHead before p k name ∨ (p.length ≤ k ∧ '(' ∉ p) := by
  generalize ht : p ++ q = t at h
  cases h with
  | @intro g _ g' rest hb hg hne hn hw hg' =>
    have hhead : "call" ++ (g ++ (name ++ (g' ++ '(' :: rest))) = ("call" ++ (g ++ (name ++ g'))) ++ '(' :: rest := by
      simp
    rw [hhead] at ht
    have hlen : ("call" ++ (g ++ (name ++ g'))).length = 4 + g.length + name.length + g'.length := by
      simp only [List.length_append]
      have h4 : "call".toList.length = 4 := rfl
      omega
    have hflat : '(' ∉ "call" ++ (g ++ (name ++ g')) := by
      have hblank {b : Text} (hb : b.allBlank = true) : '(' ∉ b := fun h =>
        absurd (mem_of_allBlank hb _ h) (by decide)
      simp only [List.mem_append, not_or]
      exact ⟨by decide, hblank hg, fun h => absurd (hw _ h) (by decide), hblank hg'⟩
    rcases List.append_eq_append_iff.1 ht with ⟨x, hx, -⟩ | ⟨x, rfl, hq⟩
    · refine .inr ⟨?_, fun hmem => hflat (hx ▸ List.mem_append_left x hmem)⟩
      rw [← hlen, hx]
      simp
    · cases x with
      | nil =>
        rw [List.append_nil]
        exact .inr ⟨Nat.le_of_eq hlen, hflat⟩
      | cons c x =>
        obtain ⟨rfl, -⟩ := List.cons.inj hq
        have hc := CallHead.intro x hb hg hne hn hw hg'
        exact .inl (by simpa using hc)

/-- A text without parentheses has no CALL. -/
theorem callTarget?_of_not_mem (h : '(' ∉ p) (before : Text) (i : Nat) : callTarget? before i p = none := by
  induction p generalizing before i with
  | nil => rfl
  | cons c p ih =>
    obtain ⟨k, name, hc, -⟩ | ⟨-, he⟩ := callTarget?_cases before i c p
    · exact absurd hc.mem h
    · rw [he, ih fun hp => h (List.mem_cons_of_mem c hp)]

theorem le_of_callTarget? {i place : Nat} (h : callTarget? before i p = some (place, name)) : i ≤ place := by
  induction p generalizing before i with
  | nil => cases h
  | cons c p ih =>
    obtain ⟨k, name', -, he⟩ | ⟨-, he⟩ := callTarget?_cases before i c p
    · obtain ⟨rfl, -⟩ := Prod.mk.inj (Option.some.inj (he.symm.trans h))
      exact Nat.le_add_right i k
    · exact Nat.le_of_succ_le (ih (he.symm.trans h))

/-- The CALL of a text is that of its first part, or its parenthesis lies behind that part. -/
theorem callTarget?_append (before : Text) (i : Nat) (p q : Text) :
    callTarget? before i (p ++ q) = callTarget? before i p ∨
      (callTarget? before i p = none ∧
        ∀ place name, callTarget? before i (p ++ q) = some (place, name) → i + p.length ≤ place) := by
  induction p generalizing before i with
  | nil => exact .inr ⟨rfl, fun place name h => le_of_callTarget? h⟩
  | cons c p ih =>
    obtain ⟨k, name, hc, he⟩ | ⟨hnone, he⟩ := callTarget?_cases before i c (p ++ q)
    · rw [List.cons_append, he]
      rcases (show CallHead before ((c :: p) ++ q) k name from hc).part with hp | ⟨hk, hp⟩
      · obtain ⟨k', name', hp', he'⟩ | ⟨hnone, -⟩ := callTarget?_cases before i c p
        · obtain ⟨rfl, rfl⟩ := Prod.mk.inj (Option.some.inj (hp'.callHead?_eq.symm.trans hp.callHead?_eq))
          exact .inl he'.symm
        · exact absurd hp (hnone k name)
      · refine .inr ⟨callTarget?_of_not_mem hp before i, fun place name h => ?_⟩
        cases h
        exact Nat.add_le_add_left hk i
    · have hp : callTarget? before i (c :: p) = callTarget? (c :: before) (i + 1) p := by
        obtain ⟨k, name, hc, -⟩ | ⟨-, hp⟩ := callTarget?_cases before i c p
        · exact absurd (hc.append q) (hnone k name)
        · exact hp
      rw [List.cons_append, he, hp, List.length_cons, Nat.add_comm p.length, ← Nat.add_assoc]
      exact ih (c :: before) (i + 1)

end Part

end FixedForm.Reference
