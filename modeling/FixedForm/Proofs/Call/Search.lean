import FixedForm.Call.Site
import FixedForm.Proofs.Text.Alike
import Mathlib.Data.Option.Basic

/-! The search for call sites in texts that are alike.  It goes through the whole text, the contents of
literals included; where they hold no call and no reference, it comes to the same sites. -/
namespace FixedForm
open Text (Alike)

namespace CallSite

/-- A call at the start of a text: its name, and what follows the blanks after it. -/
def callHere? (t : Text) : Option (Text × Text) := do
  let rest ← Text.after? "call" t
  let rest ← rest.blanks?
  let (name, rest) ← Text.word? rest
  some (name, rest.trimStart)

theorem findCall?_cons (before : Text) (c : Char) (t : Text) : findCall? before (c :: t) =
    match if before.wordEnds then callHere? (c :: t) else none with
    | some (name, rest) => some (before.reverse, name, rest)
    | none => findCall? (c :: before) t := by
  rw [findCall?]
  cases before.wordEnds with
  | false => rfl
  | true =>
    simp only [callHere?]
    cases Text.after? "call" (c :: t) with
    | none => rfl
    | some rest =>
      cases hb : rest.blanks? with
      | none => simp [hb]
      | some rest =>
        cases hw : rest.word? with
        | none => simp [hb, hw]
        | some r => simp [hb, hw]

theorem callHere?_quote {q : Char} (hq : isQuote q = true) (x t : Text) :
    callHere? (x ++ q :: t) = (callHere? x).map fun r => (r.1, r.2 ++ q :: t) := by
  rw [callHere?, callHere?, Text.after?_quote hq (Text.not_quote_of_all rfl)]
  cases Text.after? "call" x with
  | none => rfl
  | some rest =>
    simp only [Option.map_some, Option.bind_eq_bind, Option.bind_some, Text.blanks?_quote hq]
    cases rest.blanks? with
    | none => rfl
    | some rest =>
      simp only [Option.map_some, Option.bind_some, Text.word?_quote hq]
      cases rest.word? with
      | none => rfl
      | some r => simp [Text.trimStart_quote hq]

/-- A quote starts no call. -/
theorem findCall?_quote {q : Char} (hq : isQuote q = true) (before t : Text) :
    findCall? before (q :: t) = findCall? (q :: before) t := by
  have hhere : callHere? (q :: t) = none := callHere?_quote hq [] t
  rw [findCall?_cons, hhere, ite_self]

/-- The search passes over a text that ends at a quote and holds no call. -/
theorem findCall?_pass {q : Char} (hq : isQuote q = true) {x before front : Text}
    (hx : findCall? front x = none) (hw : before.wordEnds = front.wordEnds) (t : Text) :
    findCall? before (x ++ q :: t) = findCall? (q :: (x.reverse ++ before)) t := by
  induction x generalizing before front with
  | nil => exact findCall?_quote hq before t
  | cons c x ih =>
    rw [findCall?_cons] at hx
    split at hx
    · cases hx
    · next hhere =>
      have hhere' : (if before.wordEnds then callHere? (c :: x ++ q :: t) else none) = none := by
        rw [hw, callHere?_quote hq]
        cases hf : front.wordEnds with
        | false => rfl
        | true =>
          rw [hf, if_pos rfl] at hhere
          rw [if_pos rfl, hhere]
          rfl
      have hrest : findCall? (c :: before) (x ++ q :: t) =
          findCall? (q :: (x.reverse ++ c :: before)) t := ih hx rfl
      rw [List.cons_append] at hhere' ⊢
      rw [findCall?_cons, hhere', hrest, List.reverse_cons, List.append_assoc]
      rfl

variable {R : Char → Text → Text → Prop}

theorem callHere?_alike {t u : Text} (h : Alike R t u) :
    Option.Rel (fun r r' => r.1 = r'.1 ∧ Alike R r.2 r'.2) (callHere? t) (callHere? u) :=
  Text.bind_of_rel (h.after? (Text.not_quote_of_all rfl)) fun _ _ h => Text.bind_of_rel h.blanks? fun _ _ h =>
    Text.bind_of_rel h.word? fun _ _ h => .some ⟨h.1, h.2.trimStart⟩

/-- The first calls of texts that are alike, where literals hold none. -/
theorem findCall?_alike (hR : ∀ q x y, R q x y → findCall? [] x = none ∧ findCall? [] y = none)
    {t u before before' : Text} (h : Alike R t u) (hb : Alike R before.reverse before'.reverse)
    (hw : before.wordEnds = before'.wordEnds) :
    Option.Rel (fun r r' => Alike R r.1 r'.1 ∧ r.2.1 = r'.2.1 ∧ Alike R r.2.2 r'.2.2)
      (findCall? before t) (findCall? before' u) := by
  induction h generalizing before before' with
  | nil => exact .none
  | @code c t u hc h ih =>
    have hhere := callHere?_alike (.code hc h)
    have hbefore : Alike R (c :: before).reverse (c :: before').reverse := by
      rw [List.reverse_cons, List.reverse_cons]
      exact hb.append (.code hc .nil)
    have hrest := ih hbefore rfl
    rw [findCall?_cons, findCall?_cons, hw]
    generalize callHere? (c :: t) = o at hhere ⊢
    generalize callHere? (c :: u) = o' at hhere ⊢
    cases before'.wordEnds with
    | false => exact hrest
    | true =>
      cases hhere with
      | none => exact hrest
      | some hr => exact .some ⟨hb, hr⟩
  | @literal q x y t u hq hxy h ih =>
    -- No word runs over a quote, so the contents are searched as a text of their own.
    obtain ⟨hx, hy⟩ := hR q x y hxy
    have hends (v : Text) : Text.wordEnds (q :: v) = Text.wordEnds [] := by
      simp [Text.wordEnds, Text.outside_of_quote (p := isWord) (by decide) hq]
    rw [findCall?_quote hq, findCall?_quote hq, findCall?_pass hq hx (hends before),
      findCall?_pass hq hy (hends before')]
    refine ih ?_ ((hends _).trans (hends _).symm)
    simpa using hb.quoted hq hxy

theorem parenWords_word {c : Char} (hc : isWord c = true) (t : Text) : parenWords (c :: t) =
    if Text.startsWith "(" (Text.trimStart (t.dropWhile isWord)) then
      (c :: t.takeWhile isWord, Text.trimStart (t.dropWhile isWord)) :: parenWords (t.dropWhile isWord)
    else parenWords (t.dropWhile isWord) := by
  rw [parenWords, if_pos hc]

theorem parenWords_mark {c : Char} (hc : isWord c = false) (t : Text) :
    parenWords (c :: t) = parenWords t := by
  rw [parenWords, if_neg (by simp [hc])]

/-- The words before a parenthesis up to a quote, and those behind it. -/
theorem parenWords_quote {q : Char} (hq : isQuote q = true) (x t : Text) :
    parenWords (x ++ q :: t) =
      (parenWords x).map (fun r => (r.1, r.2 ++ q :: t)) ++ parenWords t := by
  have hscan (x : Text) := Text.scan_quote hq (p := isWord) (by decide) x t
  have hgroup (x : Text) : Text.startsWith "(" (x ++ q :: t) = Text.startsWith "(" x := by
    rw [Text.startsWith, Text.after?_quote hq (Text.not_quote_of_all rfl), Option.isSome_map]
    rfl
  fun_induction parenWords x with
  | case1 =>
    exact parenWords_mark (Text.outside_of_quote (by decide) hq) t
  | case2 c x hc after group rest hstart ih =>
    rw [List.cons_append, parenWords_word hc, (hscan x).1, (hscan x).2, Text.trimStart_quote hq, hgroup,
      if_pos hstart, ih]
    rfl
  | case3 c x hc after group rest hstart ih =>
    rw [List.cons_append, parenWords_word hc, (hscan x).2, Text.trimStart_quote hq, hgroup,
      if_neg hstart, ih]
  | case4 c x hc ih => rw [List.cons_append, parenWords_mark (by simpa using hc), ih]

/-- The references in texts that are alike, where literals hold none. -/
theorem parenWords_alike {p : Text → Bool}
    (hR : ∀ q x y, R q x y → (∀ r ∈ parenWords x, p r.1 = false) ∧ ∀ r ∈ parenWords y, p r.1 = false)
    {t u : Text} (h : Alike R t u) :
    List.Forall₂ (fun r r' => r.1 = r'.1 ∧ Text.startsWith "(" r.2 = true ∧ Alike R r.2 r'.2)
      ((parenWords t).filter (p ·.1)) ((parenWords u).filter (p ·.1)) := by
  induction hn : t.length using Nat.strongRecOn generalizing t u with
  | ind n ih =>
    cases h with
    | nil =>
      rw [parenWords]
      exact .nil
    | @code c t u hc h =>
      cases hw : isWord c with
      | false =>
        rw [parenWords_mark hw, parenWords_mark hw]
        exact ih t.length (by simp [← hn]) h rfl
      | true =>
        obtain ⟨htake, hdrop⟩ := h.scan (p := isWord) (by decide)
        have hlength : (t.dropWhile isWord).length < n :=
          hn ▸ Nat.lt_succ_of_le (Text.length_dropWhile_le isWord t)
        have hrest := ih _ hlength hdrop rfl
        have hstart : Text.startsWith "(" (Text.trimStart (t.dropWhile isWord)) =
            Text.startsWith "(" (Text.trimStart (u.dropWhile isWord)) :=
          hdrop.trimStart.startsWith (Text.not_quote_of_all rfl)
        rw [parenWords_word hw, parenWords_word hw, ← hstart, htake]
        split
        · next hs =>
          rw [List.filter_cons, List.filter_cons]
          split
          · exact .cons ⟨rfl, hs, hdrop.trimStart⟩ hrest
          · exact hrest
        · exact hrest
    | @literal q x y t u hq hxy h =>
      obtain ⟨hx, hy⟩ := hR q x y hxy
      have hpass {z v : Text} (hz : ∀ r ∈ parenWords z, p r.1 = false) :
          (parenWords (q :: (z ++ q :: v))).filter (p ·.1) = (parenWords v).filter (p ·.1) := by
        rw [parenWords_mark (Text.outside_of_quote (by decide) hq), parenWords_quote hq,
          List.filter_append]
        have hnone : ((parenWords z).map fun r => (r.1, r.2 ++ q :: v)).filter (p ·.1) = [] := by
          refine List.filter_eq_nil_iff.2 fun r hr => ?_
          obtain ⟨s, hs, rfl⟩ := List.mem_map.1 hr
          simp [hz s hs]
        rw [hnone, List.nil_append]
      rw [hpass hx, hpass hy]
      exact ih t.length (by simp [← hn]; omega) h rfl

/-- What is inside the parenthesis that a text starts with. -/
def inside (group : Text) : Text :=
  match group.closing? with
  | some closing => (group.take closing).drop 1
  | none => group.drop 1

theorem arguments_eq (group : Text) :
    arguments group = Argument.split (Quote.toDouble (inside group)) := rfl

theorem inside_alike (hR : ∀ q x y, R q x y → Text.Nested x ∧ Text.Nested y) {t u : Text}
    (h : Alike R t u) (ht : Text.startsWith "(" t = true) : Alike R (inside t) (inside u) := by
  have hclosed {a v : Text} (hv : Text.balance '(' ')' 1 1 v = some (1 + a.length)) (ha : a <+: v) :
      inside ('(' :: v) = a := by
    obtain ⟨rest, rfl⟩ := ha
    simp [inside, Text.closing?, Text.balance_up, hv, Nat.add_comm 1]
  have hopen {v : Text} (hv : Text.balance '(' ')' 1 1 v = none) : inside ('(' :: v) = v := by
    simp [inside, Text.closing?, Text.balance_up, hv]
  cases h with
  | nil => cases ht
  | @code c t u hc h =>
    obtain rfl : c = '(' := by
      simpa [Text.startsWith, Text.after?] using ht
    rcases h.balance hR 0 1 1 with ⟨hn, hn'⟩ | ⟨a, a', ha, ha', hl, hl', halike⟩
    · rw [hopen hn, hopen hn']
      exact h
    · rw [hclosed ha hl, hclosed ha' hl']
      exact halike
  | @literal q x y t u hq hxy h =>
    obtain rfl : q = '(' := by
      simpa [Text.startsWith, Text.after?] using ht
    cases hq

end CallSite

end FixedForm
