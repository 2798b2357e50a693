import FixedForm.Proofs.Text.Literal
import FixedForm.Proofs.Text.Parens
import Mathlib.Data.List.Forall2

/-! Texts that differ only between the quotes of their literals.  Readers that pass over literals as a
whole, and find nothing between their quotes, come to texts of the same kind. -/
namespace FixedForm

/-- What a literal holds between its quotes. -/
def Stretch.contents? : Stretch → Option Text
  | .code _ => none
  | .literal t => some (t.drop 1).dropLast

namespace Text

/-- What the literals of a text hold. -/
def contents (t : Text) : List Text := t.stretches.filterMap Stretch.contents?

theorem contents_eq (t : Text) : contents t =
    match t.dropWhile (!isQuote ·) with
    | [] => []
    | q :: body =>
      match body.dropWhile (· != q) with
      | [] => [body.dropLast]
      | _ :: rest => body.takeWhile (· != q) :: contents rest := by
  rw [contents, stretches]
  split
  · next h =>
    rw [h]
    rfl
  · next q body h =>
    rw [h]
    dsimp only
    split
    · next hb =>
      rw [hb]
      rfl
    · next hb =>
      have hliteral : Stretch.contents? (.literal (q :: body.takeWhile (· != q) ++ [q])) =
          some (body.takeWhile (· != q)) := by
        simp [Stretch.contents?]
      rw [hb, List.filterMap_cons_none rfl, List.filterMap_cons_some hliteral]
      rfl

theorem contents_code {c : Char} (hc : isQuote c = false) (t : Text) : contents (c :: t) = contents t := by
  rw [contents_eq, contents_eq t, List.dropWhile_cons_of_pos (by simp [hc])]

theorem contents_literal {q : Char} (hq : isQuote q = true) {x : Text} (hx : q ∉ x) (t : Text) :
    contents (q :: (x ++ q :: t)) = x :: contents t := by
  have hin (c : Char) (hc : c ∈ x) : (c != q) = true := by
    simpa using fun he : c = q => hx (he ▸ hc)
  rw [contents_eq, List.dropWhile_cons_of_neg (by simp [hq])]
  simp only [List.dropWhile_append_of_pos hin, List.takeWhile_append_of_pos hin]
  simp

end Text

namespace Text

/-- The same code, and literals with contents in the relation. -/
inductive Alike (R : Char → Text → Text → Prop) : Text → Text → Prop
  | nil : Alike R [] []
  | code {c : Char} {t u : Text} (hc : isQuote c = false) (h : Alike R t u) :
    Alike R (c :: t) (c :: u)
  | literal {q : Char} {x y t u : Text} (hq : isQuote q = true) (hxy : R q x y) (h : Alike R t u) :
    Alike R (q :: (x ++ q :: t)) (q :: (y ++ q :: u))

theorem eq_of_isQuote {c : Char} (h : isQuote c = true) : c = '\x27' ∨ c = '"' := by
  simpa [isQuote] using h

/-- A class of characters without the quotes. -/
theorem outside_of_quote {p : Char → Bool} (hp : (p '\x27' || p '"') = false) {c : Char}
    (hc : isQuote c = true) : p c = false := by
  rw [Bool.or_eq_false_iff] at hp
  rcases eq_of_isQuote hc with rfl | rfl
  · exact hp.1
  · exact hp.2

theorem ne_of_isQuote {c d : Char} (hc : isQuote c = false) (hd : isQuote d = true) : c ≠ d := by
  rintro rfl
  exact Bool.noConfusion (hc.symm.trans hd)

theorem not_quote_of_word {c : Char} (h : isWord c = true) : isQuote c = false :=
  Bool.eq_false_iff.2 fun hq => by simp [outside_of_quote (p := isWord) (by decide) hq] at h

theorem not_quote_of_all {t : Text} (h : (t.all fun c => !isQuote c) = true) :
    ∀ c ∈ t, isQuote c = false := by
  simpa using h

theorem trimEnd_solid {c : Char} (hc : isBlank c = false) (t : Text) :
    trimEnd (c :: t) = c :: trimEnd t := by
  rw [← List.singleton_append]
  cases hb : t.allBlank with
  | true =>
    have ht : trimEnd t = [] := trimEnd_blanks (t := []) hb
    rw [trimEnd_blanks hb, ht]
    exact trimEnd_of_last (t := []) hc
  | false => exact trimEnd_append hb

theorem isSome_of_rel {α β : Type} {r : α → β → Prop} {a : Option α} {b : Option β}
    (h : Option.Rel r a b) : a.isSome = b.isSome := by
  cases h <;> rfl

theorem bind_of_rel {α β γ δ : Type} {r : α → β → Prop} {p : γ → δ → Prop} {a : Option α}
    {b : Option β} {f : α → Option γ} {g : β → Option δ} (h : Option.Rel r a b)
    (hfg : ∀ x y, r x y → Option.Rel p (f x) (g y)) : Option.Rel p (a.bind f) (b.bind g) := by
  cases h with
  | none => exact .none
  | some h => exact hfg _ _ h

section Readers
variable {q : Char} (hq : isQuote q = true)
include hq

/-! A reader that passes no quote finds before a quote what it finds in the text that ends there. -/

theorem after?_quote {lead : Text} (hl : ∀ c ∈ lead, isQuote c = false) (x t : Text) :
    after? lead (x ++ q :: t) = (after? lead x).map (· ++ q :: t) :=
  after?_mark x t fun hm => Bool.noConfusion ((hl q hm).symm.trans hq)

theorem scan_quote {p : Char → Bool} (hp : (p '\x27' || p '"') = false) (x t : Text) :
    (x ++ q :: t).takeWhile p = x.takeWhile p ∧
      (x ++ q :: t).dropWhile p = x.dropWhile p ++ q :: t :=
  scan_mark x t (outside_of_quote hp hq)

theorem trimStart_quote (x t : Text) :
    trimStart (x ++ q :: t) = trimStart x ++ q :: t :=
  trimStart_mark x t (outside_of_quote (by decide) hq)

theorem blanks?_quote (x t : Text) :
    blanks? (x ++ q :: t) = (blanks? x).map (· ++ q :: t) :=
  blanks?_mark x t (outside_of_quote (by decide) hq)

theorem word?_quote (x t : Text) :
    word? (x ++ q :: t) = (word? x).map fun r => (r.1, r.2 ++ q :: t) := by
  obtain ⟨htake, hdrop⟩ := scan_quote hq (p := isWord) (by decide) x t
  rw [word?, word?, htake, hdrop]
  split <;> rfl

end Readers

namespace Alike
variable {R : Char → Text → Text → Prop} {t t' u u' : Text}

theorem of_free (h : ∀ c ∈ t, isQuote c = false) : Alike R t t := by
  induction t with
  | nil => exact .nil
  | cons c t ih => exact .code (h c (by simp)) (ih fun d hd => h d (by simp [hd]))

/-- What the literals of the texts hold may be added to the relation. -/
theorem with_contents {P : Text → Prop} (hR : ∀ q x y, isQuote q = true → R q x y → q ∉ x ∧ q ∉ y)
    (h : Alike R t u) (ht : ∀ x ∈ contents t, P x) (hu : ∀ y ∈ contents u, P y) :
    Alike (fun q x y => R q x y ∧ P x ∧ P y) t u := by
  induction h with
  | nil => exact .nil
  | code hc _ ih =>
    rw [contents_code hc] at ht hu
    exact .code hc (ih ht hu)
  | literal hq hxy _ ih =>
    rw [contents_literal hq (hR _ _ _ hq hxy).1] at ht
    rw [contents_literal hq (hR _ _ _ hq hxy).2] at hu
    exact .literal hq ⟨hxy, ht _ (by simp), hu _ (by simp)⟩
      (ih (fun x hx => ht x (by simp [hx])) fun y hy => hu y (by simp [hy]))

theorem append (h : Alike R t u) (h' : Alike R t' u') : Alike R (t ++ t') (u ++ u') := by
  induction h with
  | nil => exact h'
  | code hc _ ih => exact .code hc ih
  | literal hq hxy _ ih =>
    simp only [List.cons_append, List.append_assoc]
    exact .literal hq hxy ih

/-- Contents between quotes, behind texts that are alike. -/
theorem quoted {q : Char} {x y : Text} (h : Alike R t u) (hq : isQuote q = true) (hxy : R q x y) :
    Alike R (t ++ q :: (x ++ [q])) (u ++ q :: (y ++ [q])) :=
  h.append (.literal hq hxy .nil)

theorem head?_eq (h : Alike R t u) : t.head? = u.head? := by
  cases h <;> rfl

theorem eq_or_quote (h : Alike R t u) :
    t = u ∨ (∃ c ∈ t, isQuote c = true) ∧ ∃ c ∈ u, isQuote c = true := by
  induction h with
  | nil => exact .inl rfl
  | code _ _ ih =>
    rcases ih with rfl | ⟨⟨c, hc, hq⟩, ⟨d, hd, hq'⟩⟩
    · exact .inl rfl
    · exact .inr ⟨⟨c, by simp [hc], hq⟩, ⟨d, by simp [hd], hq'⟩⟩
  | @literal q _ _ _ _ hq _ _ => exact .inr ⟨⟨q, by simp, hq⟩, ⟨q, by simp, hq⟩⟩

/-- A run of characters that are no quotes, and what follows it. -/
theorem scan {p : Char → Bool} (hp : (p '\x27' || p '"') = false) (h : Alike R t u) :
    t.takeWhile p = u.takeWhile p ∧ Alike R (t.dropWhile p) (u.dropWhile p) := by
  induction h with
  | nil => exact ⟨rfl, .nil⟩
  | @code c t u hc h ih =>
    cases hpc : p c with
    | true => simpa [hpc] using ih
    | false => simpa [hpc] using .code hc h
  | @literal q x y t u hq hxy h ih =>
    have hpq := outside_of_quote hp hq
    simpa [hpq] using .literal hq hxy h

theorem trimStart (h : Alike R t u) : Alike R t.trimStart u.trimStart :=
  (h.scan (by decide)).2

theorem after? {lead : Text} (hl : ∀ c ∈ lead, isQuote c = false) (h : Alike R t u) :
    Option.Rel (Alike R) (Text.after? lead t) (Text.after? lead u) := by
  induction lead generalizing t u with
  | nil => exact .some h
  | cons a lead ih =>
    cases h with
    | nil => exact .none
    | @code c t u hc h =>
      rw [Text.after?, Text.after?]
      split
      · exact ih (fun c hm => hl c (by simp [hm])) h
      · exact .none
    | @literal q x y t u hq hxy h =>
      have hne : ¬ (q == a) = true := by
        simpa using (ne_of_isQuote (hl a (by simp)) hq).symm
      rw [Text.after?, Text.after?, if_neg hne, if_neg hne]
      exact .none

theorem startsWith {lead : Text} (hl : ∀ c ∈ lead, isQuote c = false) (h : Alike R t u) :
    Text.startsWith lead t = Text.startsWith lead u :=
  isSome_of_rel (h.after? hl)

theorem blanks? (h : Alike R t u) : Option.Rel (Alike R) t.blanks? u.blanks? := by
  cases h with
  | nil => exact .none
  | code _ h =>
    rw [Text.blanks?, Text.blanks?]
    split
    · exact .some h.trimStart
    · exact .none
  | literal hq _ _ =>
    have hb := outside_of_quote (p := isBlank) (by decide) hq
    rw [Text.blanks?, Text.blanks?, if_neg (by simp [hb]), if_neg (by simp [hb])]
    exact .none

theorem word? (h : Alike R t u) :
    Option.Rel (fun r r' => r.1 = r'.1 ∧ Alike R r.2 r'.2) t.word? u.word? := by
  obtain ⟨htake, hdrop⟩ := h.scan (p := isWord) (by decide)
  rw [Text.word?, Text.word?, htake]
  split
  · exact .none
  · exact .some ⟨rfl, hdrop⟩

theorem allBlank_eq (h : Alike R t u) : t.allBlank = u.allBlank := by
  induction h with
  | nil => rfl
  | code _ _ ih => simpa [allBlank] using congrArg _ ih
  | literal hq _ _ _ =>
    have hb := outside_of_quote (p := isBlank) (by decide) hq
    simp [allBlank, hb]

theorem trimEnd (h : Alike R t u) : Alike R t.trimEnd u.trimEnd := by
  induction h with
  | nil => exact .nil
  | @code c t u hc h ih =>
    rw [← List.singleton_append, ← List.singleton_append (l := u)]
    cases hb : t.allBlank with
    | true =>
      rw [trimEnd_blanks hb, trimEnd_blanks (h.allBlank_eq ▸ hb)]
      refine of_free fun d hd => ?_
      rw [List.mem_singleton.1 ((trimEnd_lead [c]).subset hd)]
      exact hc
    | false =>
      rw [trimEnd_append hb, trimEnd_append (h.allBlank_eq ▸ hb)]
      exact .code hc ih
  | @literal q x y t u hq hxy h ih =>
    have hb := outside_of_quote (p := isBlank) (by decide) hq
    have hliteral (x v : Text) :
        Text.trimEnd (q :: (x ++ q :: v)) = q :: (x ++ q :: Text.trimEnd v) := by
      have hv : allBlank (q :: v) = false := by simp [allBlank, hb]
      rw [← List.cons_append, trimEnd_append hv, trimEnd_solid hb]
      rfl
    rw [hliteral, hliteral]
    exact .literal hq hxy ih

theorem trim (h : Alike R t u) : Alike R t.trim u.trim := h.trimStart.trimEnd

theorem getLast?_eq (h : Alike R t u) : t.getLast? = u.getLast? := by
  induction h with
  | nil => rfl
  | code _ _ ih => rw [List.getLast?_cons, List.getLast?_cons, ih]
  | literal _ _ _ ih => simp [List.getLast?_cons, List.getLast?_append, ih]

/-- The same parenthesis closes a group in both texts, behind parts that are alike, or none does. -/
def Closes (R : Char → Text → Text → Prop) (d i j : Nat) (t u : Text) : Prop :=
  (Text.balance '(' ')' (d + 1) i t = none ∧ Text.balance '(' ')' (d + 1) j u = none) ∨
    ∃ a a', Text.balance '(' ')' (d + 1) i t = some (i + a.length) ∧
      Text.balance '(' ')' (d + 1) j u = some (j + a'.length) ∧ a <+: t ∧ a' <+: u ∧ Alike R a a'

theorem Closes.behind {x y : Text} {d d' i j : Nat} (h : Closes R d' (i + x.length) (j + y.length) t u)
    (hxy : Alike R x y)
    (hx : Text.balance '(' ')' (d + 1) i (x ++ t) = Text.balance '(' ')' (d' + 1) (i + x.length) t)
    (hy : Text.balance '(' ')' (d + 1) j (y ++ u) = Text.balance '(' ')' (d' + 1) (j + y.length) u) :
    Closes R d i j (x ++ t) (y ++ u) := by
  rw [Closes, hx, hy]
  refine h.imp_right ?_
  rintro ⟨a, a', ha, ha', hl, hl', halike⟩
  refine ⟨x ++ a, y ++ a', ?_, ?_, (List.prefix_append_right_inj x).2 hl, (List.prefix_append_right_inj y).2 hl',
    hxy.append halike⟩
  · rw [ha, List.length_append, Nat.add_assoc]
  · rw [ha', List.length_append, Nat.add_assoc]

/-- The parenthesis that closes a group, where literals hold nested texts. -/
theorem balance (hR : ∀ q x y, R q x y → Nested x ∧ Nested y) (h : Alike R t u) (d i j : Nat) :
    Closes R d i j t u := by
  induction h generalizing d i j with
  | nil => exact .inl ⟨rfl, rfl⟩
  | @code c t u hc h ih =>
    have hstep {d' : Nat} (hb : ∀ i v, Text.balance '(' ')' (d + 1) i (c :: v) =
        Text.balance '(' ')' (d' + 1) (i + 1) v) : Closes R d i j (c :: t) (c :: u) :=
      (ih d' (i + 1) (j + 1)).behind (.code hc .nil) (hb i t) (hb j u)
    by_cases hup : c = '('
    · subst hup
      exact hstep fun i v => balance_up (d + 1) i v
    · by_cases hdown : c = ')'
      · subst hdown
        cases d with
        | zero =>
          exact .inr ⟨[], [], balance_last (by decide) i t, balance_last (by decide) j u, List.nil_prefix,
            List.nil_prefix, .nil⟩
        | succ d => exact hstep fun i v => balance_down (by decide) d i v
      · exact hstep fun i v => balance_skip ⟨hup, hdown⟩ (d + 1) i v
  | @literal q x y t u hq hxy h ih =>
    have hparen : q ≠ '(' ∧ q ≠ ')' := by
      rcases eq_of_isQuote hq with rfl | rfl <;> decide
    have hliteral {z : Text} (hz : Nested z) : Balanced '(' ')' (q :: (z ++ [q])) :=
      .cons hparen.1 hparen.2 (hz.balanced.append (.cons hparen.1 hparen.2 .nil))
    obtain ⟨hx, hy⟩ := hR q x y hxy
    have hclose := (ih d _ _).behind (.literal hq hxy .nil) ((hliteral hx).balance_eq (by decide) d i t)
      ((hliteral hy).balance_eq (by decide) d j u)
    simpa using hclose

theorem pushFirst {c : Char} {ps qs : List Text} (hc : isQuote c = false)
    (h : List.Forall₂ (Alike R) ps qs) :
    List.Forall₂ (Alike R) (Text.pushFirst c ps) (Text.pushFirst c qs) := by
  cases h with
  | nil => exact .cons (.code hc .nil) .nil
  | cons hp h => exact .cons (.code hc hp) h

/-- The pieces of a list, where literals hold items. -/
theorem splitCommasFrom (hR : ∀ q x y, R q x y → NestedItem x ∧ NestedItem y) (h : Alike R t u)
    (stack : List Char) : List.Forall₂ (Alike R) (Text.splitCommasFrom stack t).1
      (Text.splitCommasFrom stack u).1 := by
  induction h generalizing stack with
  | nil => exact .cons .nil .nil
  | @code c t u hc h ih =>
    rw [Text.splitCommasFrom, Text.splitCommasFrom]
    split
    · exact .cons .nil (ih [])
    · exact pushFirst hc (ih (nest stack c).1)
  | @literal q x y t u hq hxy h ih =>
    obtain ⟨hx, hy⟩ := hR q x y hxy
    have hcomma : q ≠ ',' ∨ stack ≠ [] := .inl (by rcases eq_of_isQuote hq with rfl | rfl <;> decide)
    have hnest : nest stack q = (stack, []) := by
      rcases eq_of_isQuote hq with rfl | rfl <;> simp [nest, closer?, opener?]
    have hpass {z : Text} (hz : NestedItem z) (v : Text) {p : Text} {ps : List Text}
        (hv : (Text.splitCommasFrom stack v).1 = p :: ps) :
        (Text.splitCommasFrom stack (q :: (z ++ q :: v))).1 = (q :: (z ++ q :: p)) :: ps := by
      have hw : walk (· != ',') stack z = some stack := by
        simpa using walk_under stack (.inr fun _ hc => hc) hz
      rw [splitCommasFrom_step hcomma hnest, splitCommasFrom_walk hw,
        splitCommasFrom_step hcomma hnest, hv]
      rfl
    have hi := ih stack
    cases hv : (Text.splitCommasFrom stack t).1 with
    | nil => exact absurd hv (splitCommasFrom_ne_nil stack t)
    | cons p ps =>
      cases hv' : (Text.splitCommasFrom stack u).1 with
      | nil => exact absurd hv' (splitCommasFrom_ne_nil stack u)
      | cons p' ps' =>
        rw [hv, hv'] at hi
        rw [hpass hx t hv, hpass hy u hv']
        cases hi with
        | cons hp hps => exact .cons (.literal hq hxy hp) hps

theorem listItems (hR : ∀ q x y, R q x y → NestedItem x ∧ NestedItem y) (h : Alike R t u) :
    List.Forall₂ (Alike R) t.listItems u.listItems := by
  rw [Text.listItems, Text.listItems, List.forall₂_map_left_iff, List.forall₂_map_right_iff]
  exact (h.splitCommasFrom hR []).imp fun _ _ hp => hp.trim

end Alike

end Text

end FixedForm
