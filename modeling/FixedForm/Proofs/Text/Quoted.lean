import FixedForm.Proofs.Text.Alike
import Mathlib.Data.List.TakeWhile

/-! The literals of a text, one after the other.  A text is read from left to right as code and
literals; readers that count parentheses pass over a literal whose own parentheses pair. -/
namespace FixedForm

/-- The literal that a stretch is, with its quotes. -/
def Stretch.literal? : Stretch → Option Text
  | .code _ => none
  | .literal t => some t

namespace Text

/-- The literals of a text with their quotes; the last one may lack the closing quote. -/
def literals (t : Text) : List Text := t.stretches.filterMap Stretch.literal?

section Stretches
variable {x y t : Text} {q : Char}

theorem scan_free (hx : ∀ c ∈ x, isQuote c = false) (hq : isQuote q = true) (t : Text) :
    (x ++ q :: t).takeWhile (!isQuote ·) = x ∧ (x ++ q :: t).dropWhile (!isQuote ·) = q :: t := by
  have hin (c : Char) (hc : c ∈ x) : (!isQuote c) = true := by simp [hx c hc]
  rw [List.takeWhile_append_of_pos hin, List.dropWhile_append_of_pos hin]
  simp [hq]

theorem stretches_free (hx : ∀ c ∈ x, isQuote c = false) : stretches x = [.code x] := by
  have hd : x.dropWhile (!isQuote ·) = [] := List.dropWhile_eq_nil_iff.2 fun c hc => by simp [hx c hc]
  rw [stretches]
  split
  · rfl
  · next he => simp [hd] at he

theorem stretches_open (hx : ∀ c ∈ x, isQuote c = false) (hq : isQuote q = true) (hy : q ∉ y) :
    stretches (x ++ q :: y) = [.code x, .literal (q :: y)] := by
  obtain ⟨htake, hdrop⟩ := scan_free hx hq y
  have hd : y.dropWhile (· != q) = [] :=
    List.dropWhile_eq_nil_iff.2 fun c hc => by simpa using fun he : c = q => hy (he ▸ hc)
  rw [stretches]
  split
  · next he => simp [hdrop] at he
  · next he =>
    obtain ⟨rfl, rfl⟩ := List.cons.inj (hdrop.symm.trans he)
    rw [htake]
    split
    · rfl
    · next he => simp [hd] at he

theorem stretches_closed (hx : ∀ c ∈ x, isQuote c = false) (hq : isQuote q = true) (hy : q ∉ y)
    (t : Text) : stretches (x ++ q :: (y ++ q :: t)) =
      .code x :: .literal (q :: (y ++ [q])) :: stretches t := by
  obtain ⟨htake, hdrop⟩ := scan_free hx hq (y ++ q :: t)
  have hin (c : Char) (hc : c ∈ y) : (c != q) = true := by
    simpa using fun he : c = q => hy (he ▸ hc)
  have hd : (y ++ q :: t).dropWhile (· != q) = q :: t := by
    rw [List.dropWhile_append_of_pos hin]
    simp
  rw [stretches]
  split
  · next he => simp [hdrop] at he
  · next he =>
    obtain ⟨rfl, rfl⟩ := List.cons.inj (hdrop.symm.trans he)
    rw [htake]
    split
    · next he => simp [hd] at he
    · next he =>
      obtain ⟨-, rfl⟩ := List.cons.inj (hd.symm.trans he)
      rw [List.takeWhile_append_of_pos hin]
      simp

end Stretches

/-- A text is code, or code before a literal that does not end, or code before a literal and a text of
the same kind. -/
theorem literal_induction {motive : Text → Prop}
    (code : ∀ x, (∀ c ∈ x, isQuote c = false) → motive x)
    (unclosed : ∀ x q y, (∀ c ∈ x, isQuote c = false) → isQuote q = true → q ∉ y →
      motive (x ++ q :: y))
    (closed : ∀ x q y t, (∀ c ∈ x, isQuote c = false) → isQuote q = true → q ∉ y → motive t →
      motive (x ++ q :: (y ++ q :: t))) (t : Text) : motive t := by
  have hfree (t : Text) : ∀ c ∈ t.takeWhile (!isQuote ·), isQuote c = false := by
    intro c hc
    simpa using List.all_eq_true.1 List.all_takeWhile c hc
  have hquote {t body : Text} {q : Char} (h : t.dropWhile (!isQuote ·) = q :: body) :
      isQuote q = true ∧ t = t.takeWhile (!isQuote ·) ++ q :: body := by
    have hhead := List.head?_dropWhile_not (!isQuote ·) t
    exact ⟨by simpa [h] using hhead, by rw [← h, List.takeWhile_append_dropWhile]⟩
  have hinside (q : Char) (body : Text) : q ∉ body.takeWhile (· != q) := fun hc => by
    simpa using List.all_eq_true.1 List.all_takeWhile q hc
  fun_induction stretches t with
  | case1 t h =>
    refine code t ?_
    rw [← takeWhile_of_dropWhile h]
    exact hfree t
  | case2 t q body h ih =>
    obtain ⟨hq, ht⟩ := hquote h
    rw [ht]
    cases hb : body.dropWhile (· != q) with
    | nil =>
      refine unclosed _ q body (hfree t) hq ?_
      rw [← takeWhile_of_dropWhile hb]
      exact hinside q body
    | cons d rest =>
      have hd : d = q := by
        have hhead := List.head?_dropWhile_not (· != q) body
        simpa [hb] using hhead
      have hbody : body = body.takeWhile (· != q) ++ q :: rest := by
        rw [← hd, ← hb, hd, List.takeWhile_append_dropWhile]
      rw [hbody]
      exact closed _ q _ rest (hfree t) hq (hinside q body) (ih d rest hb)

section Equations
variable {x y : Text} {q : Char}

theorem literals_free (hx : ∀ c ∈ x, isQuote c = false) : literals x = [] := by
  rw [literals, stretches_free hx]
  rfl

theorem literals_open (hx : ∀ c ∈ x, isQuote c = false) (hq : isQuote q = true) (hy : q ∉ y) :
    literals (x ++ q :: y) = [q :: y] := by
  rw [literals, stretches_open hx hq hy]
  rfl

theorem literals_closed (hx : ∀ c ∈ x, isQuote c = false) (hq : isQuote q = true) (hy : q ∉ y)
    (t : Text) : literals (x ++ q :: (y ++ q :: t)) = (q :: (y ++ [q])) :: literals t := by
  rw [literals, stretches_closed hx hq hy]
  rfl

theorem literals_code {c : Char} (hc : isQuote c = false) (t : Text) :
    literals (c :: t) = literals t := by
  have hcons {x : Text} (hx : ∀ c ∈ x, isQuote c = false) : ∀ d ∈ c :: x, isQuote d = false := by
    simpa [hc] using hx
  induction t using literal_induction with
  | code x hx => rw [literals_free hx, literals_free (hcons hx)]
  | unclosed x q y hx hq hy =>
    rw [literals_open hx hq hy, ← List.cons_append, literals_open (hcons hx) hq hy]
  | closed x q y t hx hq hy _ =>
    rw [literals_closed hx hq hy, ← List.cons_append, literals_closed (hcons hx) hq hy]

theorem mapCode_open (f : Text → Text) (hx : ∀ c ∈ x, isQuote c = false) (hq : isQuote q = true)
    (hy : q ∉ y) : mapCode f (x ++ q :: y) = f x ++ q :: y := by
  simp [mapCode, stretches_open hx hq hy, Stretch.mapCode, Stretch.text]

theorem mapCode_closed (f : Text → Text) (hx : ∀ c ∈ x, isQuote c = false) (hq : isQuote q = true)
    (hy : q ∉ y) (t : Text) :
    mapCode f (x ++ q :: (y ++ q :: t)) = f x ++ q :: (y ++ q :: mapCode f t) := by
  simp [mapCode, stretches_closed hx hq hy, Stretch.mapCode, Stretch.text]

end Equations

/-- A change of code that brings in no quotes keeps the literals. -/
theorem literals_mapCode {f : Text → Text} {P : Char → Prop}
    (hf : ∀ x, (∀ c ∈ x, isQuote c = false) → (∀ c ∈ x, P c) → ∀ c ∈ f x, isQuote c = false)
    {t : Text} (ht : ∀ c ∈ t, P c) : literals (mapCode f t) = literals t := by
  induction t using literal_induction with
  | code x hx => rw [mapCode_of_free hx, literals_free (hf x hx ht), literals_free hx]
  | unclosed x q y hx hq hy =>
    have hfx := hf x hx fun c hc => ht c (by simp [hc])
    rw [mapCode_open f hx hq hy, literals_open hfx hq hy, literals_open hx hq hy]
  | closed x q y t hx hq hy ih =>
    have hfx := hf x hx fun c hc => ht c (by simp [hc])
    rw [mapCode_closed f hx hq hy, literals_closed hfx hq hy, literals_closed hx hq hy,
      ih fun c hc => ht c (by simp [hc])]

theorem not_quote_of_class {p : Char → Bool} (hp : (p '\x27' || p '"') = false) {c : Char}
    (hc : p c = true) : isQuote c = false :=
  Bool.eq_false_iff.2 fun hq => by simp [outside_of_quote hp hq] at hc

/-- A literal stands in the text. -/
theorem infix_of_mem_literals {t lit : Text} (h : lit ∈ literals t) : lit <:+: t := by
  induction t using literal_induction with
  | code x hx => simp [literals_free hx] at h
  | unclosed x q y hx hq hy =>
    rw [literals_open hx hq hy, List.mem_singleton] at h
    exact ⟨x, [], by simp [h]⟩
  | closed x q y t hx hq hy ih =>
    rw [literals_closed hx hq hy] at h
    rcases List.mem_cons.1 h with rfl | h
    · exact ⟨x, t, by simp⟩
    · obtain ⟨s, r, hsr⟩ := ih h
      exact ⟨x ++ q :: (y ++ q :: s), r, by simp [← hsr]⟩

/-- A text of code and of literals with the property.  With `tail`, the last literal may lack its
closing quote. -/
inductive Quoted (P : Text → Prop) (tail : Bool) : Text → Prop
  | nil : Quoted P tail []
  | code {c : Char} {t : Text} (hc : isQuote c = false) (h : Quoted P tail t) : Quoted P tail (c :: t)
  | literal {q : Char} {x t : Text} (hq : isQuote q = true) (hx : q ∉ x) (hP : P (q :: (x ++ [q])))
    (h : Quoted P tail t) : Quoted P tail (q :: (x ++ q :: t))
  | unclosed {q : Char} {x : Text} (hq : isQuote q = true) (hx : q ∉ x) (hP : P (q :: x))
    (htail : tail = true) : Quoted P tail (q :: x)

namespace Quoted
variable {P : Text → Prop} {tail : Bool} {s t w : Text}

theorem append (hs : Quoted P false s) (ht : Quoted P tail t) : Quoted P tail (s ++ t) := by
  induction hs with
  | nil => exact ht
  | code hc _ ih => exact .code hc ih
  | literal hq hx hP _ ih =>
    simp only [List.cons_append, List.append_assoc]
    exact .literal hq hx hP ih
  | unclosed _ _ _ h => cases h

theorem of_free (h : ∀ c ∈ t, isQuote c = false) : Quoted P tail t := by
  induction t with
  | nil => exact .nil
  | cons c t ih => exact .code (h c (by simp)) (ih fun d hd => h d (by simp [hd]))

theorem of_literals (h : ∀ lit ∈ literals t, P lit) : Quoted P true t := by
  induction t using literal_induction with
  | code x hx => exact of_free hx
  | unclosed x q y hx hq hy =>
    rw [literals_open hx hq hy] at h
    exact (of_free hx).append (.unclosed hq hy (h _ (by simp)) rfl)
  | closed x q y t hx hq hy ih =>
    rw [literals_closed hx hq hy] at h
    exact (of_free hx).append (.literal hq hy (h _ (by simp)) (ih fun lit hl => h lit (by simp [hl])))

theorem tail_of_code {c : Char} (hc : isQuote c = false) (h : Quoted P tail (c :: t)) :
    Quoted P tail t := by
  cases h with
  | code _ h => exact h
  | literal hq => exact Bool.noConfusion (hc.symm.trans hq)
  | unclosed hq => exact Bool.noConfusion (hc.symm.trans hq)

theorem of_free_append (hw : ∀ c ∈ w, isQuote c = false) (h : Quoted P tail (w ++ t)) :
    Quoted P tail t := by
  induction w with
  | nil => exact h
  | cons c w ih => exact ih (fun d hd => hw d (by simp [hd])) (h.tail_of_code (hw c (by simp)))

theorem reverse (h : Quoted P false t) : Quoted (fun lit => P lit.reverse) false t.reverse := by
  induction h with
  | nil => exact .nil
  | code hc _ ih =>
    rw [List.reverse_cons]
    exact ih.append (.code hc .nil)
  | @literal q x t hq hx hP _ ih =>
    have hr : (q :: (x ++ q :: t)).reverse = t.reverse ++ q :: (x.reverse ++ [q]) := by simp
    rw [hr]
    exact ih.append (.literal hq (by simpa using hx) (by simpa using hP) .nil)
  | unclosed _ _ _ h => cases h

/-- Read backwards twice. -/
theorem of_reverse (h : Quoted (fun lit => P lit.reverse) false t.reverse) : Quoted P false t := by
  simpa using h.reverse

theorem of_append_free (hw : ∀ c ∈ w, isQuote c = false) (h : Quoted P false (s ++ w)) :
    Quoted P false s := by
  have hr := h.reverse
  rw [List.reverse_append] at hr
  exact of_reverse (of_free_append (by simpa using hw) hr)

theorem literals_append (hs : Quoted P false s) (t : Text) :
    literals (s ++ t) = literals s ++ literals t := by
  induction hs with
  | nil => rw [literals_free (x := []) (by simp)]; rfl
  | code hc _ ih => rw [List.cons_append, literals_code hc, literals_code hc, ih]
  | @literal q x s hq hx _ _ ih =>
    have hnil : ∀ c ∈ ([] : Text), isQuote c = false := by simp
    have h₁ := literals_closed hnil hq hx (s ++ t)
    have h₂ := literals_closed hnil hq hx s
    rw [List.nil_append] at h₁ h₂
    rw [h₂, List.cons_append, List.append_assoc, List.cons_append, h₁, ih, List.cons_append]
  | unclosed _ _ _ h => cases h

/-- Code around a text adds no literals. -/
theorem literals_append_free (hs : Quoted P false s) (hw : ∀ c ∈ w, isQuote c = false) :
    literals (s ++ w) = literals s := by
  rw [hs.literals_append, literals_free hw, List.append_nil]

end Quoted

theorem literals_free_append {w : Text} (hw : ∀ c ∈ w, isQuote c = false) (t : Text) :
    literals (w ++ t) = literals t := by
  rw [(Quoted.of_free (P := fun _ => True) hw).literals_append, literals_free hw, List.nil_append]

/-- The parentheses of the text pair. -/
def Paired (t : Text) : Prop := depthAfter '(' ')' 0 t = some 0

instance (t : Text) : Decidable (Paired t) := inferInstanceAs (Decidable (_ = _))

section Depth
variable {up down : Char}

/-- Read backwards, the two delimiters change places. -/
theorem depthAfter_reverse (hne : up ≠ down) {t : Text} {k m : Nat}
    (h : depthAfter up down k t = some m) : depthAfter down up m t.reverse = some k := by
  fun_induction depthAfter up down k t with
  | case1 k =>
    cases h
    rfl
  | case2 k c t hc ih =>
    obtain rfl := eq_of_beq hc
    rw [List.reverse_cons, depthAfter_append, ih h]
    simp [depthAfter, hne]
  | case3 => cases h
  | case4 c t hu hd k ih =>
    obtain rfl := eq_of_beq hd
    rw [List.reverse_cons, depthAfter_append, ih h]
    simp [depthAfter]
  | case5 k c t hu hd ih =>
    rw [List.reverse_cons, depthAfter_append, ih h]
    simp_all [depthAfter]

/-- The partner of an open delimiter stands in code when the delimiters of every literal pair. -/
theorem Quoted.balance_split {P : Text → Prop} {tail : Bool} {t : Text}
    (hP : ∀ lit, P lit → depthAfter up down 0 lit = some 0) (h : Quoted P tail t) {d i j : Nat}
    (hb : balance up down (d + 1) i t = some j) :
    ∃ a b, t = a ++ down :: b ∧ j = i + a.length ∧ Quoted P false a ∧ Quoted P tail b := by
  induction h generalizing d i with
  | nil => cases hb
  | @code c t hc ht ih =>
    have hcons {d' : Nat} (hb : balance up down (d' + 1) (i + 1) t = some j) :
        ∃ a b, c :: t = a ++ down :: b ∧ j = i + a.length ∧ Quoted P false a ∧ Quoted P tail b := by
      obtain ⟨a, b, rfl, rfl, ha, hb⟩ := ih hb
      exact ⟨c :: a, b, rfl, by rw [List.length_cons]; omega, .code hc ha, hb⟩
    rw [balance.eq_def] at hb
    dsimp only at hb
    split at hb
    · exact hcons hb
    · split at hb
      · next hdown =>
        cases d with
        | zero =>
          cases hb
          obtain rfl := eq_of_beq hdown
          exact ⟨[], t, rfl, rfl, .nil, ht⟩
        | succ d => exact hcons hb
      · exact hcons hb
  | @literal q x t hq hx hlit ht ih =>
    have hsplit : q :: (x ++ q :: t) = (q :: (x ++ [q])) ++ t := by simp
    have hpass := balance_depthAfter (hP _ hlit) d i t
    rw [Nat.zero_add, ← hsplit] at hpass
    rw [hpass] at hb
    obtain ⟨a, b, rfl, rfl, ha, hb⟩ := ih hb
    refine ⟨q :: (x ++ q :: a), b, by simp, ?_, .literal hq hx hlit ha, hb⟩
    simp only [List.length_cons, List.length_append, List.length_nil]
    omega
  | @unclosed q x hq hx hlit htail =>
    have hpass := balance_depthAfter (hP _ hlit) d i []
    rw [List.append_nil, Nat.zero_add] at hpass
    rw [hpass] at hb
    cases hb

end Depth

end Text

end FixedForm
