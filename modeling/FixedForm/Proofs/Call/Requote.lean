import FixedForm.Call.Site
import FixedForm.Proofs.Text.Alike
import FixedForm.Proofs.Text.Pieces
import FixedForm.Proofs.Text.Substitution
import Mathlib.Data.Option.Basic

/-! Literals in the arguments of a call.  They become double-quoted before the list of arguments is
divided and the types are read off; what they hold stays between the quotes. -/
namespace FixedForm
open Text (Alike)

namespace Quote
open Text (quotedBody?)

/-- Contents that end no argument and no double-quoted literal. -/
structure Plain (z : Text) : Prop where
  item : Text.NestedItem z
  oneLine : z.hasLineEnd = false
  free : '"' ∉ z

theorem substituteFrom_requote (before before' t : Text) :
    Text.substituteFrom requote before t = Text.substituteFrom requote before' t :=
  Text.substituteFrom_before (fun _ _ _ => rfl) before before' t

theorem toDouble_cons {c : Char} (hc : c ≠ '\x27') (t : Text) : toDouble (c :: t) = c :: toDouble t := by
  have hrule : requote [] (c :: t) = none := by simp [requote, hc]
  rw [toDouble, Text.substitute, Text.substituteFrom, hrule, toDouble, Text.substitute,
    substituteFrom_requote [c] []]

theorem length_quotedBody? {t body rest : Text} (h : quotedBody? t = some (body, rest)) :
    rest.length < t.length := by
  fun_induction quotedBody? t generalizing body rest with
  | case1 => cases h
  | case2 t body' rest' hb ih =>
    cases h
    have := ih hb
    simp only [List.length_cons]
    omega
  | case3 | case4 =>
    cases h
    simp
  | case5 c t h1 h2 ih =>
    obtain ⟨r, hr, he⟩ := Option.map_eq_some_iff.1 h
    cases he
    exact Nat.lt_succ_of_lt (ih hr)

theorem quotedBody?_append {x : Text} (hx : '\x27' ∉ x) (t : Text) :
    quotedBody? (x ++ t) = (quotedBody? t).map fun r => (x ++ r.1, r.2) := by
  induction x with
  | nil => simp
  | cons c x ih =>
    obtain ⟨hc, hx⟩ := not_or.1 (mt List.mem_cons.2 hx)
    rw [List.cons_append, quotedBody?, ih hx, Option.map_map]
    · rfl
    · exact fun _ he _ => hc he.symm
    · exact fun he => hc he.symm

theorem quotedBody?_close {t : Text} (h : t.head? ≠ some '\x27') :
    quotedBody? ('\x27' :: t) = some ([], t) := by
  cases t with
  | nil => rfl
  | cons c t =>
    rw [quotedBody?]
    intro u he
    exact h (congrArg List.head? he)

theorem undouble_append {x : Text} (hx : '\x27' ∉ x) (t : Text) : undouble (x ++ t) = x ++ undouble t := by
  induction x with
  | nil => rfl
  | cons c x ih =>
    obtain ⟨hc, hx⟩ := not_or.1 (mt List.mem_cons.2 hx)
    rw [List.cons_append, undouble, ih hx]
    · rfl
    · exact fun _ he => absurd he.symm hc

theorem escape_of_free {t : Text} (h : '"' ∉ t) : escape t = t := by
  induction t with
  | nil => rfl
  | cons c t ih =>
    obtain ⟨hc, ht⟩ := not_or.1 (mt List.mem_cons.2 h)
    have hne : (c == '"') = false := beq_eq_false_iff_ne.2 (Ne.symm hc)
    rw [escape, List.flatMap_cons, ← escape, ih ht, hne]
    rfl

theorem toDouble_append {x : Text} (hx : '\x27' ∉ x) (t : Text) : toDouble (x ++ t) = x ++ toDouble t := by
  induction x with
  | nil => rfl
  | cons c x ih =>
    obtain ⟨hc, hx⟩ := not_or.1 (mt List.mem_cons.2 hx)
    rw [List.cons_append, toDouble_cons (Ne.symm hc), ih hx]
    rfl

theorem toDouble_quoted {t body rest : Text} (h : quotedBody? t = some (body, rest)) :
    toDouble ('\x27' :: t) = '"' :: (escape (undouble body) ++ '"' :: toDouble rest) := by
  have hrule : requote [] ('\x27' :: t) = some ('"' :: escape (undouble body) ++ ['"'], rest) := by
    simp [requote, h]
  have hlen : rest.length < ('\x27' :: t).length := Nat.lt_succ_of_lt (length_quotedBody? h)
  rw [toDouble, Text.substitute, Text.substituteFrom, hrule]
  simp only [hlen, if_true]
  rw [substituteFrom_requote _ [], toDouble, Text.substitute]
  simp

namespace Plain
variable {x z : Text}

/-- Two literals without a blank between them are one, with a quote between their contents. -/
theorem join (hx : Plain x) (hz : Plain z) : Plain (x ++ '\x27' :: z) := by
  refine ⟨?_, ?_, ?_⟩
  · exact hx.item.append (u := '\x27' :: z) hz.item
  · have hquote : Text.hasLineEnd ('\x27' :: z) = false := hz.oneLine
    rw [Text.hasLineEnd, List.any_append]
    exact (Bool.or_eq_false_iff).2 ⟨hx.oneLine, hquote⟩
  · simp [hx.free, hz.free]

end Plain

/-- Contents that end no literal at all. -/
structure Bare (x : Text) : Prop extends Plain x where
  single : '\x27' ∉ x

/-- The literal that starts here, up to its end. -/
theorem quotedBody?_alike {R : Char → Text → Text → Prop} (hR : ∀ q x y, R q x y → Bare x ∧ Bare y)
    {t u x y : Text} (h : Alike R t u) (hx : Bare x) (hy : Bare y) :
    ∃ z z' r r', quotedBody? (x ++ '\x27' :: t) = some (z, r) ∧
      quotedBody? (y ++ '\x27' :: u) = some (z', r') ∧ Plain (undouble z) ∧ Plain (undouble z') ∧
      Alike R r r' := by
  have hclose {x t : Text} (hx : Bare x) (ht : t.head? ≠ some '\x27') :
      quotedBody? (x ++ '\x27' :: t) = some (x, t) ∧ Plain (undouble x) := by
    have hu : undouble x = x := by simpa [undouble] using undouble_append hx.single []
    rw [quotedBody?_append hx.single, quotedBody?_close ht, hu]
    exact ⟨by simp, hx.toPlain⟩
  induction h generalizing x y with
  | nil =>
    obtain ⟨hb, hp⟩ := hclose (t := []) hx (by simp)
    obtain ⟨hb', hp'⟩ := hclose (t := []) hy (by simp)
    exact ⟨_, _, _, _, hb, hb', hp, hp', .nil⟩
  | @code c t u hc h ih =>
    have hne (v : Text) : (c :: v).head? ≠ some '\x27' := by
      simpa using Text.ne_of_isQuote hc (by decide)
    obtain ⟨hb, hp⟩ := hclose hx (hne t)
    obtain ⟨hb', hp'⟩ := hclose hy (hne u)
    exact ⟨_, _, _, _, hb, hb', hp, hp', .code hc h⟩
  | @literal q v w t u hq hvw h ih =>
    rcases Text.eq_of_isQuote hq with rfl | rfl
    · -- a second literal follows at once
      obtain ⟨hv, hw⟩ := hR _ v w hvw
      obtain ⟨z, z', r, r', hz, hz', hp, hp', hr⟩ := ih hv hw
      have hjoin {x v z r t : Text} (hx : Bare x) (hp : Plain (undouble z))
          (hz : quotedBody? (v ++ '\x27' :: t) = some (z, r)) :
          quotedBody? (x ++ '\x27' :: '\x27' :: (v ++ '\x27' :: t)) =
              some (x ++ '\x27' :: '\x27' :: z, r) ∧
            Plain (undouble (x ++ '\x27' :: '\x27' :: z)) := by
        rw [quotedBody?_append hx.single, quotedBody?, hz, undouble_append hx.single, undouble]
        exact ⟨rfl, hx.toPlain.join hp⟩
      obtain ⟨hb, hp⟩ := hjoin hx hp hz
      obtain ⟨hb', hp'⟩ := hjoin hy hp' hz'
      exact ⟨_, _, _, _, hb, hb', hp, hp', hr⟩
    · obtain ⟨hb, hp⟩ := hclose (t := '"' :: (v ++ '"' :: t)) hx (by simp)
      obtain ⟨hb', hp'⟩ := hclose (t := '"' :: (w ++ '"' :: u)) hy (by simp)
      exact ⟨_, _, _, _, hb, hb', hp, hp', .literal hq hvw h⟩

/-- Double quotes around plain contents. -/
def Doubled (q : Char) (z z' : Text) : Prop := q = '"' ∧ Plain z ∧ Plain z'

theorem toDouble_alike {R : Char → Text → Text → Prop} (hR : ∀ q x y, R q x y → Bare x ∧ Bare y)
    {t u : Text} (h : Alike R t u) : Alike Doubled (toDouble t) (toDouble u) := by
  induction hn : t.length using Nat.strongRecOn generalizing t u with
  | ind n ih =>
    cases h with
    | nil =>
      rw [toDouble, Text.substitute, Text.substituteFrom]
      exact .nil
    | @code c t u hc h =>
      have hne : c ≠ '\x27' := Text.ne_of_isQuote hc (by decide)
      rw [toDouble_cons hne, toDouble_cons hne]
      exact .code hc (ih t.length (by simp [← hn]) h rfl)
    | @literal q x y t u hq hxy h =>
      obtain ⟨hx, hy⟩ := hR q x y hxy
      rcases Text.eq_of_isQuote hq with rfl | rfl
      · obtain ⟨z, z', r, r', hz, hz', hp, hp', hr⟩ := quotedBody?_alike hR h hx hy
        have hlength : r.length < n := hn ▸ Nat.lt_succ_of_lt (length_quotedBody? hz)
        rw [toDouble_quoted hz, toDouble_quoted hz', escape_of_free hp.free, escape_of_free hp'.free]
        exact .literal (by decide) ⟨rfl, hp, hp'⟩ (ih r.length hlength hr rfl)
      · have hpass {x : Text} (hx : Bare x) (t : Text) :
            toDouble ('"' :: (x ++ '"' :: t)) = '"' :: (x ++ '"' :: toDouble t) := by
          rw [toDouble_cons (by decide), toDouble_append hx.single, toDouble_cons (by decide)]
        rw [hpass hx, hpass hy]
        exact .literal hq ⟨rfl, hx.toPlain, hy.toPlain⟩ (ih t.length (by simp [← hn]; omega) h rfl)

end Quote

namespace Argument
open Quote (Doubled)
variable {symbols : SymbolTable}

/-- The symbol of a word, with its type. -/
def typed? (symbols : SymbolTable) (w : Text) : Option (Symbol × BaseType) := do
  guard !((w.head?.map Char.isDigit).getD false)
  let s ← symbols.lookup? w
  let base ← s.baseType
  some (s, base)

theorem typedWord?_word (w : Text) (ps : List Piece) : typedWord? symbols (.word w :: ps) =
    ((typed? symbols w).map fun r => (r.1, r.2, (Text.skipBlanks ps).head? == some (.mark '['))).or
      (typedWord? symbols ps) := by
  rw [typedWord?, typed?]
  cases hw : !((w.head?.map Char.isDigit).getD false) with
  | false => rfl
  | true =>
    cases symbols.lookup? w with
    | none => rfl
    | some s => cases hs : s.baseType <;> simp [hs, guard]

theorem typedWord?_append {ps : List Piece} (h : typedWord? symbols ps = none) (qs : List Piece) :
    typedWord? symbols (ps ++ qs) = typedWord? symbols qs := by
  induction ps with
  | nil => rfl
  | cons p ps ih =>
    cases p with
    | mark c => exact ih h
    | word w =>
      rw [typedWord?_word, Option.or_eq_none_iff, Option.map_eq_none_iff] at h
      rw [List.cons_append, typedWord?_word, h.1, ih h.2]
      rfl

/-- The first word with a type, where literals hold none. -/
theorem typedWord?_alike {R : Char → Text → Text → Prop}
    (hR : ∀ q x y, R q x y →
      typedWord? symbols x.pieces = none ∧ typedWord? symbols y.pieces = none)
    {t u : Text} (h : Alike R t u) :
    typedWord? symbols t.pieces = typedWord? symbols u.pieces := by
  induction hn : t.length using Nat.strongRecOn generalizing t u with
  | ind n ih =>
    cases h with
    | nil => rfl
    | @code c t u hc h =>
      cases hw : isWord c with
      | false =>
        rw [Text.pieces_mark hw, Text.pieces_mark hw]
        exact ih t.length (by simp [← hn]) h rfl
      | true =>
        obtain ⟨htake, hdrop⟩ := h.scan (p := isWord) (by decide)
        have hlength : (t.dropWhile isWord).length < n :=
          hn ▸ Nat.lt_succ_of_le (Text.length_dropWhile_le isWord t)
        rw [Text.pieces_word hw, Text.pieces_word hw, typedWord?_word, typedWord?_word, htake,
          ih _ hlength hdrop rfl, Text.skipBlanks_pieces, Text.skipBlanks_pieces,
          Text.head?_pieces (by decide), Text.head?_pieces (by decide), hdrop.trimStart.head?_eq]
    | @literal q x y t u hq hxy h =>
      obtain ⟨hx, hy⟩ := hR q x y hxy
      have hpass {z : Text} (hz : typedWord? symbols z.pieces = none) (v : Text) :
          typedWord? symbols (Text.pieces (q :: (z ++ q :: v))) = typedWord? symbols v.pieces := by
        have hw := Text.outside_of_quote (p := isWord) (by decide) hq
        rw [Text.pieces_mark hw, Text.pieces_append_mark hw, typedWord?, typedWord?_append hz, typedWord?]
      rw [hpass hx, hpass hy]
      exact ih t.length (by simp [← hn]; omega) h rfl

theorem hasLineEnd_alike {t u : Text} (h : Alike Doubled t u) : t.hasLineEnd = u.hasLineEnd := by
  induction h with
  | nil => rfl
  | @code c t u hc h ih =>
    rw [Text.hasLineEnd, Text.hasLineEnd, List.any_cons, List.any_cons]
    exact congrArg _ ih
  | @literal q x y t u hq hxy h ih =>
    obtain ⟨rfl, hx, hy⟩ := hxy
    have hx := hx.oneLine
    have hy := hy.oneLine
    simp only [Text.hasLineEnd] at hx hy ih
    simp only [Text.hasLineEnd, List.any_cons, List.any_append, hx, hy, ih]

/-- A string starts and ends with a quote. -/
theorem isString_eq (t : Text) : isString t =
    (t.head? == some '"' && t.tail.getLast? == some '"' && !t.hasLineEnd) := by
  cases t with
  | nil => rfl
  | cons c t =>
    rw [isString, Text.between?, List.head?_cons, List.tail_cons]
    cases hc : c == '"' with
    | false => simp [hc]
    | true =>
      cases ht : t.getLast? == some '"' with
      | false => simp
      | true =>
        obtain rfl : c = '"' := by simpa using hc
        obtain ⟨u, rfl⟩ := List.getLast?_eq_some_iff.1 (by simpa using ht)
        simp [Text.hasLineEnd, isLineEnd]

theorem isString_alike {t u : Text} (h : Alike Doubled t u) : isString t = isString u := by
  rw [isString_eq, isString_eq, h.head?_eq, hasLineEnd_alike h]
  congr 2
  cases h with
  | nil => rfl
  | code _ h => exact congrArg (· == _) h.getLast?_eq
  | literal _ _ h => simp [List.getLast?_append, List.getLast?_cons, h.getLast?_eq]

/-- The argument is one string, or its literals name nothing with a type. -/
def IsSettled (symbols : SymbolTable) (arg : Text) : Prop :=
  isString arg.trim = true ∨ ∀ x ∈ arg.trim.contents, typedWord? symbols x.pieces = none

instance (symbols : SymbolTable) (arg : Text) : Decidable (IsSettled symbols arg) :=
  inferInstanceAs (Decidable (_ ∨ _))

/-- Arguments that are alike and settled take parameters of one type. -/
theorem type_alike {p p' : Text} (h : Alike Doubled p p') (hp : IsSettled symbols p)
    (hp' : IsSettled symbols p') : type symbols p = type symbols p' := by
  have hstring := isString_alike h.trim
  have haddressed : Text.startsWith "&" p.trim = Text.startsWith "&" p'.trim :=
    h.trim.startsWith (Text.not_quote_of_all rfl)
  have hliteral : p.trim.isDigits = p'.trim.isDigits ∧
      (p.trim == "true".toList || p.trim == "false".toList) =
        (p'.trim == "true".toList || p'.trim == "false".toList) := by
    have hnone {t : Text} (ht : ∃ c ∈ t, isQuote c = true) :
        t.isDigits = false ∧ (t == "true".toList || t == "false".toList) = false := by
      obtain ⟨c, hc, hq⟩ := ht
      refine ⟨?_, Bool.eq_false_iff.2 fun he => ?_⟩
      · have hd := Text.outside_of_quote (p := Char.isDigit) (by decide) hq
        rw [Text.isDigits, List.all_eq_false.2 ⟨c, hc, by simp [hd]⟩, Bool.and_false]
      · have hfree : ∀ c ∈ t, isQuote c = false := by
          rcases Bool.or_eq_true_iff.1 he with he | he <;> rw [eq_of_beq he] <;> exact Text.not_quote_of_all rfl
        simp [hfree c hc] at hq
    rcases h.trim.eq_or_quote with he | ⟨hq, hq'⟩
    · rw [he]
      exact ⟨rfl, rfl⟩
    · exact ⟨(hnone hq).1.trans (hnone hq').1.symm, (hnone hq).2.trans (hnone hq').2.symm⟩
  simp only [type]
  rw [hstring, haddressed, hliteral.1, hliteral.2]
  cases hs : isString p'.trim with
  | true => rfl
  | false =>
    have hcontents := hp.resolve_left (by simp [hstring, hs])
    have hcontents' := hp'.resolve_left (by simp [hs])
    have hfree (q : Char) (x y : Text) (_ : isQuote q = true) (hxy : Doubled q x y) : q ∉ x ∧ q ∉ y :=
      hxy.1 ▸ ⟨hxy.2.1.free, hxy.2.2.free⟩
    have halike := h.trim.with_contents hfree hcontents hcontents'
    rw [typedWord?_alike (fun q x y hxy => hxy.2) halike]

end Argument

end FixedForm
