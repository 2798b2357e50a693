import FixedForm.Proofs.Declaration.History
import FixedForm.Proofs.Reference.Linearize
import FixedForm.Proofs.Reference.Simplify
import Mathlib.Data.Set.Function

/-! The storage of a local array.  Its declaration in the output has a place for each element, and the index
of a reference is the place of its element, counted by columns.  The leading dimension of a matrix is copied
as it is written; where a zero in front of it changes its value, elements share places. -/
namespace FixedForm.Storage
open Text Formula Index

/-! ### Extents and places -/

/-- A literal extent. -/
structure Extent where
  text : Text
  isDigits : text.isDigits = true
  pos : 1 ≤ text.value

/-- The extents of an array. -/
inductive Extents where
  | vector (d : Extent)
  | matrix (d₁ d₂ : Extent)

namespace Extents

def texts : Extents → List Text
  | .vector d => [d.text]
  | .matrix d₁ d₂ => [d₁.text, d₂.text]

def kind : Extents → Kind
  | .vector _ => .vector
  | .matrix _ _ => .matrix

theorem isArray_kind (E : Extents) : E.kind.isArray = true := by cases E <;> rfl

/-- The number of elements. -/
def size : Extents → Nat
  | .vector d => d.text.value
  | .matrix d₁ d₂ => d₁.text.value * d₂.text.value

/-- The subscripts of the elements. -/
def subscripts : Extents → Set (List Int)
  | .vector d => {xs | ∃ x : Int, xs = [x] ∧ 1 ≤ x ∧ x ≤ d.text.value}
  | .matrix d₁ d₂ =>
    {xs | ∃ x y : Int, xs = [x, y] ∧ 1 ≤ x ∧ x ≤ d₁.text.value ∧ 1 ≤ y ∧ y ≤ d₂.text.value}

/-- The place of an element, where numerals have the values of `number`. -/
def place (number : Text → Int) : Extents → List Int → Int
  | .vector _, [x] => x - 1
  | .matrix d₁ _, [x, y] => (x - 1) + (y - 1) * number d₁.text
  | _, _ => -1

/-- The leading dimension has its decimal value, or does not matter. -/
def Exact (number : Text → Int) : Extents → Prop
  | .vector _ => True
  | .matrix d₁ d₂ => number d₁.text = d₁.text.value ∨ d₂.text.value = 1

end Extents

/-- The places of a declaration of size `n`. -/
def places (n : Int) : Set Int := {k | 0 ≤ k ∧ k < n}

theorem mem_places {n k : Int} : k ∈ places n ↔ 0 ≤ k ∧ k < n := Iff.rfl

section Place
variable {m n x y x' y' : Int}

theorem column_unique (hx : 0 ≤ x ∧ x < m) (hx' : 0 ≤ x' ∧ x' < m) (h : x + y * m = x' + y' * m) :
    x = x' ∧ y = y' := by
  have hrow : x = x' := by
    have hmod := congrArg (· % m) h
    simpa [Int.add_mul_emod_self_right, Int.emod_eq_of_lt hx.1 hx.2, Int.emod_eq_of_lt hx'.1 hx'.2] using hmod
  have hcolumn : y * m = y' * m := by omega
  exact ⟨hrow, Int.eq_of_mul_eq_mul_right (by omega) hcolumn⟩

theorem column_lt (hx : x < m) (hy : y < n) (hm : 0 ≤ m) : x + y * m < m * n := by
  have hle : y * m ≤ (n - 1) * m := Int.mul_le_mul_of_nonneg_right (by omega) hm
  rw [Int.sub_mul, Int.one_mul, Int.mul_comm n] at hle
  omega

theorem exists_column {k : Int} (hm : 0 < m) (hk : 0 ≤ k ∧ k < m * n) :
    ∃ x y, (0 ≤ x ∧ x < m) ∧ (0 ≤ y ∧ y < n) ∧ x + y * m = k := by
  refine ⟨k % m, k / m, ⟨Int.emod_nonneg k (by omega), Int.emod_lt_of_pos k hm⟩,
    ⟨Int.ediv_nonneg hk.1 (by omega), Int.ediv_lt_of_lt_mul hm (by rw [Int.mul_comm]; exact hk.2)⟩, ?_⟩
  rw [Int.mul_comm]
  exact Int.emod_add_mul_ediv k m

end Place

variable {number : Text → Int}

theorem bijOn_vector (d : Extent) :
    Set.BijOn (Extents.place number (.vector d)) (Extents.subscripts (.vector d)) (places d.text.value) := by
  refine ⟨?_, ?_, ?_⟩
  · rintro _ ⟨x, rfl, h₁, h₂⟩
    simp only [Extents.place, mem_places]
    omega
  · rintro _ ⟨x, rfl, -, -⟩ _ ⟨y, rfl, -, -⟩ h
    have hxy : x - 1 = y - 1 := h
    rw [(Int.sub_left_inj 1).1 hxy]
  · rintro k ⟨h₁, h₂⟩
    exact ⟨[k + 1], ⟨k + 1, rfl, by omega, by omega⟩, by simp [Extents.place]⟩

theorem bijOn_matrix {d₁ d₂ : Extent} (h : number d₁.text = d₁.text.value ∨ d₂.text.value = 1) :
    Set.BijOn (Extents.place number (.matrix d₁ d₂)) (Extents.subscripts (.matrix d₁ d₂))
      (places (d₁.text.value * d₂.text.value)) := by
  have hpos := d₁.pos
  -- the distance between columns matters in no first column
  have hplace {x y : Int} (h₁ : 1 ≤ y) (h₂ : y ≤ d₂.text.value) :
      Extents.place number (.matrix d₁ d₂) [x, y] = (x - 1) + (y - 1) * d₁.text.value := by
    rcases h with h | h
    · rw [Extents.place, h]
    · obtain rfl : y = 1 := by omega
      simp [Extents.place]
  refine ⟨?_, ?_, ?_⟩
  · rintro _ ⟨x, y, rfl, hx₁, hx₂, hy₁, hy₂⟩
    have hlt := column_lt (x := x - 1) (y := y - 1) (m := d₁.text.value) (n := d₂.text.value) (by omega)
      (by omega) (by omega)
    have hnonneg : 0 ≤ (y - 1) * (d₁.text.value : Int) := Int.mul_nonneg (by omega) (by omega)
    rw [hplace hy₁ hy₂, mem_places]
    omega
  · rintro _ ⟨x, y, rfl, hx₁, hx₂, hy₁, hy₂⟩ _ ⟨x', y', rfl, hx₁', hx₂', hy₁', hy₂'⟩ heq
    rw [hplace hy₁ hy₂, hplace hy₁' hy₂'] at heq
    obtain ⟨hx, hy⟩ := column_unique (by omega) (by omega) heq
    rw [(Int.sub_left_inj 1).1 hx, (Int.sub_left_inj 1).1 hy]
  · rintro k ⟨h₁, h₂⟩
    obtain ⟨x, y, hx, hy, rfl⟩ := exists_column (m := d₁.text.value) (n := d₂.text.value) (by omega)
      ⟨h₁, h₂⟩
    refine ⟨[x + 1, y + 1], ⟨x + 1, y + 1, rfl, by omega, by omega, by omega, by omega⟩, ?_⟩
    rw [hplace (by omega) (by omega), Int.add_sub_cancel, Int.add_sub_cancel]

/-- With another distance between columns the last place is not taken, or the last element has none. -/
theorem exact_of_bijOn {d₁ d₂ : Extent} (h : Set.BijOn (Extents.place number (.matrix d₁ d₂))
    (Extents.subscripts (.matrix d₁ d₂)) (places (d₁.text.value * d₂.text.value))) :
    number d₁.text = d₁.text.value ∨ d₂.text.value = 1 := by
  obtain ⟨hmaps, -, hsurj⟩ := h
  have hm := d₁.pos
  have hn := d₂.pos
  generalize hl : number d₁.text = l
  by_contra hne
  obtain ⟨hlm, hn₁⟩ := not_or.1 hne
  have hcorner : (d₁.text.value * d₂.text.value : Int) - 1 =
      (d₁.text.value - 1) + (d₂.text.value - 1) * d₁.text.value := by
    rw [Int.sub_mul, Int.one_mul, Int.mul_comm (d₂.text.value : Int)]
    omega
  rcases Int.lt_or_gt_of_ne hlm with hlt | hgt
  · have hlast : (d₁.text.value * d₂.text.value : Int) - 1 ∈
        places (d₁.text.value * d₂.text.value) := by
      have hprod : 0 ≤ ((d₂.text.value : Int) - 1) * d₁.text.value := Int.mul_nonneg (by omega) (by omega)
      rw [mem_places]
      omega
    obtain ⟨_, ⟨x, y, rfl, hx₁, hx₂, hy₁, hy₂⟩, hxy⟩ := hsurj hlast
    have hxy : (x - 1) + (y - 1) * l = d₁.text.value * d₂.text.value - 1 := by rw [← hl]; exact hxy
    have hstep : (y - 1) * l ≤ (y - 1) * (d₁.text.value - 1) :=
      Int.mul_le_mul_of_nonneg_left (by omega) (by omega)
    have hrows : (y - 1) * ((d₁.text.value : Int) - 1) ≤ (d₂.text.value - 1) * (d₁.text.value - 1) :=
      Int.mul_le_mul_of_nonneg_right (by omega) (by omega)
    have hexpand : ((d₂.text.value : Int) - 1) * (d₁.text.value - 1) =
        (d₂.text.value - 1) * d₁.text.value - (d₂.text.value - 1) := by rw [Int.mul_sub, Int.mul_one]
    omega
  · have hin := hmaps ⟨d₁.text.value, d₂.text.value, rfl, by omega, by omega, by omega, by omega⟩
    have hle : (d₁.text.value - 1) + (d₂.text.value - 1) * l ≤ (d₁.text.value * d₂.text.value : Int) - 1 := by
      rw [← hl]
      exact Int.le_sub_one_of_lt hin.2
    have hlt : ((d₂.text.value : Int) - 1) * d₁.text.value < (d₂.text.value - 1) * l :=
      Int.mul_lt_mul_of_pos_left hgt (by omega)
    omega

/-- The elements take every place once if and only if the leading dimension is exact. -/
theorem bijOn_place_iff (E : Extents) :
    Set.BijOn (E.place number) E.subscripts (places E.size) ↔ E.Exact number := by
  cases E with
  | vector d => exact ⟨fun _ => trivial, fun _ => bijOn_vector d⟩
  | matrix d₁ d₂ =>
    rw [Extents.size, Int.natCast_mul]
    exact ⟨exact_of_bijOn, bijOn_matrix⟩

theorem Extents.exact_value (E : Extents) : E.Exact fun d => d.value := by
  cases E with
  | vector d => trivial
  | matrix d₁ d₂ => exact .inl rfl

theorem Extents.exact_number (E : Extents) (A : Integral) (h : ∀ d ∈ E.texts, d.head? ≠ some '0') :
    E.Exact A.number := by
  cases E with
  | vector d => trivial
  | matrix d₁ d₂ =>
    have hnumber := A.number_toDigits d₁.text.value
    rw [toDigits_value d₁.isDigits (h _ (by simp [Extents.texts]))] at hnumber
    exact .inl hnumber

/-! ### Index texts -/

def vectorIndex (x : Text) : Text := "(" ++ x ++ ")" ++ "-" ++ "1"

def matrixIndex (x y leading : Text) : Text :=
  "(" ++ vectorIndex x ++ ")" ++ "+" ++ ("(" ++ vectorIndex y ++ ")" ++ "*" ++ ("(" ++ leading ++ ")"))

theorem vectorSubscript_eq (x : Text) : vectorSubscript x = "[" ++ vectorIndex x ++ "]" := by
  simp [vectorSubscript, vectorIndex]

theorem matrixSubscript_eq (x y leading : Text) :
    matrixSubscript x y leading = "[" ++ matrixIndex x y leading ++ "]" := by
  change "[((" ++ x ++ ")-1)+((" ++ y ++ ")-1)*(" ++ leading ++ ")]" = _
  simp [matrixIndex, vectorIndex]

section Index
variable {powers : Bool} {A : Integral} {t u d : Text} {x y : Int}

/-- A text that stands for an integer.  Powers are left in it only if `powers` holds. -/
def Stands (powers : Bool) (A : Integral) (t : Text) (x : Int) : Prop :=
  ∃ l, 1 ≤ l ∧ Denotes powers A.toAlgebra l (rounded t) x

theorem Stands.parens (h : Stands powers A t x) : Denotes powers A.toAlgebra 9 (rounded ("(" ++ t ++ ")")) x := by
  obtain ⟨l, hl, hd⟩ := h
  rw [rounded_append, rounded_append]
  exact hd.parens hl

theorem Stands.vectorIndex (h : Stands powers A t x) : Stands powers A (vectorIndex t) (x - 1) := by
  have hone : Denotes powers A.toAlgebra 9 "1" 1 := by
    have hd := denotes_digits A.toArithmetic (d := "1") (by decide)
    rw [show A.number "1" = 1 from A.number_toDigits 1] at hd
    exact hd.loose
  refine ⟨5, by decide, ?_⟩
  rw [Storage.vectorIndex, rounded_append, rounded_append, ← A.binary_sub]
  exact .operator (by decide) (by decide) (by decide) (h.parens.tighter (by decide)) (hone.tighter (by decide))

theorem Stands.matrixIndex (hd : d.isDigits = true) (ht : Stands powers A t x) (hu : Stands powers A u y) :
    Stands powers A (matrixIndex t u d) ((x - 1) + (y - 1) * A.number d) := by
  have hleading : Stands powers A d (A.number d) := by
    refine ⟨9, by decide, ?_⟩
    rw [rounded_word fun c hc => word_of_digit ((mem_of_isDigits hd).2 c hc)]
    exact (denotes_digits A.toArithmetic hd).loose
  refine ⟨5, by decide, ?_⟩
  have hproduct : Denotes powers A.toAlgebra 6
      (rounded ("(" ++ Storage.vectorIndex u ++ ")" ++ "*" ++ ("(" ++ d ++ ")"))) ((y - 1) * A.number d) := by
    rw [rounded_append, rounded_append, ← A.binary_mul]
    exact .operator (by decide) (by decide) (by decide) (hu.vectorIndex.parens.tighter (by decide))
      (hleading.parens.tighter (by decide))
  rw [Storage.matrixIndex, rounded_append, rounded_append, ← A.binary_add]
  exact .operator (by decide) (by decide) (by decide) (ht.vectorIndex.parens.tighter (by decide)) hproduct

end Index

/-! ### The declaration -/

/-- The characters of each element, where the elements are texts. -/
def characters (s : Symbol) : Text := (s.storage.map fun (n : Text) => "[" ++ n ++ "]").getD []

section Declaration
variable {E : Extents} {s : Symbol}

theorem foldl_sizes (E : Extents) (hsize : E.size < Nat.pow 2 53) :
    E.texts.foldl (fun n d => Count.mul n (.ofDigits d)) (.finite 1) = .finite E.size := by
  have hone {d : Text} (h : d.value < Nat.pow 2 53) : (Count.finite 1).mul (.ofDigits d) = .finite d.value := by
    have hmul := Count.mul_ofDigits (m := 1) (d := d) (by rwa [Nat.one_mul]) (Nat.le_refl 1)
    rwa [Int.natCast_one, Int.one_mul] at hmul
  cases E with
  | vector d =>
    rw [Extents.size] at hsize ⊢
    rw [Extents.texts, List.foldl_cons, List.foldl_nil, hone hsize]
  | matrix d₁ d₂ =>
    have hrows : d₁.text.value < Nat.pow 2 53 :=
      Nat.lt_of_le_of_lt (Nat.le_mul_of_pos_right _ d₂.pos) hsize
    rw [Extents.texts, List.foldl_cons, hone hrows, List.foldl_cons, List.foldl_nil, Count.mul_ofDigits hsize d₁.pos,
      Extents.size, Int.natCast_mul]

theorem size?_eq (hd : s.dimensions = E.texts) (hsize : E.size < Nat.pow 2 53) :
    s.size? = some (.finite E.size) := by
  have hdigits : E.texts.all Text.isDigits = true := by
    cases E with
    | vector d => simp [Extents.texts, d.isDigits]
    | matrix d₁ d₂ => simp [Extents.texts, d₁.isDigits, d₂.isDigits]
  rw [Symbol.size?, hd, if_pos hdigits, foldl_sizes E hsize]

theorem localDeclaration_eq (hk : s.kind = E.kind) (hd : s.dimensions = E.texts)
    (hsize : E.size < Nat.pow 2 53) : s.localDeclaration.1 =
      targetType s.baseType ++ " " ++ s.name ++ "[" ++ Nat.toDigits 10 E.size ++ "]" ++ characters s := by
  have hrender : (Count.finite E.size).render = Nat.toDigits 10 E.size := by
    rw [Count.render_of_lt (n := (E.size : Nat)) hsize, if_neg (by omega), List.nil_append, Int.natAbs_natCast]
  have hn := size?_eq hd hsize
  cases E <;> simp only [Symbol.localDeclaration, hk, Extents.kind, hn, hrender, characters]

theorem kind_symbol_eq {e : DeclaredEntry} (he : e.dimensions = E.texts) (base : BaseType)
    (constants : Assoc Text) : (e.symbol base constants).kind = E.kind := by
  cases E <;> simp [DeclaredEntry.symbol, DeclaredEntry.kind, he, Extents.texts, Extents.kind]

end Declaration

/-! ### References -/

/-- A reference to an array. -/
structure Mention where
  name : Text
  isName : IsName name
  gap : Text
  allBlank : gap.allBlank = true
  /-- What stands between the parentheses. -/
  inner : Text
  nested : Nested inner

namespace Mention

def text (r : Mention) : Text := r.name ++ r.gap ++ "(" ++ r.inner ++ ")"

/-- The subscripts in the output. -/
def subscripts (scope : ReferenceScope) (r : Mention) : List Text :=
  (listItems r.inner).map fun t => (Reference.scan scope false none 0 [] [] t).1

end Mention

/-- The index in the output, given the subscripts. -/
def Extents.index? : Extents → List Text → Option Text
  | .vector _, [x] => some (vectorIndex x)
  | .matrix d₁ _, [x, y] => some (matrixIndex x y d₁.text)
  | _, _ => none

section References
variable {E : Extents} {s : Symbol}

theorem bracket?_eq (hk : s.kind = E.kind) (hd : s.dimensions = E.texts) {us : List Text} {index : Text}
    (h : E.index? us = some index) (reference : Text) (terms : List Text) :
    (Reference.bracket? s reference terms us).1 = some ("[" ++ index ++ "]") := by
  fun_cases Extents.index? E us with
  | case1 d x =>
    obtain rfl : vectorIndex x = index := Option.some.inj h
    simp only [Reference.bracket?, hk, Extents.kind, vectorSubscript_eq]
  | case2 d₁ d₂ x y =>
    obtain rfl : matrixIndex x y d₁.text = index := Option.some.inj h
    simp only [Reference.bracket?, hk, Extents.kind, Reference.leadingDimension, hd, Extents.texts,
      List.head?_cons, Option.getD_some, matrixSubscript_eq]
  | case3 => simp [Extents.index?] at h

/-- A reference that is no argument. -/
theorem render_alone {scope : ReferenceScope} {inner bracket : Text} {terms us : List Text}
    (h : (Reference.bracket? s (s.name ++ "(" ++ inner ++ ")") terms us).1 = some bracket) {before after : Text} :
    (Reference.render scope s inner terms us none before after).1 =
      s.name ++ if scope.simplify then simplifySubscript bracket else bracket := by
  rw [Reference.render]
  generalize Reference.bracket? s (s.name ++ "(" ++ inner ++ ")") terms us = b at h
  obtain ⟨_, issues⟩ := b
  cases h
  rfl

/-- A reference becomes the name in the table with the index in brackets. -/
theorem linearize_mention {c : Analysis} {r : Mention} {index : Text} (hs : c.symbols.array? r.name = some s)
    (hk : s.kind = E.kind) (hd : s.dimensions = E.texts)
    (h : E.index? (r.subscripts c.referenceScope) = some index) (line : Option Nat) :
    (c.linearize line r.text).2 = s.name ++
      if c.options.simplifySubscripts then simplifySubscript ("[" ++ index ++ "]") else "[" ++ index ++ "]" := by
  have hscan := Reference.scanText_array c.referenceScope true (Reference.callTarget? [] 0 r.text) 0 [] [] r.isName
    r.allBlank hs r.nested []
  have htext : r.text = r.name ++ (r.gap ++ '(' :: (r.inner ++ [')'])) := by simp [Mention.text]
  rw [← htext, Reference.scanText_nil, List.nil_append] at hscan
  exact hscan.trans (render_alone (bracket?_eq hk hd h _ _))

/-- The index of subscripts that stand for integers. -/
theorem exists_index {powers : Bool} {A : Integral} {us : List Text} {xs : List Int}
    (h : List.Forall₂ (Stands powers A) us xs) (hlen : xs.length = E.texts.length) :
    ∃ index, E.index? us = some index ∧ Stands powers A index (E.place A.number xs) := by
  cases E with
  | vector d =>
    obtain ⟨x, rfl⟩ := List.length_eq_one_iff.1 hlen
    obtain ⟨t, us, ht, hnil, rfl⟩ := List.forall₂_cons_right_iff.1 h
    obtain rfl := List.forall₂_nil_right_iff.1 hnil
    exact ⟨_, rfl, ht.vectorIndex⟩
  | matrix d₁ d₂ =>
    obtain ⟨x, y, rfl⟩ := List.length_eq_two.1 hlen
    obtain ⟨t, us, ht, hrest, rfl⟩ := List.forall₂_cons_right_iff.1 h
    obtain ⟨u, us, hu, hnil, rfl⟩ := List.forall₂_cons_right_iff.1 hrest
    obtain rfl := List.forall₂_nil_right_iff.1 hnil
    exact ⟨_, rfl, ht.matrixIndex d₁.isDigits hu⟩

/-- The index of subscripts that are index expressions. -/
def Extents.subscript? : Extents → List (Index.Tree .expr) → Option Index.Subscript
  | .vector _, [x] => some (.vector x)
  | .matrix d₁ _, [x, y] => some (.matrix x y (.plain (.single (.number ⟨d₁.text, d₁.isDigits⟩))))
  | _, _ => none

theorem subscript?_eq {es : List (Index.Tree .expr)} {b : Index.Subscript} (h : E.subscript? es = some b) :
    E.index? (es.map (·.print)) = some b.content.print ∧
      ∀ I, b.content.meaning I = E.place (fun d => d.value) (es.map (·.meaning I)) := by
  fun_cases Extents.subscript? E es with
  | case1 d x =>
    obtain rfl : Index.Subscript.vector x = b := Option.some.inj h
    refine ⟨?_, fun I => rfl⟩
    simp [Extents.index?, vectorIndex, Index.Subscript.content, Index.Subscript.shifted, Index.Tree.print]
  | case2 d₁ d₂ x y =>
    cases h
    refine ⟨?_, fun I => rfl⟩
    simp [Extents.index?, matrixIndex, vectorIndex, Index.Subscript.content, Index.Subscript.shifted,
      Index.Tree.print]
  | case3 => simp [Extents.subscript?] at h

/-- Simplified or not, the index is an expression with the value that it had, and it has no needless zero in
front of a number if it had none. -/
theorem exists_settled {b : Index.Subscript} (h : b.content.literals < Nat.pow 2 53) (simplify : Bool) :
    ∃ i : Index.Tree .expr, (if simplify then simplifySubscript ("[" ++ b.content.print ++ "]")
        else "[" ++ b.content.print ++ "]") = "[" ++ i.print ++ "]" ∧ i.meaning = b.content.meaning ∧
      (Unled b.content.print → Unled i.print) := by
  cases simplify with
  | false => exact ⟨b.content, rfl, rfl, id⟩
  | true =>
    obtain ⟨⟨k, -, hsimple⟩, hunled⟩ := accepts_iterate 10 h (accepts_print b.content)
    obtain ⟨i, hi, hmeaning⟩ := hsimple.exists_tree
    have hsquare : isWord '[' = false ∧ isWord ']' = false := by decide
    have hbrackets (t : Text) : Unled ("[" ++ t ++ "]") ↔ Unled t ∧ Unled [] := by
      simp [unled_cons, unled_mark, hsquare]
    rw [show Simplify.iterate 10 _ = _ from hi, hbrackets, hbrackets] at hunled
    exact ⟨i, hi, hmeaning, fun hb => (hunled ⟨hb, unled_nil⟩).1⟩

end References

/-- The declaration of a local array with literal extents has the size of the array, if that is below `2^53`.
The index of a reference is the place of the element: where numerals are decimal, simplified or not; with the
numerals of the output, simplified or not, if no number has a needless zero in front; and with those as the index
stands if it is not simplified.  With decimal places the elements fill the declaration one to one; with
those of the output if and only if the leading dimension keeps its value, as it does without a zero in front. -/
theorem elements_fit_storage (a : Analysis) (line : Nat) (base : BaseType) (e : DeclaredEntry) (E : Extents)
    (he : e.dimensions = E.texts) (hfree : a.symbols.has e.name = false) :
    (E.size < Nat.pow 2 53 → (a.record line base e).2 = some (base.target ++ " " ++ e.name ++ "[" ++
      Nat.toDigits 10 E.size ++ "]" ++ characters (e.symbol base a.constants))) ∧
    (∀ (c : Analysis) (r : Mention) (l : Option Nat), r.name.lower = e.name.lower →
      c.symbols.lookup? e.name = (a.record line base e).1.symbols.lookup? e.name →
      (∀ (es : List (Index.Tree .expr)) (b : Index.Subscript), E.subscript? es = some b →
        b.content.literals < Nat.pow 2 53 → r.subscripts c.referenceScope = es.map (·.print) →
        ∃ i : Index.Tree .expr, (c.linearize l r.text).2 = e.name.lower ++ ("[" ++ i.print ++ "]") ∧
          (∀ I, i.meaning I = E.place (fun d => d.value) (es.map (·.meaning I))) ∧
          (Unled b.content.print → ∀ A : Whole, A.readOutput (rounded i.print) =
            some (E.place (fun d => d.value) (es.map (·.meaning A.reading))))) ∧
      (∀ (powers : Bool) (A : Integral) (xs : List Int), c.options.simplifySubscripts = false →
        List.Forall₂ (Stands powers A) (r.subscripts c.referenceScope) xs → xs.length = E.texts.length →
        ∃ index, (c.linearize l r.text).2 = e.name.lower ++ ("[" ++ index ++ "]") ∧
          A.read (rounded index) = some (E.place A.number xs) ∧
          (powers = false → A.readOutput (rounded index) = some (E.place A.number xs)))) ∧
    Set.BijOn (E.place fun d => d.value) E.subscripts (places E.size) ∧
    ∀ A : Integral,
      (Set.BijOn (E.place A.number) E.subscripts (places E.size) ↔ E.Exact A.number) ∧
        ((∀ d ∈ E.texts, d.head? ≠ some '0') → E.Exact A.number) := by
  have hnew : a.symbols.lookup? e.name = none := by
    rwa [SymbolTable.has, Option.isSome_eq_false_iff, Option.isNone_iff_eq_none] at hfree
  obtain ⟨htext, hlookup⟩ := Analysis.record_free hnew line base
  have hk : (e.symbol base a.constants).kind = E.kind := kind_symbol_eq he base _
  refine ⟨fun hsize => ?_, ?_, (bijOn_place_iff E).2 E.exact_value,
    fun A => ⟨bijOn_place_iff E, E.exact_number A⟩⟩
  · rw [htext, localDeclaration_eq hk he hsize]
    rfl
  intro c r l hname hc
  have hisArray : (e.symbol base a.constants).kind.isArray = true := by rw [hk, E.isArray_kind]
  have harray : c.symbols.array? r.name = some { e.symbol base a.constants with name := e.name.lower } := by
    rw [SymbolTable.array?, SymbolTable.lookup?_congr hname, hc, hlookup]
    exact if_pos hisArray
  constructor
  · intro es b hb hliterals hus
    obtain ⟨hindex, hmeaning⟩ := subscript?_eq hb
    obtain ⟨i, hi, hvalue, hunled⟩ := exists_settled hliterals c.options.simplifySubscripts
    rw [← hus] at hindex
    refine ⟨i, (linearize_mention harray hk he hindex l).trans (congrArg _ hi), fun I => by rw [hvalue, hmeaning],
      fun hb A => ?_⟩
    rw [← hmeaning, ← hvalue]
    exact (Tree.denoted A (hunled hb)).readOutput
  · intro powers A xs hplain hus hlen
    obtain ⟨index, hindex, _, -, hd⟩ := exists_index hus hlen
    have hl := linearize_mention harray hk he hindex l
    rw [if_neg (by simp [hplain])] at hl
    refine ⟨index, hl, hd.read, ?_⟩
    rintro rfl
    exact hd.readOutput

theorem isDigits_two : Text.isDigits "2" = true := by
  decide

/-- The extents of `m(d,2)`. -/
def twoColumns (d : Extent) : Extents := .matrix d ⟨"2", isDigits_two, by decide⟩

/-- Ten rows, where a zero stands in front. -/
def zeroTen : Extent := ⟨"010", by decide, by decide⟩

def ten : Extent := ⟨"10", by decide, by decide⟩

def sampleEntry (d : Extent) : DeclaredEntry := { name := "m", dimensions := [d.text, "2"], length := none }

theorem isName_sampleName : IsName "m" := by
  decide

/-- The reference `m(i,j)`. -/
def sampleMention : Mention := ⟨"m", isName_sampleName, [], List.all_nil, "i,j", by decide⟩

/-- The unit behind the declaration. -/
def declaredUnit (d : Extent) (simplify : Bool) : Analysis :=
  (({ options := { simplifySubscripts := simplify } } : Analysis).record 0 .integer (sampleEntry d)).1

/-- The values of `i` and `j`. -/
def sampleValues (x y : Int) : Whole where
  toIntegral := valued fun n => if n == "i".toList then x else y
  unary_minus _ := rfl
  binary_div _ _ := rfl

theorem subscripts_sampleMention (scope : ReferenceScope) :
    sampleMention.subscripts scope = ["i".toList, "j".toList] := by
  have hname {w : Text} (h : IsName w) : (Reference.scan scope false none 0 [] [] w).1 = w := by
    have hscan := Reference.scanText_name scope false none 0 [] [] h .nil (by decide)
    rw [List.append_nil, Reference.scanText_nil] at hscan
    exact hscan
  have hitems : listItems sampleMention.inner = ["i".toList, "j".toList] := by decide
  rw [Mention.subscripts, hitems, List.map_cons, List.map_cons, List.map_nil, hname (by decide), hname (by decide)]

theorem stands_name (A : Integral) {w : Text} (h : IsName w) : Stands false A w (A.name w) := by
  have hd := Formula.Tree.denotes A.toArithmetic (powerless_name ⟨w, h⟩)
  refine ⟨_, (readLevel_le (Formula.Tree.name ⟨w, h⟩).level).1, ?_⟩
  rw [rounded_word h.mem_word.2]
  exact hd

/-- Two names as subscripts. -/
def nameSubscripts (i j : Index.Name) : List (Index.Tree .expr) :=
  [.plain (.single (.name i)), .plain (.single (.name j))]

/-- The declaration of `m(010,2)` has 20 places, but elements such as (9,1) and (1,2) share one.  In `m(10,2)`
each has its own. -/
theorem zero_shares_places :
    (({} : Analysis).record 0 .integer (sampleEntry zeroTen)).2 = some "int m[20]".toList ∧
      (∃ i : Index.Tree .expr,
        ((declaredUnit zeroTen true).linearize none "m(i,j)").2 = "m" ++ ("[" ++ i.print ++ "]") ∧
        ∀ I, i.meaning I = (I.name "i" - 1) + (I.name "j" - 1) * 10) ∧
      (∀ x y, ∃ index, ((declaredUnit zeroTen false).linearize none "m(i,j)").2 = "m" ++ ("[" ++ index ++ "]") ∧
        (sampleValues x y).readOutput (rounded index) = some ((x - 1) + (y - 1) * 8)) ∧
      (∃ index, ((declaredUnit ten true).linearize none "m(i,j)").2 = "m" ++ ("[" ++ index ++ "]") ∧
        ∀ x y, (sampleValues x y).readOutput (rounded index) = some ((x - 1) + (y - 1) * 10)) ∧
      ¬ Set.BijOn ((twoColumns zeroTen).place (sampleValues 9 1).number) (twoColumns zeroTen).subscripts
        (places 20) := by
  have h (d : Extent) (b : Bool) := elements_fit_storage { options := { simplifySubscripts := b } } 0 .integer
    (sampleEntry d) (twoColumns d) rfl rfl
  refine ⟨((h zeroTen true).1 (by decide)).trans (by decide), ?_, fun x y => ?_, ?_, fun hbij => ?_⟩
  · obtain ⟨i, hindex, hmeaning, -⟩ := ((h zeroTen true).2.1 (declaredUnit zeroTen true) sampleMention none rfl rfl).1
      (nameSubscripts ⟨"i", by decide⟩ ⟨"j", by decide⟩) _ rfl (by decide) (subscripts_sampleMention _)
    exact ⟨i, hindex, hmeaning⟩
  · have hx := stands_name (sampleValues x y).toIntegral (w := "i") (by decide)
    have hy := stands_name (sampleValues x y).toIntegral (w := "j") (by decide)
    obtain ⟨index, hindex, -, hread⟩ := ((h zeroTen false).2.1 (declaredUnit zeroTen false) sampleMention none rfl
      rfl).2 false (sampleValues x y).toIntegral [x, y] rfl (subscripts_sampleMention _ ▸ .cons hx (.cons hy .nil)) rfl
    exact ⟨index, hindex, hread rfl⟩
  · obtain ⟨i, hindex, -, hread⟩ := ((h ten true).2.1 (declaredUnit ten true) sampleMention none rfl rfl).1
      (nameSubscripts ⟨"i", by decide⟩ ⟨"j", by decide⟩) _ rfl (by decide) (subscripts_sampleMention _)
    refine ⟨i.print, hindex, fun x y => hread ?_ (sampleValues x y)⟩
    rw [Unled, show words _ = ["i".toList, "1".toList, "j".toList, "1".toList, "10".toList] by decide +kernel]
    decide
  · rcases ((h zeroTen true).2.2.2 (sampleValues 9 1).toIntegral).1.1 hbij with hten | hone
    · exact absurd hten (by decide)
    · exact absurd hone (by decide)

end FixedForm.Storage
