import FixedForm.Proofs.Spelling.Capital
import FixedForm.Proofs.Text.Fold
import FixedForm.Proofs.Text.Lower
import FixedForm.Proofs.Text.Quoted

/-! Literals under the spelling of a statement.  Lower case, operators and numbers are written into code
only.  Type names are collapsed in the whole text, between two quotes as in a text of its own. -/
namespace FixedForm

namespace Text

/-- Every character of the text is one that holds a unit. -/
def IsHeld (t : Text) : Prop := ∀ c ∈ t, ofUnit (unit c) = c

instance (t : Text) : Decidable (IsHeld t) := inferInstanceAs (Decidable (∀ c ∈ t, _))

theorem isHeld_ofString (s : String) : IsHeld (ofString s) := by
  intro c hc
  obtain ⟨d, -, hc⟩ := List.mem_flatMap.1 hc
  have hunit {n : Nat} (hn : n < 0x10000) : ofUnit (unit (ofUnit n)) = ofUnit n := by
    rw [unit_ofUnit hn]
  have hd : d.toNat < 0xD800 ∨ 0xDFFF < d.toNat ∧ d.toNat < 0x110000 := d.valid
  rw [ofPoint] at hc
  split at hc
  · next hn =>
    obtain rfl := List.mem_singleton.1 hc
    exact hunit hn
  · rcases List.mem_cons.1 hc with he | hc
    · rw [he]
      exact hunit (by omega)
    · rw [List.mem_singleton.1 hc]
      exact hunit (by omega)

theorem exists_of_mem_points {t : Text} {n : Nat} (hn : n < 0x10000) (h : n ∈ points t) :
    ∃ c ∈ t, unit c = n := by
  fun_induction points t with
  | case1 => cases h
  | case2 c => exact ⟨c, by simp, (List.mem_singleton.1 h).symm⟩
  | case3 c d t hp ih =>
    rcases List.mem_cons.1 h with hn | h
    · omega
    · obtain ⟨e, he, hu⟩ := ih h
      exact ⟨e, by simp [he], hu⟩
  | case4 c d t _ ih =>
    rcases List.mem_cons.1 h with rfl | h
    · exact ⟨c, by simp, rfl⟩
    · obtain ⟨e, he, hu⟩ := ih h
      exact ⟨e, List.mem_cons_of_mem _ he, hu⟩

/-- A code point before the letters is in lower case only where it was before. -/
theorem mem_of_mem_lowerPoints {before ps : List Nat} {m : Nat} (hm : m < 65)
    (h : m ∈ lowerPoints before ps) : m ∈ ps := by
  have hascii : ∀ n < 0x80, (Char.ofNat n).toLower.toNat < 65 → (Char.ofNat n).toLower.toNat = n := by
    decide
  have hruns : ∀ run ∈ smallRuns, 90 < (run.first : Int) + run.shift := by decide +kernel
  induction ps generalizing before with
  | nil => cases h
  | cons n ps ih =>
    rw [lowerPoints_cons, lowerForm] at h
    rcases List.mem_append.1 h with h | h
    · refine List.mem_cons.2 (.inl ?_)
      split at h
      · rw [List.mem_singleton] at h
        split at h <;> omega
      · cases lowerOf_mem h with
        | ascii hn => exact hascii n hn hm
        | dotted _ hd => omega
        | partner hrun hn =>
          have hfirst := (CaseRun.holds_iff.1 hn).1
          have hshift := hruns _ hrun
          omega
        | self => rfl
    · exact List.mem_cons_of_mem _ (ih h)

/-- Lower case brings in no quotes. -/
theorem not_quote_lower {t : Text} (hheld : IsHeld t) (ht : ∀ c ∈ t, isQuote c = false) :
    ∀ c ∈ lower t, isQuote c = false := by
  intro c hc
  cases hq : isQuote c with
  | false => rfl
  | true =>
    have hnat : c.toNat = 39 ∨ c.toNat = 34 := by
      rcases eq_of_isQuote hq with rfl | rfl
      · exact .inl rfl
      · exact .inr rfl
    obtain ⟨n, hn, hcn⟩ := List.mem_flatMap.1 hc
    have he := eq_of_ascii_mem_ofPoint (by omega) (by omega) hcn
    obtain ⟨d, hd, hu⟩ := exists_of_mem_points (by omega) (mem_of_mem_lowerPoints (by omega) hn)
    have hdc : d = c := by
      rw [← hheld d hd, hu, ← he, ofUnit, if_neg (by omega), Char.ofNat_toNat]
    rw [hdc] at hd
    rw [ht c hd] at hq
    cases hq

theorem afterFold?_mark {d : Char} (hd : d.isAlpha = false) {lead : Text} (hl : d ∉ lead) (x t : Text) :
    afterFold? lead (x ++ d :: t) = (afterFold? lead x).map (· ++ d :: t) := by
  induction lead generalizing x with
  | nil => rfl
  | cons a lead ih =>
    obtain ⟨hne, hl⟩ : d ≠ a ∧ d ∉ lead := by simpa using hl
    cases x with
    | nil =>
      have hlower : d.toLower = d := toLower_of_not_isUpper fun hu => by
        rw [isAlpha_iff.2 (.inl (isUpper_iff.1 hu))] at hd
        cases hd
      simp [afterFold?, hlower, hne]
    | cons c x =>
      simp only [List.cons_append, afterFold?]
      split
      · exact ih hl x
      · rfl

end Text

namespace Power
open Text

/-- A part of a text without powers has none. -/
theorem cut?_infix {t u : Text} (h : u <:+: t) (ht : cut? t = none) : cut? u = none := by
  obtain ⟨s, r, rfl⟩ := h
  rw [List.append_assoc] at ht
  have hr : cut? (u ++ r) = none := by
    induction s with
    | nil => exact ht
    | cons c s ih => exact ih (cut?_cons_eq_none.1 ht).2
  clear ht
  induction u with
  | nil => rfl
  | cons c u ih =>
    obtain ⟨hc, hu⟩ := cut?_cons_eq_none.1 hr
    refine cut?_cons_eq_none.2 ⟨fun he => hc ⟨he.1, ?_⟩, ih hu⟩
    cases u with
    | nil => cases he.2
    | cons d u => exact he.2

end Power

namespace Spelling
open Text

/-- A character that stands in no type name: neither of a word nor a blank nor a star. -/
structure IsMark (d : Char) : Prop where
  word : isWord d = false
  blank : isBlank d = false
  star : d ≠ '*'

namespace IsMark
variable {d : Char}

theorem of_quote (h : isQuote d = true) : IsMark d := by
  rcases eq_of_isQuote h with rfl | rfl <;> exact ⟨by decide, by decide, by decide⟩

theorem isAlpha (h : IsMark d) : d.isAlpha = false := by
  have hw := h.word
  simp only [isWord, Char.isAlphanum, Bool.or_eq_false_iff] at hw
  exact hw.1.1

theorem not_mem (h : IsMark d) {w : Text} (hw : ∀ c ∈ w, isWord c = true) : d ∉ w := fun hm => by
  have := h.word
  rw [hw d hm] at this
  cases this

end IsMark

/-- A reader that goes no further than the next mark. -/
def StopsAtMarks (reader : Text → Option Text) : Prop :=
  ∀ ⦃d⦄, IsMark d → ∀ x t, reader (x ++ d :: t) = (reader x).map (· ++ d :: t)

namespace StopsAtMarks
variable {first second : Text → Option Text} {w : Text}

theorem bind (h₁ : StopsAtMarks first) (h₂ : StopsAtMarks second) :
    StopsAtMarks fun t => (first t).bind second := by
  intro d hd x t
  dsimp only
  rw [h₁ hd]
  cases first x with
  | none => rfl
  | some x => exact h₂ hd x t

theorem afterFold? (hw : ∀ c ∈ w, isWord c = true) : StopsAtMarks (Text.afterFold? w) :=
  fun _ hd => afterFold?_mark hd.isAlpha (hd.not_mem hw)

theorem blanks? : StopsAtMarks Text.blanks? := fun _ hd x t => blanks?_mark x t hd.blank

theorem after? (hw : ∀ c ∈ w, isWord c = true ∨ c = '*') :
    StopsAtMarks fun t => Text.after? w t.trimStart := by
  intro d hd x t
  have hne : d ∉ w := fun hm => by
    rcases hw d hm with h | h
    · simp [hd.word] at h
    · exact hd.star h
  dsimp only
  rw [trimStart_mark x t hd.blank, after?_mark _ _ hne]

end StopsAtMarks

/-- A rule that reads no further than the next mark, on either side, and writes a word. -/
structure IsLocal (rule : Rule) : Prop extends Clean rule where
  ahead : ∀ {d}, IsMark d → ∀ before x t,
    rule before (x ++ d :: t) = (rule before x).map fun m => (m.1, m.2 ++ d :: t)
  behind : ∀ {d}, IsMark d → ∀ u before t, rule (u ++ d :: before) t = rule u t
  empty : ∀ before, rule before [] = none
  new : ∀ {before t new left}, rule before t = some (new, left) → isWordText new = true

/-- A reader between the ends of words, as a rule. -/
def wordRule (reader : Text → Option Text) (new : Text) : Rule := fun before t =>
  if wordStarts before then
    (reader t).bind fun t => if t.wordEnds then some (new, t) else none
  else none

theorem isLocal_wordRule {reader : Text → Option Text} {new : Text} (hr : StopsAtMarks reader)
    (hempty : reader [] = none) (hn : isWordText new = true) (hc : Clean (wordRule reader new)) :
    IsLocal (wordRule reader new) where
  toClean := hc
  ahead := by
    intro d hd before x t
    rw [wordRule, wordRule]
    split
    · rw [hr hd]
      cases reader x with
      | none => rfl
      | some x =>
        simp only [Option.map_some, Option.bind_some, wordEnds_mark x t hd.word]
        cases wordEnds x <;> rfl
    · rfl
  behind := by
    intro d hd u before t
    rw [wordRule, wordRule, wordStarts, wordStarts, wordEnds_mark u before hd.word]
  empty := by
    intro before
    rw [wordRule, hempty]
    exact ite_self _
  new := by
    intro before t new' left h
    rw [wordRule] at h
    split at h
    · obtain ⟨u, -, h⟩ := Option.bind_eq_some_iff.1 h
      split at h
      · cases h
        exact hn
      · cases h
    · cases h

theorem guard_bind {α : Type} (b : Bool) (a : Option α) :
    ((guard (b = true) : Option Unit).bind fun _ => a) = if b then a else none := by
  cases b <;> rfl

theorem twoWords_eq (first second new : Text) : twoWords first second new =
    wordRule (fun t => (afterFold? first t).bind fun t => t.blanks?.bind (afterFold? second)) new := by
  funext before t
  simp only [twoWords, wordRule, Option.bind_eq_bind, guard_bind, Option.bind_assoc]

theorem starred_eq (type size new : Text) : starred type size new =
    wordRule (fun t => (afterFold? type t).bind fun t => (after? "*" t.trimStart).bind fun t =>
      after? size t.trimStart) new := by
  funext before t
  simp only [starred, wordRule, Option.bind_eq_bind, guard_bind, Option.bind_assoc]

section Words
variable {first second new : Text}

theorem afterFold?_nil (h : isWordText first = true) : afterFold? first [] = none := by
  cases first with
  | nil => cases h
  | cons a first => rfl

variable (h₁ : isWordText first = true) (h₂ : isWordText second = true) (hn : isWordText new = true)
include h₁ h₂ hn

theorem isLocal_twoWords (hc : Clean (twoWords first second new)) :
    IsLocal (twoWords first second new) := by
  rw [twoWords_eq] at hc ⊢
  refine isLocal_wordRule ?_ (by rw [afterFold?_nil h₁]; rfl) hn hc
  exact .bind (.afterFold? (mem_of_isWordText h₁).2)
    (.bind .blanks? (.afterFold? (mem_of_isWordText h₂).2))

theorem isLocal_starred (hc : Clean (starred first second new)) :
    IsLocal (starred first second new) := by
  rw [starred_eq] at hc ⊢
  refine isLocal_wordRule ?_ (by rw [afterFold?_nil h₁]; rfl) hn hc
  exact .bind (.afterFold? (mem_of_isWordText h₁).2) (.bind (.after? fun c hc => .inr (by simpa using hc))
    (.after? fun c hc => .inl ((mem_of_isWordText h₂).2 c hc)))

end Words

theorem isLocal_typeNames : ∀ rule ∈ typeNames, IsLocal rule := by
  intro rule hrule
  have hc := clean_typeNames rule hrule
  simp only [typeNames, List.mem_cons, List.not_mem_nil, or_false] at hrule
  rcases hrule with rfl | rfl | rfl | rfl | rfl | rfl
  iterate 2 exact isLocal_twoWords (by decide) (by decide) (by decide) hc
  iterate 4 exact isLocal_starred (by decide) (by decide) (by decide) hc

namespace IsLocal
variable {rule : Rule} {d : Char}

theorem substituteFrom_behind (h : IsLocal rule) (hd : IsMark d) (u before t : Text) :
    substituteFrom rule (u ++ d :: before) t = substituteFrom rule u t := by
  fun_induction substituteFrom rule u t with
  | case1 => rw [substituteFrom]
  | case2 u c rest hm ih =>
    rw [substituteFrom, h.behind hd, hm]
    exact congrArg (c :: ·) ih
  | case3 u c rest new left hm hlen seen ih =>
    rw [substituteFrom, h.behind hd, hm]
    simp only [hlen, if_true]
    rw [← ih, List.append_assoc]
  | case4 u c rest new left hm hlen ih =>
    rw [substituteFrom, h.behind hd, hm]
    simp only [hlen, if_false]
    exact congrArg (c :: ·) ih

/-- A mark divides the text into two that are changed on their own. -/
theorem substituteFrom_mark (h : IsLocal rule) (hd : IsMark d) (before x t : Text) :
    substituteFrom rule before (x ++ d :: t) = substituteFrom rule before x ++ d :: t.substitute rule := by
  fun_induction substituteFrom rule before x with
  | case1 before =>
    have hm : rule before (d :: t) = none := by
      have := h.ahead hd before [] t
      rwa [h.empty before] at this
    rw [List.nil_append, substituteFrom, hm, substitute, ← h.substituteFrom_behind hd [] before]
    rfl
  | case2 before c rest hm ih =>
    rw [List.cons_append, substituteFrom, ← List.cons_append, h.ahead hd, hm]
    exact congrArg (c :: ·) ih
  | case3 before c rest new left hm hlen seen ih =>
    have hlen' : (left ++ d :: t).length < (c :: (rest ++ d :: t)).length := by
      simp only [List.length_append, List.length_cons] at hlen ⊢
      omega
    have hseen : (c :: (rest ++ d :: t)).take ((c :: (rest ++ d :: t)).length - (left ++ d :: t).length) =
        seen := by
      have hsub : (c :: (rest ++ d :: t)).length - (left ++ d :: t).length =
          (c :: rest).length - left.length := by
        simp only [List.length_append, List.length_cons]
        omega
      rw [hsub, ← List.cons_append, List.take_append_of_le_length (Nat.sub_le _ _)]
    rw [List.cons_append, substituteFrom, ← List.cons_append, h.ahead hd, hm]
    simp only [Option.map_some]
    rw [List.cons_append, if_pos hlen', hseen, ih, List.append_assoc]
  | case4 before c rest new left hm hlen ih =>
    have hlen' : ¬ (left ++ d :: t).length < (c :: (rest ++ d :: t)).length := by
      simp only [List.length_append, List.length_cons] at hlen ⊢
      omega
    rw [List.cons_append, substituteFrom, ← List.cons_append, h.ahead hd, hm]
    simp only [Option.map_some]
    rw [List.cons_append, if_neg hlen']
    exact congrArg (c :: ·) ih

theorem not_mem_substitute (h : IsLocal rule) (hd : IsMark d) {t : Text} (ht : d ∉ t) :
    d ∉ t.substitute rule := by
  have hne : ∀ c ∈ t, c ≠ d := fun c hc he => ht (he ▸ hc)
  have hall : ∀ c ∈ t.substitute rule, c ≠ d := by
    refine forall_mem_substituteFrom (fun before t new left hm ht => ?_) [] hne
    obtain ⟨seen, rfl, -⟩ := h.passes hm
    refine ⟨fun c hc he => ?_, fun c hc => ht c (List.mem_append_right _ hc)⟩
    exact hd.not_mem (mem_of_isWordText (h.new hm)).2 (he ▸ hc)
  exact fun hm => hall d hm rfl

/-- Words in the place of other texts bring no stars together. -/
theorem cut?_substituteFrom (h : IsLocal rule) (before : Text) {t : Text} (ht : Power.cut? t = none) :
    Power.cut? (substituteFrom rule before t) = none ∧
      ((substituteFrom rule before t).head? = some '*' → t.head? = some '*') := by
  fun_induction substituteFrom rule before t with
  | case1 => exact ⟨rfl, id⟩
  | case2 before c rest _ ih | case4 before c rest _ _ _ _ ih =>
    obtain ⟨hc, hrest⟩ := Power.cut?_cons_eq_none.1 ht
    obtain ⟨hi, hhead⟩ := ih hrest
    exact ⟨Power.cut?_cons_eq_none.2 ⟨fun he => hc ⟨he.1, hhead he.2⟩, hi⟩, id⟩
  | case3 before c rest new left hm _ seen ih =>
    obtain ⟨hne, hword⟩ := mem_of_isWordText (h.new hm)
    have hstar : '*' ∉ new := fun hs => absurd (hword _ hs) (by decide)
    obtain ⟨taken, htaken, -⟩ := h.passes hm
    rw [htaken] at ht
    obtain ⟨hi, -⟩ := ih (Power.cut?_infix (List.suffix_append taken left).isInfix ht)
    refine ⟨by rw [Power.cut?_append hstar, hi]; rfl, fun hhead => ?_⟩
    rw [List.head?_append_of_ne_nil _ hne] at hhead
    exact absurd (List.mem_of_mem_head? hhead) hstar

end IsLocal

section Collapse
variable {d : Char} {t : Text}

/-- A property that every rule for type names keeps. -/
theorem collapseTypes_keeps {P : Text → Prop} (hP : ∀ rule, IsLocal rule → ∀ t, P t → P (t.substitute rule))
    (ht : P t) : P (collapseTypes t) := by
  have hrules := isLocal_typeNames
  rw [collapseTypes, substituteAll]
  generalize typeNames = rules at hrules
  induction rules generalizing t with
  | nil => exact ht
  | cons rule rules ih =>
    exact ih (hP rule (hrules rule (by simp)) t ht) fun r hr => hrules r (by simp [hr])

theorem collapseTypes_mark (hd : IsMark d) (x t : Text) :
    collapseTypes (x ++ d :: t) = collapseTypes x ++ d :: collapseTypes t := by
  have hrules := isLocal_typeNames
  rw [collapseTypes, collapseTypes, collapseTypes, substituteAll, substituteAll, substituteAll]
  generalize typeNames = rules at hrules
  induction rules generalizing x t with
  | nil => rfl
  | cons rule rules ih =>
    have hrule := (hrules rule (by simp)).substituteFrom_mark hd [] x t
    rw [List.foldl_cons, substitute, hrule]
    exact ih _ _ fun r hr => hrules r (by simp [hr])

theorem not_mem_collapseTypes (hd : IsMark d) (ht : d ∉ t) : d ∉ collapseTypes t :=
  collapseTypes_keeps (P := (d ∉ ·)) (fun _ h _ ht => h.not_mem_substitute hd ht) ht

theorem cut?_collapseTypes (ht : Power.cut? t = none) : Power.cut? (collapseTypes t) = none :=
  collapseTypes_keeps (P := (Power.cut? · = none)) (fun _ h _ ht => (h.cut?_substituteFrom [] ht).1) ht

theorem collapseTypes_nil : collapseTypes [] = [] :=
  collapseTypes_keeps (P := (· = [])) (fun _ _ t ht => by rw [ht, substitute, substituteFrom]) rfl

theorem free_collapseTypes (ht : ∀ c ∈ t, isQuote c = false) : ∀ c ∈ collapseTypes t, isQuote c = false := by
  intro c hc
  cases hq : isQuote c with
  | false => rfl
  | true =>
    have hne : c ∉ t := fun hm => Bool.noConfusion ((ht c hm).symm.trans hq)
    exact absurd hc (not_mem_collapseTypes (.of_quote hq) hne)

/-- Type names are collapsed inside every literal as well. -/
theorem literals_collapseTypes (t : Text) : literals (collapseTypes t) = (literals t).map collapseTypes := by
  have hquote {q : Char} (hq : isQuote q = true) (t : Text) :
      collapseTypes (q :: t) = q :: collapseTypes t := by
    have h := collapseTypes_mark (.of_quote hq) [] t
    rwa [collapseTypes_nil] at h
  induction t using literal_induction with
  | code x hx => rw [literals_free hx, literals_free (free_collapseTypes hx), List.map_nil]
  | unclosed x q y hx hq hy =>
    have hd := IsMark.of_quote hq
    rw [collapseTypes_mark hd, literals_open (free_collapseTypes hx) hq (not_mem_collapseTypes hd hy),
      literals_open hx hq hy, List.map_singleton, hquote hq]
  | closed x q y t hx hq hy ih =>
    have hd := IsMark.of_quote hq
    have hlit : collapseTypes (q :: (y ++ [q])) = q :: (collapseTypes y ++ [q]) := by
      rw [hquote hq, collapseTypes_mark hd, collapseTypes_nil]
    rw [collapseTypes_mark hd, collapseTypes_mark hd,
      literals_closed (free_collapseTypes hx) hq (not_mem_collapseTypes hd hy), literals_closed hx hq hy,
      ih, List.map_cons, hlit]

/-- Type names hold no parentheses. -/
theorem depthAfter_collapseTypes (t : Text) (k : Nat) :
    depthAfter '(' ')' k (collapseTypes t) = depthAfter '(' ')' k t := by
  have hopen : IsMark '(' := ⟨by decide, by decide, by decide⟩
  have hclose : IsMark ')' := ⟨by decide, by decide, by decide⟩
  -- the text is taken apart at its parentheses; `x` is what stands before the next one
  suffices h : ∀ x : Text, (∀ c ∈ x, c ≠ '(' ∧ c ≠ ')') → ∀ k,
      depthAfter '(' ')' k (collapseTypes (x ++ t)) = depthAfter '(' ')' k (x ++ t) from
    h [] (by simp) k
  have hfree {x : Text} (hx : ∀ c ∈ x, c ≠ '(' ∧ c ≠ ')') : ∀ c ∈ collapseTypes x, c ≠ '(' ∧ c ≠ ')' := by
    intro c hc
    refine ⟨?_, ?_⟩
    · rintro rfl
      exact not_mem_collapseTypes hopen (fun hm => (hx _ hm).1 rfl) hc
    · rintro rfl
      exact not_mem_collapseTypes hclose (fun hm => (hx _ hm).2 rfl) hc
  induction t with
  | nil =>
    intro x hx k
    rw [List.append_nil, depthAfter_free (hfree hx), depthAfter_free hx]
  | cons c t ih =>
    intro x hx k
    have hstep (hc : IsMark c) : depthAfter '(' ')' k (collapseTypes (x ++ c :: t)) =
        depthAfter '(' ')' k (x ++ c :: t) := by
      have hi := ih [] (by simp)
      rw [collapseTypes_mark hc, depthAfter_append, depthAfter_append, depthAfter_free (hfree hx),
        depthAfter_free hx]
      simp only [Option.bind_some, depthAfter]
      simp only [List.nil_append] at hi
      cases k <;> simp only [hi]
    by_cases h₁ : c = '('
    · exact hstep (h₁ ▸ hopen)
    · by_cases h₂ : c = ')'
      · exact hstep (h₂ ▸ hclose)
      · have hxc : ∀ d ∈ x ++ [c], d ≠ '(' ∧ d ≠ ')' := by
          intro d hd
          rcases List.mem_append.1 hd with hd | hd
          · exact hx d hd
          · rw [List.mem_singleton.1 hd]
            exact ⟨h₁, h₂⟩
        have hi := ih (x ++ [c]) hxc k
        rwa [List.append_assoc] at hi

end Collapse

/-- A rule that writes no quotes. -/
def QuoteFree (rule : Rule) : Prop :=
  ∀ {before t new left}, rule before t = some (new, left) → ∀ c ∈ new, isQuote c = false

theorem quoteFree_dottedWords : ∀ rule ∈ dottedWords, QuoteFree rule := by
  have hdotted {name new : Text} (hn : (new.all fun c => !isQuote c) = true) : QuoteFree (dotted name new) := by
    intro before t new' left h
    obtain ⟨rest, -, h⟩ := Option.map_eq_some_iff.1 h
    cases h
    exact not_quote_of_all hn
  intro rule hrule
  simp only [dottedWords, List.mem_cons, List.not_mem_nil, or_false] at hrule
  rcases hrule with rfl | rfl | rfl | rfl | rfl | rfl | rfl | rfl | rfl | rfl | rfl <;>
    exact hdotted (by decide)

theorem not_quote_of_digits {t : Text} (h : ∀ c ∈ t, c.isDigit = true) : ∀ c ∈ t, isQuote c = false :=
  fun c hc => not_quote_of_word (word_of_digit (h c hc))

theorem mantissa?_free {t m u : Text} (h : mantissa? t = some (m, u)) : ∀ c ∈ m, isQuote c = false := by
  have hpoint {w : Text} (hw : ∀ c ∈ w, c.isDigit = true) : ∀ c ∈ '.' :: w, isQuote c = false := by
    intro c hc
    rcases List.mem_cons.1 hc with rfl | hc
    · rfl
    · exact not_quote_of_digits hw c hc
  rw [mantissa?.eq_def] at h
  split at h
  · next whole rest hd =>
    cases h
    intro c hc
    rcases List.mem_append.1 hc with hc | hc
    · exact not_quote_of_digits (digits?_isDigit hd) c hc
    · exact hpoint (List.all_eq_true.1 List.all_takeWhile) c hc
  · next hd =>
    cases h
    exact not_quote_of_digits (digits?_isDigit hd)
  · split at h
    · next rest _ =>
      obtain ⟨⟨digits, u'⟩, hd, h⟩ := Option.map_eq_some_iff.1 h
      cases h
      exact hpoint (digits?_isDigit hd)
    · cases h

theorem sign_free (t : Text) : ∀ c ∈ (Power.sign t).1, isQuote c = false := by
  rw [Power.sign.eq_def]
  split <;> simp [isQuote]

theorem quoteFree_doubleExponent : QuoteFree doubleExponent := by
  intro before t new left h
  simp only [doubleExponent, Option.bind_eq_bind, Option.bind_eq_some_iff] at h
  obtain ⟨-, -, ⟨m, t₁⟩, hm, t₂, -, ⟨e, t₃⟩, he, -, -, h⟩ := h
  cases h
  intro c hc
  simp only [List.mem_append] at hc
  rcases hc with ((hc | hc) | hc) | hc
  · exact mantissa?_free hm c hc
  · exact not_quote_of_all (t := "e") rfl c hc
  · exact sign_free t₂ c hc
  · exact not_quote_of_digits (digits?_isDigit he) c hc

/-- What a rule leaves stands at the end of the text. -/
def LeavesEnd (rule : Rule) : Prop := ∀ {before t new left}, rule before t = some (new, left) → left <:+ t

section Free
variable {rule : Rule} {rules : List Rule} {t : Text}

theorem free_substitute_end (hs : LeavesEnd rule) (hq : QuoteFree rule) (ht : ∀ c ∈ t, isQuote c = false) :
    ∀ c ∈ t.substitute rule, isQuote c = false :=
  forall_mem_substituteFrom (fun _ _ _ _ hm ht => ⟨hq hm, fun c hc => ht c ((hs hm).mem hc)⟩) [] ht

theorem free_substituteAll_end (hs : ∀ rule ∈ rules, LeavesEnd rule) (hq : ∀ rule ∈ rules, QuoteFree rule)
    (ht : ∀ c ∈ t, isQuote c = false) : ∀ c ∈ t.substituteAll rules, isQuote c = false :=
  List.foldlRecOn (motive := fun t => ∀ c ∈ t, isQuote c = false) rules _ ht
    fun _ ht rule hr => free_substitute_end (hs rule hr) (hq rule hr) ht

theorem Clean.leavesEnd (h : Clean rule) : LeavesEnd rule := fun hm => by
  obtain ⟨seen, rfl, -⟩ := h.passes hm
  exact List.suffix_append seen _

theorem free_substitute (hc : Clean rule) (hq : QuoteFree rule) (ht : ∀ c ∈ t, isQuote c = false) :
    ∀ c ∈ t.substitute rule, isQuote c = false :=
  free_substitute_end hc.leavesEnd hq ht

theorem free_substituteAll (hc : ∀ rule ∈ rules, Clean rule) (hq : ∀ rule ∈ rules, QuoteFree rule)
    (ht : ∀ c ∈ t, isQuote c = false) : ∀ c ∈ t.substituteAll rules, isQuote c = false :=
  free_substituteAll_end (fun rule hr => (hc rule hr).leavesEnd) hq ht

end Free

/-- Up to powers, a literal changes only where it holds a type name. -/
theorem literals_beforePowers {t : Text} (ht : IsHeld t) :
    literals (beforePowers t) = (literals t).map collapseTypes := by
  have hfold : literals (foldCase t) = literals t :=
    literals_mapCode (fun x hx hheld => not_quote_lower hheld hx) ht
  have hcode {f : Text → Text} (hf : ∀ x, (∀ c ∈ x, isQuote c = false) → ∀ c ∈ f x, isQuote c = false)
      (u : Text) : literals (u.mapCode f) = literals u :=
    literals_mapCode (P := fun _ => True) (fun x hx _ => hf x hx) fun _ _ => trivial
  rw [beforePowers, numbers,
    hcode fun _ hx => free_substitute clean_doubleExponent quoteFree_doubleExponent hx, operators,
    hcode fun _ hx => free_substituteAll clean_dottedWords quoteFree_dottedWords hx,
    literals_collapseTypes, hfold]

end Spelling

end FixedForm
