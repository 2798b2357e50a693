import FixedForm.Output
import FixedForm.Proofs.Assoc
import FixedForm.Proofs.Text.Pieces
import FixedForm.Proofs.Text.Quoted
import Mathlib.Data.List.Induction

/-! The report of index variables.  It names the variables of subscripts in the order of their first use,
as far as a use comes directly behind an opening bracket: where an inner subscript ends, the rest of the
outer one is not read. -/
namespace FixedForm

/-- Names that are added one after the other stay in the order in which they first came. -/
theorem foldl_addOnce (names xs : List Text) :
    xs.foldl addOnce names = names ++ (xs.filter (!names.contains ·)).eraseDups := by
  induction xs generalizing names with
  | nil => simp
  | cons x xs ih =>
    rw [List.foldl_cons, addOnce, List.filter_cons]
    cases hx : names.contains x with
    | true => simpa using ih names
    | false =>
      have hfilter : (xs.filter fun y => !(names ++ [x]).contains y) =
          (xs.filter (!names.contains ·)).filter fun y => !y == x := by
        rw [List.filter_filter]
        refine List.filter_congr fun y _ => ?_
        rw [Bool.eq_iff_iff]
        simp [and_comm]
      simp only [Bool.false_eq_true, if_false, Bool.not_false, if_true]
      rw [ih, hfilter, List.eraseDups_cons, List.append_assoc, List.singleton_append]

theorem foldl_addOnce_nil (xs : List Text) : xs.foldl addOnce [] = xs.eraseDups := by
  simpa using foldl_addOnce [] xs

namespace Output
open Text

/-! ### Words in subscripts -/

/-- A word in a subscript.  It is `direct` when the last bracket before it is an opening one, so that no
inner subscript ends between the two. -/
structure Use where
  word : Text
  direct : Bool
  deriving DecidableEq, Repr

/-- The words in subscripts, in order, where `depth` subscripts are open and `direct` tells of the last
bracket. -/
def usesFrom (depth : Nat) (direct : Bool) : List Piece → List Use
  | [] => []
  | .mark c :: ps =>
    if c == '[' then usesFrom (depth + 1) true ps
    else if c == ']' then usesFrom (depth - 1) false ps
    else usesFrom depth direct ps
  | .word w :: ps =>
    if depth = 0 then usesFrom depth direct ps else ⟨w, direct⟩ :: usesFrom depth direct ps

/-- The words in the subscripts of a text. -/
def uses (t : Text) : List Use := usesFrom 0 false t.pieces

/-- The words that are used directly. -/
def directWords (us : List Use) : List Text := (us.filter (·.direct)).map (·.word)

theorem directWords_append (us vs : List Use) : directWords (us ++ vs) = directWords us ++ directWords vs := by
  simp [directWords]

theorem mem_directWords {us : List Use} {w : Text} :
    w ∈ directWords us ↔ ∃ d ∈ us, d.direct = true ∧ d.word = w := by
  simp [directWords, and_assoc]

section Depth
variable {x : Text}

theorem not_bracket_of_word {c : Char} (hc : isWord c = true) : c ≠ '[' ∧ c ≠ ']' := by
  constructor <;> rintro rfl <;> exact absurd hc (by decide)

theorem depthAfter_words (k : Nat) (hx : ∀ c ∈ x, isWord c = true) (t : Text) :
    depthAfter '[' ']' k (x ++ t) = depthAfter '[' ']' k t := by
  rw [depthAfter_append, depthAfter_free fun c hc => not_bracket_of_word (hx c hc), Option.bind_some]

/-- A stretch without closing brackets, behind an opening one: all its words are used directly. -/
theorem usesFrom_stretch (hx : ']' ∉ x) (k : Nat) : ∃ n,
    (∀ ps, usesFrom (k + 1) true (x.pieces ++ ps) = x.words.map (⟨·, true⟩) ++ usesFrom (k + n + 1) true ps) ∧
      ∀ t, depthAfter '[' ']' (k + 1) (x ++ t) = depthAfter '[' ']' (k + n + 1) t := by
  fun_induction pieces x generalizing k with
  | case1 => exact ⟨0, fun ps => by simp [words, pieces], fun t => rfl⟩
  | case2 c x hc ih =>
    obtain ⟨n, hps, ht⟩ := ih (fun hm => hx (List.mem_cons_of_mem c ((List.dropWhile_sublist _).subset hm))) k
    refine ⟨n, fun ps => ?_, fun t => ?_⟩
    · rw [words_word hc, List.cons_append, usesFrom, if_neg (Nat.succ_ne_zero k), hps]
      rfl
    · have hword : ∀ d ∈ c :: x.takeWhile isWord, isWord d = true :=
        List.forall_mem_cons.2 ⟨hc, List.all_eq_true.1 List.all_takeWhile⟩
      have hsplit : c :: x ++ t = (c :: x.takeWhile isWord) ++ (x.dropWhile isWord ++ t) := by
        simp [← List.append_assoc]
      rw [hsplit, depthAfter_words _ hword, ht]
  | case3 c x hc ih =>
    have hc : isWord c = false := by simpa using hc
    obtain ⟨hne, hx⟩ := not_or.1 (mt List.mem_cons.2 hx)
    have hclose : (c == ']') = false := beq_eq_false_iff_ne.2 (Ne.symm hne)
    rw [words_mark hc]
    by_cases ho : c = '['
    · obtain ⟨n, hps, ht⟩ := ih hx (k + 1)
      rw [Nat.add_right_comm k 1 n] at hps ht
      refine ⟨n + 1, fun ps => ?_, fun t => ?_⟩
      · rw [ho]
        exact hps ps
      · rw [ho]
        exact ht t
    · have hopen : (c == '[') = false := beq_eq_false_iff_ne.2 ho
      obtain ⟨n, hps, ht⟩ := ih hx k
      refine ⟨n, fun ps => ?_, fun t => ?_⟩
      · rw [List.cons_append, usesFrom, hopen, hclose]
        exact hps ps
      · rw [List.cons_append, depthAfter, hopen, hclose]
        exact ht t

end Depth

/-! ### What is searched -/

theorem brackets_append {x : Text} (hx : '[' ∉ x) (t : Text) : brackets (x ++ t) = brackets t := by
  induction x with
  | nil => rfl
  | cons c x ih =>
    obtain ⟨hc, hx⟩ := not_or.1 (mt List.mem_cons.2 hx)
    rw [List.cons_append, brackets, if_neg (by simpa using Ne.symm hc), ih hx]

theorem brackets_open {x : Text} (hx : ']' ∉ x) (t : Text) :
    (brackets ('[' :: (x ++ ']' :: t))).flatMap words = words x ++ (brackets t).flatMap words := by
  have hin : ∀ c ∈ x, (c != ']') = true := fun c hc => by simpa using fun he : c = ']' => hx (he ▸ hc)
  have hend : StartsOutside (· != ']') (']' :: t) := .cons (bne_self_eq_false ']')
  have htake := takeWhile_run hin hend
  have hdrop := dropWhile_run hin hend
  rw [brackets, if_pos (beq_self_eq_true '[')]
  split
  · next a inner hd ht =>
    rw [hdrop] at hd
    rw [htake] at ht
    obtain ⟨-, rfl⟩ := List.cons.inj hd
    rw [← ht, List.flatMap_cons]
  · next hne =>
    -- nothing stands between the brackets
    cases x with
    | nil =>
      rw [List.nil_append, brackets, if_neg (by decide), words, pieces]
      rfl
    | cons c x => exact absurd htake (hne ']' t c x hdrop)

/-- A bracket that is closed has its closing bracket behind it. -/
theorem mem_of_closed {t : Text} {k : Nat} (h : depthAfter '[' ']' k ('[' :: t) = some 0) : ']' ∈ t := by
  by_contra hno
  obtain ⟨m, -, ht⟩ := usesFrom_stretch hno k
  have hopen := ht []
  rw [List.append_nil] at hopen
  cases hopen.symm.trans h

theorem directWords_word {c : Char} (hc : isWord c = true) (t : Text) (k : Nat) :
    directWords (usesFrom k false (pieces (c :: t))) =
      directWords (usesFrom k false (pieces (t.dropWhile isWord))) := by
  rw [pieces_word hc, usesFrom]
  split <;> simp [directWords]

/-- The search finds the words that are used directly, wherever it starts between two finds. -/
theorem directWords_usesFrom {t : Text} {k : Nat} (h : depthAfter '[' ']' k t = some 0) :
    directWords (usesFrom k false t.pieces) = (brackets t).flatMap words := by
  induction hlen : t.length using Nat.strongRecOn generalizing t k with
  | ind n ih =>
    subst hlen
    cases t with
    | nil => simp [pieces, usesFrom, directWords, brackets]
    | cons c t =>
      cases hc : isWord c with
      | true =>
        have hword : ∀ d ∈ c :: t.takeWhile isWord, isWord d = true :=
          List.forall_mem_cons.2 ⟨hc, List.all_eq_true.1 List.all_takeWhile⟩
        have hsplit : c :: t = (c :: t.takeWhile isWord) ++ t.dropWhile isWord := by simp
        rw [hsplit, depthAfter_words k hword] at h
        have hrest := ih _ (Nat.lt_succ_of_le (length_dropWhile_le isWord t)) h rfl
        rw [directWords_word hc, hrest, hsplit, brackets_append fun hm => (not_bracket_of_word (hword _ hm)).1 rfl]
      | false =>
        rw [pieces_mark hc, usesFrom]
        by_cases ho : c = '['
        · subst ho
          -- all words up to the next closing bracket are found at once
          obtain ⟨x, rest, rfl, hx⟩ := List.eq_append_cons_of_mem (mem_of_closed h)
          obtain ⟨m, hps, ht⟩ := usesFrom_stretch hx k
          have hrest : depthAfter '[' ']' (k + m) rest = some 0 := (ht (']' :: rest)).symm.trans h
          have hlater := ih rest.length (by simp; omega) hrest rfl
          have hall : directWords ((words x).map (⟨·, true⟩)) = words x := by
            simp [directWords, List.filter_map, Function.comp_def]
          rw [if_pos (beq_self_eq_true '['), pieces_append_mark (by decide), hps, directWords_append,
            brackets_open hx, ← hlater, hall]
          rfl
        · have hskip := brackets_append (x := [c]) (by simpa using Ne.symm ho) t
          have hopen : (c == '[') = false := beq_eq_false_iff_ne.2 ho
          rw [List.singleton_append] at hskip
          rw [depthAfter.eq_def] at h
          simp only [hopen, Bool.false_eq_true, if_false] at h ⊢
          rw [hskip]
          by_cases he : c = ']'
          · subst he
            cases k with
            | zero => cases h
            | succ k => exact ih _ (Nat.lt_succ_self _) h rfl
          · have hclose : (c == ']') = false := beq_eq_false_iff_ne.2 he
            simp only [hclose, Bool.false_eq_true, if_false] at h ⊢
            exact ih _ (Nat.lt_succ_self _) h rfl

/-! ### Variables -/

/-- A word that may be an index variable: no number, not reserved, no array, and in no extent of one. -/
structure IsVariable (symbols : SymbolTable) (w : Text) : Prop where
  start : StartsOutside Char.isDigit w
  not_reserved : isReserved w = false
  not_array : symbols.isArray w = false
  not_extent : ∀ s ∈ symbols.entries, s.kind.isArray = true → ∀ d ∈ s.dimensions, w ∉ words d

theorem isIndexVariable_iff {symbols : SymbolTable} {w : Text} :
    isIndexVariable symbols w = true ↔ IsVariable symbols w := by
  have hstart : (w.head?.map Char.isDigit).getD false = false ↔ StartsOutside Char.isDigit w := by
    rw [StartsOutside]
    cases w.head? <;> simp
  have hextent : (extentWords symbols).contains w = false ↔
      ∀ s ∈ symbols.entries, s.kind.isArray = true → ∀ d ∈ s.dimensions, w ∉ words d := by
    rw [← Bool.not_eq_true, List.contains_iff_mem]
    simp [extentWords]
  simp only [isIndexVariable, Bool.and_eq_true, Bool.not_eq_true']
  rw [hstart, hextent]
  exact ⟨fun h => ⟨h.1.1.1, h.1.2, h.2, h.1.1.2⟩, fun h => ⟨⟨⟨h.1, h.4⟩, h.2⟩, h.3⟩⟩

instance (symbols : SymbolTable) (w : Text) : Decidable (IsVariable symbols w) :=
  decidable_of_iff _ isIndexVariable_iff

/-- The uses of variables in the subscripts of a unit, in order. -/
def variableUses (symbols : SymbolTable) (lines : List Line) : List Use :=
  ((lines.filter fun l => !l.shape.isSilent).flatMap fun l => uses l.text).filter fun u =>
    IsVariable symbols u.word

theorem indexVariables_eq {symbols : SymbolTable} {lines : List Line}
    (h : ∀ l ∈ lines, l.shape.isSilent = false → depthAfter '[' ']' 0 l.text = some 0) :
    indexVariables symbols lines = (directWords (variableUses symbols lines)).eraseDups := by
  have hlines : ((lines.filter fun l => !l.shape.isSilent).flatMap fun l => (brackets l.text).flatMap words) =
      directWords ((lines.filter fun l => !l.shape.isSilent).flatMap fun l => uses l.text) := by
    induction lines with
    | nil => rfl
    | cons l lines ih =>
      obtain ⟨hl, hlines⟩ := List.forall_mem_cons.1 h
      rw [List.filter_cons]
      split
      · next hs =>
        rw [List.flatMap_cons, List.flatMap_cons, directWords_append, ih hlines, uses,
          directWords_usesFrom (hl (by simpa using hs))]
      · exact ih hlines
  have hfilter (us : List Use) : (directWords us).filter (isIndexVariable symbols) =
      directWords (us.filter fun u => IsVariable symbols u.word) := by
    rw [directWords, directWords, List.filter_map, List.filter_filter, List.filter_filter]
    congr 2
    funext u
    rw [Bool.eq_iff_iff]
    simp [isIndexVariable_iff, and_comm]
  rw [indexVariables, foldl_addOnce_nil, hlines, hfilter, variableUses]

/-- Where the first use of each variable is a direct one, the direct uses tell all.  By the last use: a
direct one adds its word to both lists, and the word of any other was added before. -/
theorem eraseDups_directWords {us : List Use}
    (h : ∀ u ∈ us, (us.find? (·.word == u.word)).all (·.direct) = true) :
    (directWords us).eraseDups = (us.map (·.word)).eraseDups := by
  rw [← foldl_addOnce_nil, ← foldl_addOnce_nil]
  induction us using List.reverseRecOn with
  | nil => rfl
  | append_singleton us u ih =>
    have hfound {v : Use} (hv : v ∈ us) :
        (us ++ [u]).find? (·.word == v.word) = us.find? (·.word == v.word) := by
      rw [List.find?_append, Option.or_of_isSome]
      exact List.find?_isSome.2 ⟨v, hv, beq_self_eq_true _⟩
    have hus := ih fun v hv => by
      rw [← hfound hv]
      exact h v (List.mem_append_left _ hv)
    rw [directWords_append, List.map_append, List.foldl_append, List.foldl_append, hus]
    cases hu : u.direct with
    | true => simp [directWords, hu]
    | false =>
      have hlast := h u (by simp)
      rw [List.find?_append] at hlast
      cases hv : us.find? (·.word == u.word) with
      | none => simp [hv, hu] at hlast
      | some v =>
        have hmem : u.word ∈ (us.map (·.word)).foldl addOnce [] := by
          rw [foldl_addOnce_nil, List.mem_eraseDups]
          exact List.mem_map.2 ⟨v, List.mem_of_find?_eq_some hv, by simpa using List.find?_some hv⟩
        simp [directWords, hu, addOnce, hmem]

/-- The report names, each once and in the order of their first direct use, the variables that are used
directly in a subscript.  So it names all variables of subscripts exactly when each has a direct use, and it
is the list of them in the order of first use when each first use is a direct one. -/
theorem indexVariables_direct (symbols : SymbolTable) (lines : List Line)
    (h : ∀ l ∈ lines, l.shape.isSilent = false → depthAfter '[' ']' 0 l.text = some 0) :
    let us := variableUses symbols lines
    indexVariables symbols lines = (directWords us).eraseDups ∧
      ((∀ u ∈ us, u.word ∈ indexVariables symbols lines) ↔
        ∀ u ∈ us, ∃ d ∈ us, d.direct = true ∧ d.word = u.word) ∧
      ((∀ u ∈ us, (us.find? (·.word == u.word)).all (·.direct) = true) →
        indexVariables symbols lines = (us.map (·.word)).eraseDups) := by
  intro us
  have heq : indexVariables symbols lines = (directWords us).eraseDups := indexVariables_eq h
  refine ⟨heq, ?_, fun hfirst => heq.trans (eraseDups_directWords hfirst)⟩
  simp only [heq, List.mem_eraseDups, mem_directWords]

/-- Two vectors. -/
def sampleVectors : SymbolTable :=
  ⟨[{ name := "v", kind := .vector, dimensions := ["n"] }, { name := "p", kind := .vector, dimensions := ["n"] }]⟩

def sampleLine (text : Text) : Line := { text, shape := .assignment, id := 0, origin := 1 }

/-- Behind the inner subscript of `v[(p[(i)-1]+k)-1]` the variable `k` is not seen, unless a line before it
uses `k` directly. -/
theorem indexVariables_direct_sample :
    let nested := sampleLine "      x = v[(p[(i)-1]+k)-1]"
    let plain := sampleLine "      y = v[k-1]"
    (variableUses sampleVectors [nested] = [⟨"i".toList, true⟩, ⟨"k".toList, false⟩] ∧
      indexVariables sampleVectors [nested] = ["i".toList]) ∧
    indexVariables sampleVectors [plain, nested] = ["k".toList, "i".toList] := by
  intro nested plain
  obtain ⟨hnested, hboth⟩ :
      variableUses sampleVectors [nested] = [⟨"i".toList, true⟩, ⟨"k".toList, false⟩] ∧
        variableUses sampleVectors [plain, nested] =
          [⟨"k".toList, true⟩, ⟨"i".toList, true⟩, ⟨"k".toList, false⟩] := by
    decide +kernel
  have hfirst := (indexVariables_direct sampleVectors [nested] (by decide)).1
  have hsecond := (indexVariables_direct sampleVectors [plain, nested] (by decide)).2.2
  rw [hnested] at hfirst
  rw [hboth] at hsecond
  exact ⟨⟨hnested, hfirst.trans (by decide)⟩, (hsecond (by decide)).trans (by decide)⟩

end Output

end FixedForm
