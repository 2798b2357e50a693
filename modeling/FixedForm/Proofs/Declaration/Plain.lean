import FixedForm.Declaration.Names
import FixedForm.Proofs.Call.Requote
import FixedForm.Proofs.Statement.Occurrence

/-! The names that a statement uses as variables.  A name outside literals is among them, unless it stands
before a parenthesis or behind `call`. -/
namespace FixedForm.Names
open Text
open Reference (EndsOutside firstMark)

/-! ### Without the contents of literals -/

/-- The statement with its literals emptied. -/
def emptied (t : Text) : Text := t.substitute emptyLiteral

theorem substituteFrom_emptyLiteral (before t : Text) : substituteFrom emptyLiteral before t = emptied t :=
  substituteFrom_before (fun _ _ _ => rfl) before [] t

theorem emptied_nil : emptied [] = [] := by
  rw [emptied, substitute, substituteFrom]

theorem emptied_cons {c : Char} (hc : isQuote c = false) (t : Text) : emptied (c :: t) = c :: emptied t := by
  have hrule : emptyLiteral [] (c :: t) = none := by
    rw [emptyLiteral]
    · rintro body ⟨⟩
      cases hc
    · rintro body ⟨⟩
      cases hc
  rw [emptied, substitute, substituteFrom, hrule]
  exact congrArg (c :: ·) (substituteFrom_emptyLiteral _ _)

theorem emptied_literal {q : Char} {t rest : Text} (h : emptyLiteral [] (q :: t) = some ("''".toList, rest))
    (hlen : rest.length ≤ t.length) : emptied (q :: t) = "''" ++ emptied rest := by
  rw [emptied, substitute, substituteFrom, h]
  simp only [List.length_cons, Nat.lt_succ_of_le hlen, if_true]
  exact congrArg ("''".toList ++ ·) (substituteFrom_emptyLiteral _ _)

theorem emptied_free_append {x : Text} (hx : ∀ c ∈ x, isQuote c = false) (t : Text) :
    emptied (x ++ t) = x ++ emptied t := by
  induction x with
  | nil => rfl
  | cons c x ih =>
    obtain ⟨hc, hx⟩ := List.forall_mem_cons.1 hx
    rw [List.cons_append, emptied_cons hc, ih hx, List.cons_append]

theorem eq_of_emptyLiteral {before t new left : Text} (h : emptyLiteral before t = some (new, left)) :
    new = "''".toList := by
  unfold emptyLiteral at h
  split at h
  · obtain ⟨r, -, he⟩ := Option.map_eq_some_iff.1 h
    exact (Prod.mk.inj he).1.symm
  · split at h
    · cases h
    · exact (Prod.mk.inj (Option.some.inj h)).1.symm
  · cases h

/-- A class without quotes does not see that literals are emptied. -/
theorem startsOutside_emptied {p : Char → Bool} (hp : (p '\x27' || p '"') = false) {t : Text}
    (h : StartsOutside p t) : StartsOutside p (emptied t) := by
  cases t with
  | nil =>
    rw [emptied_nil]
    exact .nil
  | cons c t =>
    have hc : p c = false := h c rfl
    rw [emptied, substitute, substituteFrom]
    split
    · exact .cons hc
    · next new left hm =>
      split
      · rw [eq_of_emptyLiteral hm]
        exact .cons (outside_of_quote hp (by decide))
      · exact .cons hc

theorem firstMark_emptied {v : Text} (hp : firstMark v ≠ some '(') : firstMark (emptied v) ≠ some '(' := by
  have hgap : ∀ c ∈ v.takeWhile isBlank, isQuote c = false := fun c hc =>
    not_quote_of_class (by decide) (List.all_eq_true.1 List.all_takeWhile c hc)
  have hsplit : emptied v = v.takeWhile isBlank ++ emptied v.trimStart := by
    rw [← emptied_free_append hgap, trimStart, List.takeWhile_append_dropWhile]
  have hparen : StartsOutside (· == '(') v.trimStart := fun c hc => by
    simp only [beq_eq_false_iff_ne]
    rintro rfl
    exact hp hc
  rw [hsplit, firstMark, trimStart_run allBlank_takeWhile (startsOutside_emptied (by decide) outside_trimStart)]
  intro h
  exact absurd (startsOutside_emptied (by decide) hparen _ h) (by decide)

/-! ### Behind literals -/

/-- The two texts are equal, or they are from behind the closing quotes of literals. -/
def SameCode (t t' : Text) : Prop :=
  t = t' ∨ ∃ a a' q q' s, isQuote q = true ∧ isQuote q' = true ∧ t = a ++ q :: s ∧ t' = a' ++ q' :: s

namespace SameCode
variable {t t' : Text}

theorem append (h : SameCode t t') (x : Text) : SameCode (x ++ t) (x ++ t') := by
  rcases h with rfl | ⟨a, a', q, q', s, hq, hq', rfl, rfl⟩
  · exact .inl rfl
  · exact .inr ⟨x ++ a, x ++ a', q, q', s, hq, hq', by simp, by simp⟩

/-- Two literals before them. -/
theorem literal {q q' : Char} (hq : isQuote q = true) (hq' : isQuote q' = true) (h : SameCode t t') (x x' : Text) :
    SameCode (x ++ q :: t) (x' ++ q' :: t') := by
  rcases h with rfl | ⟨a, a', r, r', s, hr, hr', rfl, rfl⟩
  · exact .inr ⟨x, x', q, q', t, hq, hq', rfl, rfl⟩
  · exact .inr ⟨x ++ q :: a, x' ++ q' :: a', r, r', s, hr, hr', by simp, by simp⟩

theorem endsOutside {p : Char → Bool} (hp : (p '\x27' || p '"') = false) (h : SameCode t t')
    (ht : EndsOutside p t) : EndsOutside p t' := by
  rcases h with rfl | ⟨a, a', q, q', s, hq, hq', rfl, rfl⟩
  · exact ht
  · refine EndsOutside.append_of_ne_nil ?_ (List.cons_ne_nil q' s)
    cases s with
    | nil => exact .of_getLast? rfl (outside_of_quote hp hq')
    | cons c s =>
      have hs : EndsOutside p (c :: s) := by
        have hsplit : a ++ q :: c :: s = (a ++ [q]) ++ c :: s := by simp
        exact (hsplit ▸ ht).right
      exact EndsOutside.append_of_ne_nil (t := [q']) hs (List.cons_ne_nil c s)

theorem followsCall_eq (h : SameCode t t') : followsCall t = followsCall t' := by
  rcases h with rfl | ⟨a, a', q, q', s, hq, hq', rfl, rfl⟩
  · rfl
  · rw [followsCall_mark (outside_of_quote (by decide) hq) (outside_of_quote (by decide) hq),
      followsCall_mark (outside_of_quote (by decide) hq') (outside_of_quote (by decide) hq')]

end SameCode

/-- A single-quoted literal, with those that follow it at once. -/
theorem quotedBody?_code {r : Text} (h : EndsInCode ('\x27' :: r)) :
    ∃ x p, r = x ++ '\x27' :: p ∧ EndsInCode p ∧ ∀ rest, StartsOutside isQuote rest →
      ∃ body, quotedBody? (r ++ rest) = some (body, p ++ rest) := by
  induction hlen : r.length using Nat.strongRecOn generalizing r with
  | ind n ih =>
    subst hlen
    cases h with
    | code hc => cases hc
    | unclosed _ _ _ htail => cases htail
    | @literal _ x t hq hx hP ht =>
      by_cases hhead : t.head? = some '\x27'
      · obtain ⟨r, rfl⟩ := List.head?_eq_some_iff.1 hhead
        obtain ⟨y, p, rfl, hp, hbody⟩ := ih r.length (by simp; omega) ht rfl
        refine ⟨x ++ '\x27' :: '\x27' :: y, p, by simp, hp, fun rest hrest => ?_⟩
        obtain ⟨body, hb⟩ := hbody rest hrest
        refine ⟨x ++ '\x27' :: '\x27' :: body, ?_⟩
        rw [List.append_assoc, Quote.quotedBody?_append hx, List.cons_append, List.cons_append, quotedBody?, hb]
        rfl
      · refine ⟨x, t, rfl, ht, fun rest hrest => ⟨x, ?_⟩⟩
        have hnext : (t ++ rest).head? ≠ some '\x27' := by
          cases t with
          | nil => exact fun he => absurd (hrest _ he) (by decide)
          | cons c t => exact hhead
        rw [List.append_assoc, Quote.quotedBody?_append hx, List.cons_append, Quote.quotedBody?_close hnext]
        simp

/-- A text that ends outside its literals, with these emptied. -/
theorem exists_emptied {u : Text} (h : EndsInCode u) :
    ∃ z, SameCode u z ∧ ∀ rest, StartsOutside isQuote rest → emptied (u ++ rest) = z ++ emptied rest := by
  induction hlen : u.length using Nat.strongRecOn generalizing u with
  | ind n ih =>
    subst hlen
    cases h with
    | nil => exact ⟨[], .inl rfl, fun rest _ => rfl⟩
    | unclosed _ _ _ htail => cases htail
    | @code c t hc ht =>
      obtain ⟨z, hz, he⟩ := ih t.length (Nat.lt_succ_self _) ht rfl
      refine ⟨c :: z, hz.append [c], fun rest hrest => ?_⟩
      rw [List.cons_append, emptied_cons hc, he rest hrest, List.cons_append]
    | @literal q x t hq hx hP ht =>
      rcases eq_of_isQuote hq with rfl | rfl
      · obtain ⟨y, p, hy, hp, hbody⟩ := quotedBody?_code (.literal hq hx hP ht)
        obtain ⟨z, hz, he⟩ := ih p.length (by rw [List.length_cons, hy]; simp; omega) hp rfl
        refine ⟨"''" ++ z, ?_, fun rest hrest => ?_⟩
        · rw [hy]
          exact hz.literal rfl (rfl : isQuote '\x27' = true) ('\x27' :: y) ['\x27']
        · obtain ⟨body, hb⟩ := hbody rest hrest
          have hrule : emptyLiteral [] ('\x27' :: (x ++ '\x27' :: t ++ rest)) = some ("''".toList, p ++ rest) := by
            simp only [emptyLiteral, hb, Option.map_some]
          rw [List.cons_append, emptied_literal hrule (Nat.le_of_lt (Quote.length_quotedBody? hb)), he rest hrest,
            List.append_assoc]
      · obtain ⟨z, hz, he⟩ := ih t.length (by simp; omega) ht rfl
        refine ⟨"''" ++ z, hz.literal rfl (rfl : isQuote '\x27' = true) ('"' :: x) ['\x27'], fun rest hrest => ?_⟩
        have hdrop : (x ++ '"' :: (t ++ rest)).dropWhile (· != '"') = '"' :: (t ++ rest) := by
          refine dropWhile_run (fun c hc => ?_) (.cons (by decide))
          simpa using fun heq : c = '"' => hx (heq ▸ hc)
        have hrule : emptyLiteral [] ('"' :: (x ++ '"' :: (t ++ rest))) = some ("''".toList, t ++ rest) := by
          simp only [emptyLiteral, hdrop]
        rw [List.cons_append, List.append_assoc, List.cons_append, emptied_literal hrule (by simp; omega),
          he rest hrest, List.append_assoc]

/-! ### Names among the pieces -/

theorem mem_plainFrom {w : Text} {ps qs before : List Piece} (hs : startsName w = true)
    (hpoint : (ps.reverse ++ before).head? ≠ some (.mark '.')) (hp : opensParen qs = false)
    (hcall : afterCall (ps.reverse ++ before) = false) : w ∈ plainFrom before (ps ++ .word w :: qs) := by
  induction ps generalizing before with
  | nil =>
    rw [List.reverse_nil, List.nil_append] at hpoint hcall
    rw [List.nil_append, plainFrom, if_pos (by simp [hs, hpoint, hp, hcall])]
    exact List.mem_cons_self
  | cons p ps ih =>
    rw [List.reverse_cons, List.append_assoc, List.singleton_append] at hpoint hcall
    have hmem := ih hpoint hcall
    cases p with
    | mark c => exact hmem
    | word x =>
      rw [List.cons_append, plainFrom]
      split
      · exact List.mem_cons_of_mem x hmem
      · exact hmem

theorem skipBlanks_map_reverse (ps : List Piece) :
    skipBlanks (ps.map Piece.reverse) = (skipBlanks ps).map Piece.reverse := by
  induction ps with
  | nil => rfl
  | cons p ps ih =>
    cases p with
    | word w => rfl
    | mark c =>
      rw [List.map_cons, Piece.reverse, skipBlanks, skipBlanks]
      split
      · exact ih
      · rfl

/-- The word `call` among the pieces is the word `call` of the text. -/
theorem followsCall_of_afterCall {z : Text} (h : afterCall (pieces z).reverse = true) : followsCall z = true := by
  have hreverse : pieces z.reverse = (pieces z).reverse.map Piece.reverse := by
    rw [pieces_reverse, List.map_reverse]
  generalize (pieces z).reverse = ps at h hreverse
  unfold afterCall at h
  split at h
  · next c ps =>
    obtain ⟨hb, hcall⟩ := Bool.and_eq_true_iff.1 h
    have hskip : (pieces (trimStart z.reverse)).head? = some (.word "llac") := by
      rw [← skipBlanks_pieces, hreverse, skipBlanks_map_reverse, List.head?_map, eq_of_beq hcall]
      rfl
    have hhead : (z.reverse.head? == some c) = true := by
      rw [← head?_pieces (not_word_of_blank hb), hreverse]
      simp [Piece.reverse]
    obtain ⟨r, hr⟩ := List.head?_eq_some_iff.1 (eq_of_beq hhead)
    obtain ⟨rest, htrim, hout⟩ := eq_of_head?_pieces hskip
    have hblanks : blanks? z.reverse = some ("llac" ++ rest) := by
      rw [← htrim, hr, blanks?, if_pos hb, trimStart, trimStart, List.dropWhile_cons_of_pos hb]
    rw [followsCall, hblanks, Option.map_some, Statement.hasKeyword_append (wordEnds_of_outside hout)]
    rfl
  · cases h

/-- A name outside literals is among the names of a statement, unless it stands before a parenthesis or
behind `call`. -/
theorem mem_plain {t u w v : Text} (h : Occurs t u w v) (hs : startsName w = true) (hp : firstMark v ≠ some '(')
    (hcall : followsCall u = false) : w ∈ plain t := by
  obtain ⟨z, hz, hemptied⟩ := exists_emptied h.code
  have hword : ∀ c ∈ w, isQuote c = false := fun c hc => not_quote_of_class (by decide) (h.name.mem_word.2 c hc)
  have htext : emptied t = z ++ (w ++ emptied v) := by
    have hstart : StartsOutside isQuote (w ++ v) :=
      .append h.name.mem_word.1 fun c hc => hword c (List.mem_of_mem_head? hc)
    rw [h.text_eq, hemptied _ hstart, emptied_free_append hword]
  have hends : EndsOutside isOperand z := hz.endsOutside (by decide) h.before
  have hout : StartsOutside isOperand z.reverse := fun c hc => hends c (by rwa [List.head?_reverse] at hc)
  have hpieces : pieces (emptied t) = pieces z ++ .word w :: pieces (emptied v) := by
    rw [htext]
    exact pieces_append_word (hout.mono fun c => Reference.operand_of_word) h.name.mem_word.1 h.name.mem_word.2
      (startsOutside_emptied (by decide) h.after)
  have hpoint : (pieces z).reverse.head? ≠ some (.mark '.') := by
    intro hpoint
    have hhead : ((pieces z.reverse).head? == some (.mark '.')) = true := by
      rw [pieces_reverse, ← List.map_reverse, List.head?_map, hpoint]
      rfl
    rw [head?_pieces (by decide)] at hhead
    exact absurd (hout '.' (eq_of_beq hhead)) (by decide)
  have hparen : opensParen (pieces (emptied v)) = false := by
    rw [opensParen, skipBlanks_pieces, head?_pieces (by decide), beq_eq_false_iff_ne]
    exact firstMark_emptied hp
  have hafter : afterCall (pieces z).reverse = false := Bool.eq_false_iff.2 fun ha => by
    rw [hz.followsCall_eq, followsCall_of_afterCall ha] at hcall
    cases hcall
  rw [plain, ← emptied, hpieces]
  exact mem_plainFrom hs (by rwa [List.append_nil]) hparen (by rwa [List.append_nil])

end FixedForm.Names
