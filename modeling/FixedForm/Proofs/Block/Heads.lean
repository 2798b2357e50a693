import FixedForm.Proofs.Block.Grammar
import FixedForm.Proofs.Statement.Label
import FixedForm.Proofs.Statement.Shape
import FixedForm.Proofs.Text.Parens
import FixedForm.Proofs.Text.Substitution
import Mathlib.Data.Option.Basic

/-! What the statements of structured code become: the texts that open and close braces, for every
condition, every list of bounds and every layout. -/
namespace FixedForm.Block
open Text

theorem outside_paren (t : Text) : StartsOutside isBlank ('(' :: t) := .cons (by decide)

/-- The condition of a statement and what follows it, behind its parenthesis. -/
theorem condition_parts {cond : Text} (hc : Nested cond) (rest : Text) :
    let head := '(' :: (cond ++ ')' :: rest)
    closing? head = some (cond.length + 1) ∧ (head.take (cond.length + 1)).drop 1 = cond ∧
      head.drop (cond.length + 2) = rest := by
  refine ⟨closing?_nested hc rest, ?_, ?_⟩
  · simp
  · simp

theorem render_if {g cond rest : Text} (hg : g.allBlank = true) (hc : Nested cond) (unit : Text) :
    Condition.render unit ("if" ++ (g ++ '(' :: (cond ++ ')' :: rest))) =
      if rest.trim == "then".toList then (some ("if(" ++ cond ++ ")\x7b"), [])
      else if Condition.isLabelTriple rest.trim then (none, [.arithmeticIf])
      else (some ("if(" ++ cond ++ ") " ++ renameGotos unit rest.trim), []) := by
  obtain ⟨h₁, h₂, h₃⟩ := condition_parts hc rest
  have he : Condition.elseIf? ("if" ++ (g ++ '(' :: (cond ++ ')' :: rest))) = none := rfl
  have ha : Condition.afterIf ("if" ++ (g ++ '(' :: (cond ++ ')' :: rest))) =
      '(' :: (cond ++ ')' :: rest) := by
    rw [Condition.afterIf, after?_append, Option.map_some, trimStart_run hg (outside_paren _)]
    rfl
  rw [Condition.render, if_neg (by exact Bool.false_ne_true), if_neg (by exact Bool.false_ne_true)]
  simp only [he, ha, Option.getD_none, h₁, h₂, h₃, Option.isSome_none, Bool.false_eq_true,
    if_false]

theorem render_elseIf {g₀ g cond rest : Text} (h₀ : g₀.allBlank = true) (hg : g.allBlank = true)
    (hc : Nested cond) (hr : rest.trim = "then".toList) (unit : Text) :
    Condition.render unit ("else" ++ (g₀ ++ ("if" ++ (g ++ '(' :: (cond ++ ')' :: rest))))) =
      (some ("\x7delse if(" ++ cond ++ ")\x7b"), []) := by
  obtain ⟨h₁, h₂, h₃⟩ := condition_parts hc rest
  have hif : trimStart (g₀ ++ ("if" ++ (g ++ '(' :: (cond ++ ')' :: rest)))) =
      "if" ++ (g ++ '(' :: (cond ++ ')' :: rest)) := trimStart_run h₀ (.cons (by decide))
  have he : Condition.elseIf? ("else" ++ (g₀ ++ ("if" ++ (g ++ '(' :: (cond ++ ')' :: rest))))) =
      some ('(' :: (cond ++ ')' :: rest)) := by
    rw [Condition.elseIf?, after?_append, Option.bind_eq_bind, Option.bind_some, hif, after?_append,
      Option.bind_eq_bind, Option.bind_some, trimStart_run hg (outside_paren _)]
    rfl
  have hn : g₀ ++ ("if".toList ++ (g ++ '(' :: (cond ++ ')' :: rest))) ≠ [] := by simp
  have hl : Condition.isElse ("else" ++ (g₀ ++ ("if" ++ (g ++ '(' :: (cond ++ ')' :: rest))))) =
      false := by
    generalize g₀ ++ ("if".toList ++ (g ++ '(' :: (cond ++ ')' :: rest))) = t at hn ⊢
    cases t with
    | nil => exact absurd rfl hn
    | cons c t => rfl
  rw [Condition.render, if_neg (by exact Bool.false_ne_true), hl, if_neg Bool.false_ne_true]
  simp only [he, Option.getD_some, h₁, h₂, h₃, hr, beq_self_eq_true, if_true, Option.isSome_some]

theorem render_endIf {g : Text} (hg : g.allBlank = true) (unit : Text) :
    Condition.render unit ("end" ++ (g ++ "if")) = (some "\x7d".toList, []) := by
  have hif : trimStart (g ++ "if") = "if" := trimStart_run hg (.cons (by decide))
  have h : Condition.isEndIf ("end" ++ (g ++ "if")) = true := by
    rw [Condition.isEndIf, after?_append, Option.bind_some, hif]
    rfl
  rw [Condition.render, h, if_pos rfl]

/-- Behind the label of a loop stands the counter or the word `while`. -/
theorem Target.read {label : Option Text} {target : Text} (h : Target label target) {u : Text}
    (hu : StartsName u) :
    (label = Option.none ∧ target = []) ∨ ∃ k v, label = some k ∧ k.isDigits = true ∧
      target ++ u = k ++ v ∧ StartsOutside Char.isDigit v ∧ CountedLoop.afterLabel v = u ∧
      ((∃ g, v = g ++ u ∧ g.allBlank = true) ∨ ∃ g v', v = g ++ ',' :: v' ∧ g.allBlank = true) := by
  have hcomma (c : Char) (v : Text) (hc : u = c :: v) : c ≠ ',' := by
    obtain ⟨d, w, he, hd, -⟩ := hu
    rintro rfl
    rw [hc] at he
    obtain ⟨rfl, -⟩ := List.cons.inj he
    exact absurd hd (by decide)
  have hafter {g : Text} (hg : g.allBlank = true) : CountedLoop.afterLabel (g ++ u) = u := by
    rw [CountedLoop.afterLabel, trimStart_run hg hu.outside_blank]
    split
    · next v he => exact absurd rfl (hcomma _ _ rfl)
    · rfl
  have hout {g v : Text} (hg : g.allBlank = true) (hv : StartsOutside Char.isDigit v) :
      StartsOutside Char.isDigit (g ++ v) := by
    cases g with
    | nil => exact hv
    | cons c g => exact .cons (not_digit_of_blank (mem_of_allBlank hg c (by simp)))
  cases h with
  | none => exact .inl ⟨rfl, rfl⟩
  | @plain k g hk hg =>
    exact .inr ⟨k, g ++ u, rfl, hk, by simp, hout hg hu.outside_digit, hafter hg, .inl ⟨g, rfl, hg⟩⟩
  | @comma k g g' hk hg hg' =>
    refine .inr ⟨k, g ++ ',' :: (g' ++ u), rfl, hk, by simp, hout hg (.cons (by decide)), ?_,
      .inr ⟨g, g' ++ u, rfl, hg⟩⟩
    rw [CountedLoop.afterLabel, trimStart_run hg (.cons (by decide))]
    exact trimStart_run hg' hu.outside_blank

theorem Target.outside_blank {label : Option Text} {target : Text} (h : Target label target)
    {u : Text} (hu : StartsName u) : StartsOutside isBlank (target ++ u) := by
  rcases h.read hu with ⟨-, rfl⟩ | ⟨k, v, -, hk, hv, -⟩
  · exact hu.outside_blank
  · have hm := mem_of_isDigits hk
    rw [hv]
    refine .append hm.1 fun c hc => ?_
    exact not_blank_of_word (word_of_digit (hm.2 c (List.mem_of_mem_head? hc)))

/-- What a counter and its bounds read as. -/
theorem counter?_eq {counter g bounds : Text} (hc : IsName counter) (hg : g.allBlank = true)
    (hb : bounds.hasLineEnd = false) (label : Option Text) :
    CountedLoop.counter? label (counter ++ (g ++ '=' :: bounds)) =
      some { label, counter, bounds := bounds.trimStart } := by
  have hw : word? (counter ++ (g ++ '=' :: bounds)) = some (counter, g ++ '=' :: bounds) :=
    word?_run hc.mem_word.2 hc.mem_word.1 (outside_word_gap hg (.cons (by decide)))
  have hline : (trimStart bounds).hasLineEnd = false := by
    simp only [hasLineEnd, List.any_eq_false] at hb ⊢
    exact fun c hc => hb c ((trimStart_suffix bounds).mem hc)
  have he : CountedLoop.bounds? (g ++ '=' :: bounds) = some bounds.trimStart := by
    rw [CountedLoop.bounds?, trimStart_run hg (.cons (by decide))]
    change (do guard (!(trimStart bounds).hasLineEnd); some bounds.trimStart) = _
    rw [hline]
    rfl
  rw [CountedLoop.counter?, hw]
  simp [he]

theorem parse?_counted {label : Option Text} {g target counter g' bounds : Text}
    (hg : g.allBlank = true) (hne : g ≠ []) (ht : Target label target) (hc : IsName counter)
    (hg' : g'.allBlank = true) (hb : bounds.hasLineEnd = false) :
    CountedLoop.parse? ("do" ++ (g ++ (target ++ (counter ++ (g' ++ '=' :: bounds))))) =
      some { label, counter, bounds := bounds.trimStart } := by
  have hu := hc.startsName (g' ++ '=' :: bounds)
  rw [CountedLoop.parse?, after?_append, Option.bind_eq_bind, Option.bind_some,
    blanks?_run hg hne (ht.outside_blank hu), Option.bind_some]
  rcases ht.read hu with ⟨rfl, rfl⟩ | ⟨k, v, rfl, hk, hv, hd, hl, -⟩
  · have hn : CountedLoop.labelled? ([] ++ (counter ++ (g' ++ '=' :: bounds))) = none := by
      rw [CountedLoop.labelled?, List.nil_append, digits?_of_outside hu.outside_digit]
      rfl
    rw [hn, List.nil_append, counter?_eq hc hg' hb]
    rfl
  · have hm := mem_of_isDigits hk
    rw [hv, CountedLoop.labelled?, digits?_run hm.2 hm.1 hd]
    simp only [Option.bind_eq_bind, Option.bind_some, hl, counter?_eq hc hg' hb]
    rfl

theorem parse?_while {label : Option Text} {g target u : Text} (hg : g.allBlank = true)
    (ht : Target label target) (hu : StartsName u) :
    WhileLoop.parse? ("do" ++ (g ++ (target ++ u))) = (do
      let t ← after? "while" u
      guard (Text.startsWith "(" t.trimStart)
      some { label, condition := t.trimStart }) := by
  rw [WhileLoop.parse?, after?_append, Option.bind_eq_bind, Option.bind_some,
    trimStart_run hg (ht.outside_blank hu)]
  rcases ht.read hu with ⟨rfl, rfl⟩ | ⟨k, v, rfl, hk, hv, hd, hl, -⟩
  · rw [List.nil_append, digits?_of_outside hu.outside_digit]
  · have hm := mem_of_isDigits hk
    rw [hv, digits?_run hm.2 hm.1 hd]
    simp only [hl]

/-- A counter with bounds is no condition, also when it starts with `while`. -/
theorem parse?_while_counted {label : Option Text} {g target counter g' bounds : Text}
    (hg : g.allBlank = true) (ht : Target label target) (hc : IsName counter)
    (hg' : g'.allBlank = true) :
    WhileLoop.parse? ("do" ++ (g ++ (target ++ (counter ++ (g' ++ '=' :: bounds))))) = none := by
  rw [parse?_while hg ht (hc.startsName _)]
  cases ha : after? "while" (counter ++ (g' ++ '=' :: bounds)) with
  | none => rfl
  | some r =>
    have hgap : StartsOutside isWord (g' ++ '=' :: bounds) :=
      outside_word_gap hg' (.cons (by decide))
    have he := eq_of_after? ha
    have hw : counter = "while" ++ r.takeWhile isWord := by
      have ht := congrArg (List.takeWhile isWord) he
      rwa [takeWhile_run hc.mem_word.2 hgap,
        List.takeWhile_append_of_pos (List.all_eq_true.1 (by decide))] at ht
    have hr : r = r.takeWhile isWord ++ (g' ++ '=' :: bounds) := by
      rw [hw, List.append_assoc] at he
      exact (List.append_cancel_left he).symm
    have hs : Text.startsWith "(" r.trimStart = false := by
      rw [hr]
      cases hn : r.takeWhile isWord with
      | nil =>
        rw [List.nil_append, trimStart_run hg' (.cons (by decide))]
        rfl
      | cons c w =>
        have hcw : isWord c = true := by
          have hall := List.all_eq_true.1 (List.all_takeWhile (p := isWord) (l := r))
          exact hall c (by simp [hn])
        rw [List.cons_append, trimStart_of_outside (.cons (not_blank_of_word hcw))]
        exact Statement.startsWith_of_outside (p := (!isWord ·)) rfl (.cons (by simp [hcw]))
    rw [Option.bind_eq_bind, Option.bind_some, hs]
    rfl

theorem bounds?_of_mark {v r : Text} {c : Char} (hv : trimStart v = c :: r) (hc : c ≠ '=') :
    CountedLoop.bounds? v = none := by
  have hn : after? "=" (c :: r) = none := by
    change (if c == '=' then after? [] r else none) = none
    rw [if_neg (by simpa using hc)]
  rw [CountedLoop.bounds?, hv, hn]
  rfl

theorem word?_append {k : Text} (hne : k ≠ []) (hk : ∀ c ∈ k, isWord c = true) (v : Text) :
    word? (k ++ v) = some (k ++ v.takeWhile isWord, v.dropWhile isWord) := by
  rw [word?, List.takeWhile_append_of_pos hk, List.dropWhile_append_of_pos hk]
  obtain ⟨c, k, rfl⟩ := List.exists_cons_of_ne_nil hne
  rfl

/-- A condition has no counter: behind the word before it comes no `=`. -/
theorem parse?_counted_while {label : Option Text} {g target g' cond : Text}
    (hg : g.allBlank = true) (hne : g ≠ []) (ht : Target label target) (hg' : g'.allBlank = true) :
    CountedLoop.parse? ("do" ++ (g ++ (target ++ ("while" ++ (g' ++ '(' :: cond))))) = none := by
  have hu : StartsName ("while" ++ (g' ++ '(' :: cond)) := ⟨'w', _, rfl, by decide, by decide⟩
  have hparen : trimStart (g' ++ '(' :: cond) = '(' :: cond := trimStart_run hg' (outside_paren _)
  have hword : word? ("while" ++ (g' ++ '(' :: cond)) = some ("while".toList, g' ++ '(' :: cond) :=
    word?_run (List.all_eq_true.1 (by decide)) (by decide) (outside_word_gap hg' (.cons (by decide)))
  have hcounter (l : Option Text) :
      CountedLoop.counter? l ("while" ++ (g' ++ '(' :: cond)) = none := by
    rw [CountedLoop.counter?, hword]
    simp [bounds?_of_mark hparen (by decide)]
  rw [CountedLoop.parse?, after?_append, Option.bind_eq_bind, Option.bind_some,
    blanks?_run hg hne (ht.outside_blank hu), Option.bind_some]
  rcases ht.read hu with ⟨rfl, rfl⟩ | ⟨k, v, rfl, hk, hv, hd, hl, hshape⟩
  · rw [List.nil_append, hcounter, CountedLoop.labelled?, digits?_of_outside hu.outside_digit]
    rfl
  · have hm := mem_of_isDigits hk
    have hvb : CountedLoop.bounds? v = none := by
      rcases hshape with ⟨gap, rfl, hgap⟩ | ⟨gap, v', rfl, hgap⟩
      · exact bounds?_of_mark (trimStart_run hgap hu.outside_blank) (by decide)
      · exact bounds?_of_mark (trimStart_run hgap (.cons (by decide))) (by decide)
    have h₁ : CountedLoop.labelled? (k ++ v) = none := by
      rw [CountedLoop.labelled?, digits?_run hm.2 hm.1 hd]
      simp only [Option.bind_eq_bind, Option.bind_some, hl, hcounter, hvb, Option.bind_none]
      simp
    have hdrop : CountedLoop.bounds? (v.dropWhile isWord) = none := by
      rcases hshape with ⟨gap, rfl, hgap⟩ | ⟨gap, v', rfl, hgap⟩
      · cases gap with
        | nil =>
          rw [List.nil_append, dropWhile_run (List.all_eq_true.1 (by decide))
            (outside_word_gap hg' (.cons (by decide)))]
          exact bounds?_of_mark hparen (by decide)
        | cons c gap =>
          have hc := not_word_of_blank (mem_of_allBlank hgap c (by simp))
          rw [List.cons_append, dropWhile_of_outside (.cons hc)]
          exact hvb
      · rw [dropWhile_of_outside (outside_word_gap hgap (.cons (by decide)))]
        exact hvb
    have h₂ : CountedLoop.counter? none (k ++ v) = none := by
      rw [CountedLoop.counter?, word?_append hm.1 fun c hc => word_of_digit (hm.2 c hc)]
      simp [hdrop]
    rw [hv, h₁, h₂]
    rfl

theorem Bounds.pieces {b : Text} (h : Bounds b) :
    ∃ ps, splitCommas b.trimStart = (ps, []) ∧ (ps.length = 2 ∨ ps.length = 3) := by
  cases h with
  | @two first last h₁ h₂ =>
    refine ⟨[first.trimStart, last], ?_, .inl rfl⟩
    have he : trimStart (first ++ "," ++ last) = trimStart first ++ ',' :: last := by
      rw [← trimStart_item]
      simp
    rw [he, splitCommas_cons (nestedItem_trimStart h₁), splitCommas_item h₂]
  | @three first last step h₁ h₂ h₃ =>
    refine ⟨[first.trimStart, last, step], ?_, .inr rfl⟩
    have he : trimStart (first ++ "," ++ last ++ "," ++ step) =
        trimStart first ++ ',' :: (last ++ ',' :: step) := by
      rw [← trimStart_item]
      simp
    rw [he, splitCommas_cons (nestedItem_trimStart h₁), splitCommas_cons h₂, splitCommas_item h₃]

theorem Bounds.oneLine {b : Text} (h : Bounds b) : b.hasLineEnd = false := by
  cases h <;> assumption

/-- With two or three bounds, the head of a counted loop starts with `for(` and ends with a brace. -/
theorem renderCountedLoop_text (counter : Text) {bounds : List Text}
    (h : bounds.length = 2 ∨ bounds.length = 3) :
    ∃ mid : Text, renderCountedLoop counter bounds = some ("for(" ++ mid ++ "\x7b") := by
  rcases bounds with _ | ⟨x, _ | ⟨y, _ | ⟨z, _ | ⟨w, rest⟩⟩⟩⟩
  · simp at h
  · simp at h
  · exact ⟨counter ++ " = " ++ x.trim ++ "; " ++ (counter ++ " <= " ++ y.trim) ++ "; ++" ++ counter ++
      ")", by simp [renderCountedLoop]⟩
  · simp only [renderCountedLoop, List.map_cons, List.map_nil]
    split
    · next n _ =>
      split
      · exact ⟨counter ++ " = " ++ x.trim ++ "; " ++ (counter ++ " >= " ++ y.trim) ++ "; " ++ counter ++
          " -= " ++ n.abs.render ++ ")", by simp⟩
      · exact ⟨counter ++ " = " ++ x.trim ++ "; " ++ (counter ++ " <= " ++ y.trim) ++ "; " ++ counter ++
          " += " ++ n.render ++ ")", by simp⟩
    · exact ⟨counter ++ " = " ++ x.trim ++ "; " ++ "((" ++ z.trim ++ " < 0) ? (" ++
        (counter ++ " >= " ++ y.trim) ++ ") : (" ++ (counter ++ " <= " ++ y.trim) ++ ")); " ++ counter ++
        " += " ++ z.trim ++ ")", by simp⟩
  · simp at h

/-- The head of a loop names the label that ends it, and becomes a text from a word to a brace. -/
theorem DoHead.result {label : Option Text} {s : Text} (h : DoHead label s) :
    loopLabel? s = label ∧
      ∃ text issues, renderLoop s = (text ++ "\x7b".toList, issues) ∧ StartsName text := by
  cases h with
  | @counted g target counter g' bounds hg hne ht hc hg' hb =>
    have hs : "do" ++ g ++ target ++ counter ++ g' ++ "=" ++ bounds =
        "do" ++ (g ++ (target ++ (counter ++ (g' ++ '=' :: bounds)))) := by simp
    have hparse := parse?_counted hg hne ht hc hg' hb.oneLine
    have hwhile : WhileLoop.parse? ("do" ++ (g ++ (target ++ (counter ++ (g' ++ '=' :: bounds))))) =
        none := parse?_while_counted hg ht hc hg'
    obtain ⟨ps, hps, hlen⟩ := hb.pieces
    obtain ⟨mid, hmid⟩ := renderCountedLoop_text counter hlen
    rw [hs, loopLabel?, renderLoop, hparse, hwhile]
    simp only [hps, hmid]
    refine ⟨?_, "for(" ++ mid, [], by simp, 'f', _, rfl, by decide, by decide⟩
    cases label <;> rfl
  | @whileTrue g target g' cond hg hne ht hg' hc =>
    have hs : "do" ++ g ++ target ++ "while" ++ g' ++ "(" ++ cond ++ ")" =
        "do" ++ (g ++ (target ++ ("while" ++ (g' ++ '(' :: (cond ++ [')']))))) := by simp
    have hu : StartsName ("while" ++ (g' ++ '(' :: (cond ++ [')']))) :=
      ⟨'w', _, rfl, by decide, by decide⟩
    have hcond : trimStart (g' ++ '(' :: (cond ++ [')'])) = '(' :: (cond ++ [')']) :=
      trimStart_run hg' (outside_paren _)
    have hwhile : WhileLoop.parse? ("do" ++ (g ++ (target ++ ("while" ++ (g' ++ '(' ::
        (cond ++ [')'])))))) = some { label, condition := '(' :: (cond ++ [')']) } := by
      rw [parse?_while hg ht hu, after?_append, Option.bind_eq_bind, Option.bind_some, hcond]
      rfl
    rw [hs, loopLabel?, renderLoop, parse?_counted_while hg hne ht hg', hwhile]
    simp only [closing?_nested hc]
    refine ⟨rfl, "while" ++ ('(' :: (cond ++ [')'])).take (cond.length + 1 + 1), [], by simp, 'w', _,
      rfl, by decide, by decide⟩

end FixedForm.Block
