import FixedForm.Proofs.Block.Step

/-! Structured code stays structured.  The braces of the converted lines nest, and each construct is
closed by the brace of its own last statement. -/
namespace FixedForm.Block
open Text

/-- A labelled loop as it is noted when its head is met. -/
def opened (head : Line) : OpenLoop := { line := head.id, indent := head.text.indent }

/-- The constructs of a piece of code in the order in which they end.  `pending` holds the heads before
the piece that it ends, innermost first. -/
def Code.constructs : {f : Form} → Code f → (pending : List OpenLoop) → List Construct
  | _, .done, _ => []
  | _, .leaf _ _ _ rest, _ => rest.constructs []
  | _, .block head _ body chain rest, _ =>
    body.constructs [] ++ chain.constructs [opened head] ++ rest.constructs []
  | _, .endIf last _, pending => pending.map fun o => closedBy o.line last
  | _, .elseIf head _ body chain, pending =>
    pending.map (fun o => closedBy o.line head) ++ body.constructs [] ++ chain.constructs [opened head]
  | _, .otherwise head _ body last _, pending =>
    pending.map (fun o => closedBy o.line head) ++ body.constructs [] ++ [closedBy head.id last]
  | _, .loop head _ body last _ rest, _ =>
    body.constructs [] ++ closedBy head.id last :: rest.constructs []
  | _, .group _ head _ tail rest, _ => tail.constructs [opened head] ++ rest.constructs []
  | _, .again _ body head _ tail, pending =>
    body.constructs [] ++ tail.constructs (opened head :: pending)
  | _, .ends _ body last _, pending => body.constructs [] ++ pending.map (endedBy last)

/-- The heads that a piece of code finds open and ends. -/
def Pending (loops : OpenLoops) : Form → List OpenLoop → Prop
  | .body, os => os = []
  | .chain, os => ∃ o, os = [o]
  | .tail k, os =>
    loops.get? k = some os.reverse ∧ os ≠ [] ∧ ∀ o ∈ os, o.indent.allBlank = true

/-- The open loops after a piece of code. -/
def Form.left (loops : OpenLoops) : Form → OpenLoops
  | .tail k => loops.erase k
  | _ => loops

/-- No loop is open under these labels, which differ from each other. -/
structure Unused (loops : OpenLoops) (ks : List Text) : Prop where
  nodup : ks.Nodup
  absent : ∀ k ∈ ks, loops.get? k = none

namespace Unused
variable {loops : OpenLoops} {k : Text} {ks ks' : List Text}

theorem left (h : Unused loops (ks ++ ks')) : Unused loops ks :=
  ⟨(List.nodup_append.1 h.nodup).1, fun k hk => h.absent k (by simp [hk])⟩

theorem right (h : Unused loops (ks ++ ks')) : Unused loops ks' :=
  ⟨(List.nodup_append.1 h.nodup).2.1, fun k hk => h.absent k (by simp [hk])⟩

theorem put (h : Unused loops ks) (hk : k ∉ ks) (v : List OpenLoop) :
    Unused (Assoc.put loops k v) ks := by
  refine ⟨h.nodup, fun k' hk' => ?_⟩
  have hne : k' ≠ k := fun he => hk (he ▸ hk')
  rw [Assoc.get?_put_other _ _ hne, h.absent k' hk']

theorem not_mem (h : Unused loops ks) {v : List OpenLoop} (hk : loops.get? k = some v) : k ∉ ks := by
  intro hm
  rw [h.absent k hm] at hk
  cases hk

end Unused

theorem pending_opened (loops : OpenLoops) (k : Text) (head : Line) {os : List OpenLoop}
    (hos : ∀ o ∈ os, o.indent.allBlank = true) :
    Pending (loops.put k (os.reverse ++ [opened head])) (.tail k) (opened head :: os) := by
  refine ⟨by simp, by simp, fun o ho => ?_⟩
  rcases List.mem_cons.1 ho with rfl | ho
  · exact allBlank_indent _
  · exact hos o ho

/-- The invariant of the conversion, over the tree of the code.  A body leaves the open loops as it
found them, and the rest of a group of loops takes its label away. -/
theorem Code.converts {unit : Text} (hu : braceFree unit = true) {f : Form} (c : Code f)
    {loops : OpenLoops} (hfree : Unused loops c.labels) {pending : List OpenLoop}
    (hp : Pending loops f pending) :
    Converts unit loops (pending.map (·.line)) c.lines (c.constructs pending) (f.left loops) [] := by
  induction c generalizing loops pending with
  | done =>
    cases hp
    exact .nil
  | leaf line label h rest ih =>
    cases hp
    have hrest := ih hfree.right (rfl : Pending loops .body [])
    cases label with
    | none => exact (h.converts hu).append hrest
    | some k => exact (h.converts_unused hu (hfree.absent k (by simp [Code.labels]))).append hrest
  | block head h body chain rest ihb ihc ihr =>
    cases hp
    have hbody := (ihb hfree.left.left (rfl : Pending loops .body [])).frame [head.id]
    have hchain := ihc hfree.left.right (⟨_, rfl⟩ : Pending loops .chain [opened head])
    have hrest := ihr hfree.right (rfl : Pending loops .body [])
    exact ((h.if_opens.append hbody).append hchain).append hrest
  | endIf last h =>
    obtain ⟨o, rfl⟩ := hp
    exact h.endIf_closes
  | elseIf head h body chain ihb ihc =>
    obtain ⟨o, rfl⟩ := hp
    have hbody := (ihb hfree.left (rfl : Pending loops .body [])).frame [head.id]
    have hchain := ihc hfree.right (⟨_, rfl⟩ : Pending loops .chain [opened head])
    exact (h.elseIf_between.append hbody).append hchain
  | otherwise head h body last h' ihb =>
    obtain ⟨o, rfl⟩ := hp
    have hbody := (ihb hfree (rfl : Pending loops .body [])).frame [head.id]
    exact (h.else_between.append hbody).append h'.endIf_closes
  | loop head h body last h' rest ihb ihr =>
    cases hp
    have hbody := (ihb hfree.left (rfl : Pending loops .body [])).frame [head.id]
    have hrest := ihr hfree.right (rfl : Pending loops .body [])
    exact (h.do_opens.append hbody).append (h'.endDo_closes.append hrest)
  | group label head h tail rest iht ihr =>
    cases hp
    -- the label is new, so the end of the tail takes away what its first head noted
    have hlabel : loops.get? label = none := hfree.absent label (by simp [Code.labels])
    have hnew : label ∉ tail.labels := fun hm =>
      (List.nodup_cons.1 hfree.nodup).1 (List.mem_append_left _ hm)
    have hfree' : Unused loops (tail.labels ++ rest.labels) :=
      ⟨(List.nodup_cons.1 hfree.nodup).2, fun k hk => hfree.absent k (List.mem_cons_of_mem _ hk)⟩
    have hopen : Converts unit loops [] [head] [] (loops.put label ([].reverse ++ [opened head]))
        [head.id] := by
      have hdo : Converts unit loops [] [head] [] _ [head.id] := h.do_opens
      rwa [Option.map_some, hlabel] at hdo
    have htail := iht (hfree'.left.put hnew _) (pending_opened loops label head (List.forall_mem_nil _))
    have hrest := ihr hfree'.right (rfl : Pending loops .body [])
    rw [Form.left, Assoc.erase_put, Assoc.erase_of_absent hlabel] at htail
    exact (hopen.append htail).append hrest
  | again label body head h tail ihb iht =>
    obtain ⟨hlabel, hne, hblank⟩ := hp
    have hbody := (ihb hfree.left (rfl : Pending loops .body [])).frame (pending.map (·.line))
    have hopen : Converts unit loops (pending.map (·.line)) [head] []
        (loops.put label (pending.reverse ++ [opened head])) (head.id :: pending.map (·.line)) := by
      have hdo : Converts unit loops (pending.map (·.line)) [head] [] _
          (head.id :: pending.map (·.line)) := h.do_opens
      rwa [Option.map_some, hlabel] at hdo
    have htail := iht (hfree.right.put (hfree.right.not_mem hlabel) _)
      (pending_opened loops label head hblank)
    rw [Form.left, Assoc.erase_put] at htail
    exact hbody.append (hopen.append htail)
  | ends label body last h ihb =>
    obtain ⟨hlabel, hne, hblank⟩ := hp
    have hbody := (ihb hfree (rfl : Pending loops .body [])).frame (pending.map (·.line))
    have hends : Converts unit loops (pending.map (·.line) ++ []) [last] _ (loops.erase label) [] :=
      h.converts hu hlabel hne hblank
    rw [List.append_nil] at hends
    exact hbody.append hends

theorem braceFree_of_word {w : Text} (h : w.isWordText = true) : braceFree w = true := by
  simp only [isWordText, Bool.and_eq_true, List.all_eq_true] at h
  exact braceFree_of_class (by decide) h.2

/-- The braces of converted structured code nest, all are closed, and the constructs are closed by their
own last statements, in the order in which these come. -/
theorem run_pairs_constructs (c : Code .body) (hlabels : c.labels.Nodup) (a : Analysis)
    (hname : a.unitName.isWordText = true) (b : Buffer) (hb : b.lines = c.lines) :
    ∃ pairs, pairUp [] (run a b).2.lines = some pairs ∧
      pairs.map Construct.ofPair = c.constructs [] := by
  have hfree : Unused [] c.labels := ⟨hlabels, fun k _ => rfl⟩
  obtain ⟨a', out, next, he, -, hp⟩ :=
    c.converts (braceFree_of_word hname) hfree (rfl : Pending [] .body []) a b.nextId rfl
  have hout : (run a b).2.lines = out := by
    rw [run, Buffer.edit, hb, he]
  rw [hout]
  exact hp.pairUp_eq

/-- A line with the shape and the label that its text gives it. -/
def lineAt (i : Nat) (text : Text) : Line :=
  { Draft.classify { text, shape := .other } with id := i, origin := i + 1 }

/-- Two loops that end at one labelled assignment, with an IF in the inner one. -/
def sharedLoops : Code .body :=
  .group "10" (lineAt 0 "      do 10, i = 1,n")
    ⟨"do 10, i = 1,n", ⟨rfl, rfl, rfl⟩, @DoHead.counted _ " " "10, " "i" " " " 1,n" (by decide)
      (by decide) (@Target.comma "10" [] " " (by decide) (by decide) (by decide))
      ⟨by decide, .cons (by decide)⟩ (by decide)
      (@Bounds.two " 1" "n" (by decide) (by decide) (by decide))⟩
    (.again "10" .done (lineAt 1 "         do 10 while (a(i) > 0)")
      ⟨"do 10 while (a(i) > 0)", ⟨rfl, rfl, rfl⟩, @DoHead.whileTrue _ " " "10 " " " "a(i) > 0"
        (by decide) (by decide) (@Target.plain "10" " " (by decide) (by decide)) (by decide)
        (by decide)⟩
      (.ends "10"
        (.block (lineAt 2 "         if (f(i)) then")
          ⟨"if (f(i)) then", ⟨rfl, rfl, rfl⟩,
            @IfThen.intro " " "f(i)" " " (by decide) (by decide) (by decide)⟩
          (.leaf (lineAt 3 "            call s(i)") none
            ⟨⟨"call s(i)", ⟨rfl, rfl, rfl⟩, .inl rfl⟩, by decide⟩ .done)
          (.endIf (lineAt 4 "         end if")
            ⟨"end if", ⟨rfl, rfl, rfl⟩, @EndOf.intro "if" " " (by decide)⟩)
          .done)
        (lineAt 5 "   10    a(i) = a(i)-1")
        (.inr ⟨⟨"a(i) = a(i)-1", ⟨rfl, rfl, rfl⟩, .inl rfl⟩, by decide⟩)))
    .done

theorem run_pairs_sharedLoops : sharedLoops.labels = ["10".toList] ∧ ∃ pairs,
    pairUp [] (run {} { lines := sharedLoops.lines, nextId := 6 }).2.lines = some pairs ∧
      pairs.map Construct.ofPair = [⟨2, 5, spaces 9⟩, ⟨1, 6, spaces 9⟩, ⟨0, 6, spaces 6⟩] :=
  ⟨rfl, run_pairs_constructs sharedLoops (by decide) {} (by decide) _ rfl⟩

/-- Where a bound holds a line end or a comma of its own, the head of the loop stays as it is written,
and the brace at its end closes nothing. -/
theorem run_unpaired_bounds :
    (Nested "1" ∧ Nested "\u2028n" ∧ (lineAt 0 "do i = 1,\u2028n").shape = .loop ∧
      pairUp [] (run {} ⟨[lineAt 0 "do i = 1,\u2028n", lineAt 1 "enddo"], 2⟩).2.lines = none) ∧
    (Nested "1,2" ∧ Nested "3" ∧ Nested "4" ∧ (lineAt 0 "do i = 1,2,3,4").shape = .loop ∧
      pairUp [] (run {} ⟨[lineAt 0 "do i = 1,2,3,4", lineAt 1 "enddo"], 2⟩).2.lines = none) := by
  decide

end FixedForm.Block
