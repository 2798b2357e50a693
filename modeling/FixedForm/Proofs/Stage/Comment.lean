import FixedForm.Proofs.Stage.Calls
import FixedForm.Proofs.Stage.Order

/-! Comment cards and blank cards.  All stages but the last leave them as they are, and the last one sets
the comments into the columns of the statements around them. -/
namespace FixedForm
open Text
open Card (IsSilent)

namespace Buffer
variable {b : Buffer} {l : Line} (hl : l ∈ b.lines)
include hl

theorem mem_map {f : Line → Draft} (hf : f l = l.toDraft) : l ∈ (b.map f).lines :=
  List.mem_map.2 ⟨l, hl, by rw [hf]⟩

end Buffer

theorem Card.IsSilent.shape_eq {d : Draft} (h : IsSilent d) : d.shape = .comment ∨ d.shape = .blank := by
  rcases h with ⟨-, h⟩ | h
  · exact .inl (by rw [h])
  · exact .inr (by rw [h])

theorem Card.IsSilent.classified {d : Draft} (h : IsSilent d) : (Stage.spelled d).classify = d := by
  rcases h with ⟨-, h⟩ | h
  · rw [h]
    rfl
  · rw [h]
    rfl

namespace Inference
variable {a : Analysis} {b : Buffer} {l : Line} (hl : l ∈ b.lines)
include hl

/-- The end of the stage changes the first line of the unit only. -/
theorem mem_finishUnit (hi : a.anchor? ≠ some l.id) : l ∈ (finishUnit a b).2.lines := by
  cases hp : a.procedure with
  | none =>
    rw [finishUnit_none hp]
    exact hl
  | some p =>
    have hne : l.id ≠ (settle a p).2.anchor := by
      rw [anchor_settle]
      exact fun he => hi (by simp [Analysis.anchor?, hp, he])
    obtain ⟨extra, hperm, -⟩ := writeHeader_spec (settle a p).2 b
    rw [finishUnit_some hp]
    refine hperm.mem_iff.2 (List.mem_append_left _ (Buffer.mem_map hl ?_))
    exact if_neg (by simpa using hne)

theorem mem_run (hs : IsSilent l.toDraft) (hi : (run a b).1.anchor? ≠ some l.id) :
    l ∈ (run a b).2.lines := by
  have hconstants : l ∈ (b.edit collectConstants a).2.lines := by
    refine Buffer.mem_edit hl (fun a => ?_) a
    rcases hs.shape_eq with h | h <;> simp [collectConstants, h]
  simp only [run] at hi ⊢
  generalize b.edit collectConstants a = e at hconstants hi ⊢
  have hsteps : l ∈ (e.2.edit step (e.1, none)).2.lines := by
    refine Buffer.mem_edit hconstants (fun s => ?_) (e.1, none)
    rcases hs.shape_eq with h | h <;> simp [step, inferLine, h]
  refine mem_finishUnit hsteps fun ha => hi ?_
  exact (Analysis.anchor?_congr ((Analysis.heading_reportAll _ _ _).trans (heading_finishUnit _ _))).trans ha

end Inference

/-- No demand takes the place of a silent line. -/
theorem Resolution.mem_run {a : Analysis} {b : Buffer} (h : Headed a.anchor? b.lines) {l : Line}
    (hl : l ∈ b.lines) (hs : IsSilent l.toDraft) : l ∈ (run a b).2.lines := by
  have hanchor : a.anchor? ≠ some l.id := by
    intro ha
    rcases hs.shape_eq with hs | hs <;> simp [h l hl ha] at hs
  have hself : l.headless a.anchor? = l := if_neg hanchor
  have hrewritten : l ∈ (b.map (rewritten a.symbols)).lines := by
    refine Buffer.mem_map hl ?_
    rcases hs.shape_eq with hs | hs <;>
      simp [rewritten, lineCall?, lineReferences, hs, holdsCalls]
  have hleft : isLeft a.symbols b.lines l = true := by
    rcases hs.shape_eq with hs | hs <;>
      simp [isLeft, Demand.isExtern, Demand.isLocal, hs]
  have hmem : l ∈ (run a b).2.lines.map (Line.headless a.anchor?) := by
    rw [headless_run h]
    exact List.mem_filter.2 ⟨List.mem_map.2 ⟨l, hrewritten, hself⟩, hleft⟩
  obtain ⟨m, hm, he⟩ := List.mem_map.1 hmem
  have hid : m.id = l.id := by rw [← Line.id_headless a.anchor? m, he]
  have hm' : m.headless a.anchor? = m := if_neg (hid ▸ hanchor)
  rwa [← he, hm']

namespace Progress
variable (options : Options) {source : Text} {l : Line} (hl : l ∈ (Card.read source).lines)
  (hs : IsSilent l.toDraft)
include hl hs

theorem mem_inference :
    l ∈ ((start options (Card.read source)).runAll [.spelling, .shapes, .inference]).buffer.lines := by
  obtain ⟨ha, hb⟩ := runAll_inference options source
  obtain ⟨hanchor, -⟩ := inference_labels options source
  have hopening : Card.opening? source ≠ some l.id := by
    intro ho
    obtain ⟨m, hm, hi⟩ := Option.map_eq_some_iff.1 ho
    have hopens := List.find?_some hm
    rw [(Card.numbered_read source).eq_of_id (List.mem_of_find?_eq_some hm) hl hi] at hopens
    rcases hs.shape_eq with hs | hs <;> simp [opensUnit, hs] at hopens
  rw [hb]
  refine Inference.mem_run (Buffer.mem_map hl hs.classified) hs ?_
  rwa [← ha, hanchor]

theorem mem_beforeCalls : l ∈ (beforeCalls options source).buffer.lines := by
  have hinference := mem_inference options hl hs
  rw [(beforeCalls_eq options source).2]
  generalize (start options (Card.read source)).runAll [.spelling, .shapes, .inference] = p
    at hinference ⊢
  have hreferences : l ∈ (p.buffer.edit Analysis.linearizeLine p.analysis).2.lines := by
    refine Buffer.mem_edit hinference (fun a => ?_) p.analysis
    rcases hs.shape_eq with h | h <;> simp [Analysis.linearizeLine, h, Reference.holdsReferences]
  refine Buffer.mem_edit hreferences (fun s => ?_) (_, [])
  rcases hs.shape_eq with h | h <;> simp [Block.step, h]

end Progress

namespace Remark

/-- The mark of a comment, behind blanks. -/
def IsLead (lead : Option Text) : Prop :=
  lead = none ∨ ∃ g : Text, g.allBlank = true ∧ lead = some (g ++ mark)

theorem isLead_lead {before after : Option Text} (hbefore : ∀ t ∈ before, t.allBlank = true)
    (hafter : ∀ t ∈ after, t.allBlank = true) : IsLead (lead before after) := by
  have hmark : IsLead (some mark) := .inr ⟨[], rfl, rfl⟩
  have hset {g : Text} (hg : g.allBlank = true) : IsLead (some (g ++ mark)) := .inr ⟨g, hg, rfl⟩
  have hbeside {g : Text} (hg : g.allBlank = true) :
      IsLead (some (if g.length < leastIndent then mark else g.take (g.length - leastIndent) ++ mark)) := by
    split
    · exact hmark
    · refine hset (List.all_eq_true.2 fun c hc => ?_)
      exact mem_of_allBlank hg c (List.mem_of_mem_take hc)
  have hbetween {g : Text} (hg : g.allBlank = true) :
      IsLead (some (if g.length < leastIndent then mark else g ++ mark)) := by
    split
    · exact hmark
    · exact hset hg
  cases before with
  | none =>
    cases after with
    | none => exact .inl rfl
    | some n => exact hbeside (hafter n rfl)
  | some p =>
    cases after with
    | none => exact hbeside (hbefore p rfl)
    | some n =>
      simp only [lead]
      split
      · exact hbetween (hafter n rfl)
      · exact hbetween (hbefore p rfl)

/-- A comment in the output: the mark `//` behind blanks, and what the card holds behind its first
column. -/
def Reflows (card t : Text) : Prop :=
  ∃ g rest : Text, g.allBlank = true ∧ t = g ++ "//" ++ rest ∧ rest.trim = trim (card.drop 1)

theorem trimEnd_slashes (t : Text) : trimEnd ("//" ++ t) = "//" ++ trimEnd t :=
  (trimEnd_solid (by decide) _).trans (congrArg _ (trimEnd_solid (by decide) t))

theorem reflows_reflow (t : Text) {lead : Option Text} (h : IsLead lead) : Reflows t (reflow t lead) := by
  rcases h with rfl | ⟨g, hg, rfl⟩
  · exact ⟨[], trimEnd (t.drop 1), rfl, trimEnd_slashes _, trim_trimEnd _⟩
  · refine ⟨g, trimEnd (" " ++ trimStart (t.drop 1)), hg, ?_, ?_⟩
    · have hsolid : allBlank ("//" ++ (" " ++ trimStart (t.drop 1))) = false := by
        simp [allBlank, isBlank]
      have hmark : g ++ mark ++ trimStart (t.drop 1) =
          g ++ ("//" ++ (" " ++ trimStart (t.drop 1))) := by
        simp [mark]
      rw [reflow, hmark, trimEnd_append hsolid, trimEnd_slashes, List.append_assoc]
    · rw [trim_trimEnd, trim_blanks (by decide), trim, trimStart_of_outside outside_trimStart, trim]

/-- A comment card is not a comment of the output yet. -/
theorem isRaw_of_isComment {l : Line} (hs : l.shape = .comment) (hl : Card.isComment l.text = true) :
    isRaw l = true := by
  have hslash : Statement.isSlashComment l.text = false := by
    cases ht : l.text with
    | nil => rfl
    | cons c t =>
      have hc : c = 'c' ∨ c = 'C' ∨ c = '*' ∨ c = '!' := by
        simpa [ht, Card.isComment, or_assoc] using hl
      rcases hc with rfl | rfl | rfl | rfl <;> rfl
  simp [isRaw, hs, hslash]

/-- What a line becomes: a comment card is reflowed, and all else stays. -/
def Becomes (l : Line) (t : Text) : Prop := if isRaw l then Reflows l.text t else t = l.text

theorem mem_reflowLines {before : Option Text} (hbefore : ∀ t ∈ before, t.allBlank = true)
    {lines : List Line} {l : Line} (hl : l ∈ lines) :
    ∃ t, Becomes l t ∧ { l with text := t } ∈ reflowLines before lines := by
  induction lines generalizing before with
  | nil => cases hl
  | cons m lines ih =>
    have hafter : ∀ t ∈ firstIndent lines, t.allBlank = true := by
      intro t ht
      obtain ⟨k, -, rfl⟩ := Option.map_eq_some_iff.1 ht
      exact allBlank_indent k.text
    have hnext : ∀ t ∈ (if m.shape.isSilent then before else some m.text.indent),
        t.allBlank = true := by
      intro t ht
      split at ht
      · exact hbefore t ht
      · cases ht
        exact allBlank_indent m.text
    rw [reflowLines]
    rcases List.mem_cons.1 hl with rfl | hl
    · split
      · next hraw =>
        have hreflows := reflows_reflow l.text (isLead_lead hbefore hafter)
        exact ⟨_, (if_pos hraw).mpr hreflows, List.mem_cons_self⟩
      · next hraw => exact ⟨l.text, (if_neg hraw).mpr rfl, List.mem_cons_self⟩
    · split
      · obtain ⟨t, ht, hmem⟩ := ih hbefore hl
        exact ⟨t, ht, List.mem_cons_of_mem _ hmem⟩
      · obtain ⟨t, ht, hmem⟩ := ih hnext hl
        exact ⟨t, ht, List.mem_cons_of_mem _ hmem⟩

end Remark

theorem Conversion.buffer_final (options : Options) (source : Text) :
    let p := Progress.beforeCalls options source
    (ofSource options source).final.buffer =
      Remark.run ((Resolution.run p.analysis p.buffer).2.map Stage.nameIntrinsics) := by
  have hfinal : (ofSource options source).final =
      (Progress.beforeCalls options source).runAll [.calls, .intrinsics, .remarks] := by
    rw [Progress.beforeCalls, Progress.runAll, Progress.runAll, ← List.foldl_append]
    rfl
  intro p
  rw [hfinal]
  simp only [Progress.runAll, List.foldl_cons, List.foldl_nil, Stage.analysis_apply,
    Stage.buffer_apply, Stage.run, p]

/-- What becomes of a comment card or a blank card. -/
structure Line.Shows (l m : Line) : Prop where
  id_eq : m.id = l.id
  origin_eq : m.origin = l.origin
  shape_eq : m.shape = l.shape
  blank : l.shape = .blank → m.text = []
  comment : l.shape = .comment → Remark.Reflows l.text m.text

theorem Conversion.exists_shows (options : Options) {source : Text} {l : Line}
    (hl : l ∈ (Card.read source).lines) (hs : l.shape.isSilent = true) :
    ∃ m ∈ (ofSource options source).final.buffer.lines, l.Shows m := by
  have hsilent := Card.isSilent_read hl hs
  have hheaded := Progress.headed_beforeCalls options source
  have hmem := Progress.mem_beforeCalls options hl hsilent
  rw [buffer_final]
  generalize Progress.beforeCalls options source = p at hheaded hmem ⊢
  have hcalls := Resolution.mem_run hheaded hmem hsilent
  have hintrinsics : l ∈ ((Resolution.run p.analysis p.buffer).2.map Stage.nameIntrinsics).lines := by
    refine Buffer.mem_map hcalls ?_
    rcases hsilent.shape_eq with h | h <;> simp [Stage.nameIntrinsics, h]
  have hbefore : ∀ t ∈ (none : Option Text), t.allBlank = true := by simp
  obtain ⟨t, ht, hrun⟩ := Remark.mem_reflowLines hbefore hintrinsics
  refine ⟨_, hrun, rfl, rfl, rfl, fun hblank => ?_, fun hcomment => ?_⟩
  · rcases hsilent with ⟨-, h⟩ | h
    · rw [h] at hblank
      cases hblank
    · have hraw : Remark.isRaw l = false := by simp [Remark.isRaw, hblank]
      have htext : l.text = [] := congrArg Draft.text h
      rw [Remark.Becomes, hraw, htext] at ht
      exact ht
  · rcases hsilent with ⟨hcard, -⟩ | h
    · rw [Remark.Becomes, Remark.isRaw_of_isComment hcomment hcard] at ht
      exact ht
    · rw [h] at hcomment
      cases hcomment

/-- Comment cards and blank cards are kept.  All of them are still there at the end of a conversion, in
their order and with their shapes; blank lines are empty, and a comment is the text of its card behind
the mark of the output. -/
theorem Conversion.silent_cards_kept (options : Options) (source : Text) :
    let first := (Card.read source).lines.filter (·.shape.isSilent)
    let last := (ofSource options source).final.buffer.lines.filter fun m => m.id ∈ first.map (·.id)
    List.Forall₂ Line.Shows first last := by
  intro first last
  have hread := Card.numbered_read source
  have hfinal := Progress.numbered_runAll (p := Progress.start options (Card.read source)) hread Stage.all
  have hshows (l : Line) (hl : l ∈ first) :
      ∃ m ∈ (ofSource options source).final.buffer.lines, l.Shows m :=
    exists_shows options (List.mem_of_mem_filter hl) (List.mem_filter.1 hl).2
  have hids : last.map (·.id) = first.map (·.id) := by
    refine (Progress.follows_runAll (p := Progress.start options (Card.read source)) hread rfl
      (by decide : Stage.all.Nodup)).map_id_of_mem hread List.filter_sublist fun l hl => ?_
    obtain ⟨m, hm, hshow⟩ := hshows l hl
    exact ⟨m, hm, hshow.id_eq⟩
  have hsame : List.Forall₂ (fun l m => m.id = l.id) first last := by
    have heq : List.Forall₂ (fun i j => j = i) (first.map (·.id)) (last.map (·.id)) := by
      rw [hids]
      exact List.forall₂_same.2 fun _ _ => rfl
    exact List.forall₂_map_left_iff.1 (List.forall₂_map_right_iff.1 heq)
  refine List.forall₂_iff_zip.2 ⟨hsame.length_eq, fun {l m} hlm => ?_⟩
  obtain ⟨hl, hm⟩ := List.of_mem_zip hlm
  obtain ⟨k, hk, hshow⟩ := hshows l hl
  have hid : m.id = k.id := (List.forall₂_zip hsame hlm).trans hshow.id_eq.symm
  rwa [hfinal.eq_of_id (List.mem_of_mem_filter hm) hk hid]

end FixedForm
