import FixedForm.Command.Run
import FixedForm.Proofs.Files.Harvest
import FixedForm.Proofs.Stage.Apart

/-! Conversion of all sources below a folder.  Two sources get the same target exactly when they differ in
their extensions only; then the later one is kept.  Every other source has its conversion at its target. -/
namespace FixedForm

namespace Outcome
variable (o : Outcome) (quiet : Bool) (message : Text)

theorem tree_log : (o.log quiet message).tree = o.tree := by
  rw [log]
  split <;> rfl

theorem exit_log : (o.log quiet message).exit = o.exit := by
  rw [log]
  split <;> rfl

end Outcome

namespace Command
open FixedForm.Path (IsName absolute ofNames stem? withExtension)
open Harvest (IsSource PatternReader)

theorem isExtensionLetter_cpp : ∀ c ∈ ("cpp" : Text), Path.isExtensionLetter c = true := by
  simp [Path.isExtensionLetter]

section Target
variable {root : Text} (outDir : Option Text) {extensions folders : List Text} {name p : Text}
  (h : IsSource root extensions folders name p)
include h

theorem source_eq : p = ofNames (absolute root ++ (folders ++ [name])) := by
  rw [h.path_eq, Path.join_ofNames (by simp) h.names]

theorem isPlain_source : Path.IsPlain p := by
  rw [source_eq h]
  exact Path.isPlain_ofNames ((Path.isNormal_absolute _).append h.names)

theorem stem?_source : stem? p = (stem? name).map (Path.lead (absolute root ++ folders) ++ ·) := by
  rw [source_eq h, ← List.append_assoc, Path.ofNames_concat _ (h.names name (by simp)).nonempty,
    Path.stem?_lead (Path.lead_ends _)]

theorem isName_target : ∀ n ∈ folders ++ [withExtension "cpp" name], IsName n := by
  intro n hn
  rcases List.mem_append.1 hn with hn | hn
  · exact h.names n (List.mem_append_left _ hn)
  · rw [List.mem_singleton.1 hn]
    exact Path.isName_withExtension (h.names name (by simp)) (by simp) isExtensionLetter_cpp

/-- The target of a source has the same folders below the folder for the output. -/
theorem target_eq : target root outDir p =
    ofNames (absolute (outDir.getD root) ++ (folders ++ [withExtension "cpp" name])) := by
  rw [target, h.path_eq, Path.relative_join (by simp) h.names,
    Path.withExtension_ofNames folders (h.names name (by simp)) (by simp) isExtensionLetter_cpp,
    Path.join_ofNames (by simp) (isName_target h)]

theorem isPlain_target : Path.IsPlain (target root outDir p) := by
  rw [target_eq outDir h]
  exact Path.isPlain_ofNames ((Path.isNormal_absolute _).append (isName_target h))

theorem getLast?_target : (target root outDir p).getLast? ≠ some '/' := by
  have hn := isName_target h (withExtension "cpp" name) (by simp)
  rw [target_eq outDir h, ← List.append_assoc]
  exact Path.getLast?_ofNames _ hn.nonempty hn.slash

end Target

section Pair
variable {root : Text} {outDir : Option Text} {extensions folders folders' : List Text} {name name' p q : Text}
  (hp : IsSource root extensions folders name p) (hq : IsSource root extensions folders' name' q)
include hp hq

/-- Two sources have the same target exactly when they differ in their extensions at most. -/
theorem target_inj : target root outDir p = target root outDir q ↔
    p = q ∨ ∃ s, stem? p = some s ∧ stem? q = some s := by
  have hreplaced {folders : List Text} {name p : Text} (h : IsSource root extensions folders name p) :
      withExtension "cpp" p = ofNames (absolute root ++ (folders ++ [withExtension "cpp" name])) := by
    rw [source_eq h, ← List.append_assoc, ← List.append_assoc,
      Path.withExtension_ofNames _ (h.names name (by simp)) (by simp) isExtensionLetter_cpp]
  have hinj (folder : Text) := Path.ofNames_inj
    ((Path.isNormal_absolute folder).append (isName_target hp))
    ((Path.isNormal_absolute folder).append (isName_target hq))
  rw [← Path.withExtension_inj (by simp) isExtensionLetter_cpp, hreplaced hp, hreplaced hq,
    target_eq outDir hp, target_eq outDir hq, hinj, hinj, List.append_cancel_left_eq,
    List.append_cancel_left_eq]

/-- A target is a source only if the extensions ask for it. -/
theorem target_ne_source (hstem : stem? p ≠ none) (hcpp : ".cpp".toList ∉ extensions) (hempty : [] ∉ extensions) :
    target root outDir p ≠ q := by
  intro he
  rw [target_eq outDir hp, source_eq hq, Path.ofNames_inj
    ((Path.isNormal_absolute _).append (isName_target hp))
    ((Path.isNormal_absolute _).append hq.names), ← List.append_assoc, ← List.append_assoc] at he
  have hname : withExtension "cpp" name = name' := (List.append_singleton_inj.1 he).2
  have hnamed : stem? name ≠ none := fun hnone => hstem (by rw [stem?_source hp, hnone]; rfl)
  obtain ⟨s, hs⟩ := Option.ne_none_iff_exists'.1 hnamed
  rw [Path.withExtension_eq, hs] at hname
  have hkept := hq.kept
  rw [← hname] at hkept
  rw [Option.map_some, Option.getD_some, Path.extension_point s (by simp) isExtensionLetter_cpp] at hkept
  split at hkept
  · exact hempty hkept
  · exact hcpp hkept

end Pair

theorem tree_summarize (o : Outcome) (quiet : Bool) (c : Conversion) (label : Text) :
    (summarize o quiet c label).tree = o.tree := by
  rw [summarize]
  split
  · rfl
  · exact o.tree_log _ _

theorem exit_summarize (o : Outcome) (quiet : Bool) (c : Conversion) (label : Text) :
    (summarize o quiet c label).exit = o.exit := by
  rw [summarize]
  split
  · rfl
  · exact o.exit_log _ _

section Run
variable (root : Text) (outDir : Option Text) (quiet : Bool) (options : Options)

/-- A source that can be read is converted and written to its target. -/
theorem batchFile_ok {s : Outcome × Nat} {p source : Text} {tree : Tree} (hread : s.1.tree.read p = .ok source)
    (hwrite : s.1.tree.write (target root outDir p) (Conversion.ofSource options source).text = .ok tree) :
    (batchFile root outDir quiet options s p).2 = s.2 ∧
      (batchFile root outDir quiet options s p).1.tree = tree := by
  simp [batchFile, Conversion.ofFile, hread, hwrite, bind, Except.bind, pure, Except.pure, tree_summarize]

/-- A source is converted, or a failure is counted and all files stay. -/
theorem batchFile_cases (s : Outcome × Nat) (p : Text) :
    let r := batchFile root outDir quiet options s p
    (∃ source, s.1.tree.read p = .ok source ∧ r.2 = s.2 ∧
      s.1.tree.write (target root outDir p) (Conversion.ofSource options source).text = .ok r.1.tree) ∨
    r.2 = s.2 + 1 ∧ r.1.tree = s.1.tree := by
  intro r
  cases hread : s.1.tree.read p with
  | error reason =>
    refine .inr ?_
    simp only [r, batchFile, Conversion.ofFile, hread]
    exact ⟨rfl, rfl⟩
  | ok source =>
    cases hwrite : s.1.tree.write (target root outDir p) (Conversion.ofSource options source).text with
    | error reason =>
      refine .inr ?_
      simp [r, batchFile, Conversion.ofFile, hread, hwrite, bind, Except.bind, Outcome.warn]
    | ok tree =>
      obtain ⟨hcount, htree⟩ := batchFile_ok root outDir quiet options hread hwrite
      exact .inl ⟨source, rfl, hcount, by rw [hwrite, htree]⟩

/-- All sources of a list, one after the other. -/
def batchFiles (s : Outcome × Nat) (files : List Text) : Outcome × Nat :=
  files.foldl (batchFile root outDir quiet options) s

theorem le_batchFiles (s : Outcome × Nat) (files : List Text) :
    s.2 ≤ (batchFiles root outDir quiet options s files).2 := by
  induction files generalizing s with
  | nil => exact Nat.le_refl _
  | cons p files ih =>
    refine Nat.le_trans ?_ (ih _)
    obtain ⟨-, -, h, -⟩ | ⟨h, -⟩ := batchFile_cases root outDir quiet options s p
    · exact Nat.le_of_eq h.symm
    · omega

/-- Files that are no target stay as they were. -/
theorem read_batchFiles {files : List Text} {q c : Text} (s : Outcome × Nat)
    (hq : ∀ p ∈ files, absolute q ≠ absolute (target root outDir p)) :
    (batchFiles root outDir quiet options s files).1.tree.read q = .ok c ↔ s.1.tree.read q = .ok c := by
  induction files generalizing s with
  | nil => rfl
  | cons p files ih =>
    refine (ih _ fun p' hp' => hq p' (List.mem_cons_of_mem p hp')).trans ?_
    obtain ⟨source, -, -, hwrite⟩ | ⟨-, htree⟩ := batchFile_cases root outDir quiet options s p
    · exact Tree.read_write_other hwrite (hq p List.mem_cons_self)
    · rw [htree]

/-- A source whose target no later one has.  If no file failed, its conversion is at its target. -/
theorem read_target_batchFiles {s : Outcome × Nat} {before after : List Text} {p : Text}
    (hlast : (target root outDir p).getLast? ≠ some '/')
    (hok : (batchFiles root outDir quiet options s (before ++ p :: after)).2 = s.2)
    (hsource : ∀ q ∈ before, absolute p ≠ absolute (target root outDir q))
    (htarget : ∀ q ∈ after, absolute (target root outDir p) ≠ absolute (target root outDir q)) :
    ∃ source, s.1.tree.read p = .ok source ∧
      (batchFiles root outDir quiet options s (before ++ p :: after)).1.tree.read (target root outDir p) =
        .ok (Conversion.ofSource options source).text := by
  have hsplit : batchFiles root outDir quiet options s (before ++ p :: after) =
      batchFiles root outDir quiet options (batchFile root outDir quiet options
        (batchFiles root outDir quiet options s before) p) after := by
    simp only [batchFiles, List.foldl_append, List.foldl_cons]
  have hbefore := le_batchFiles root outDir quiet options s before
  have hread (c : Text) := read_batchFiles root outDir quiet options (c := c) s hsource
  rw [hsplit] at hok ⊢
  generalize batchFiles root outDir quiet options s before = r at hbefore hread hok ⊢
  have hafter := le_batchFiles root outDir quiet options (batchFile root outDir quiet options r p) after
  obtain ⟨source, hp, -, hwrite⟩ | ⟨h, -⟩ := batchFile_cases root outDir quiet options r p
  · refine ⟨source, (hread source).1 hp, ?_⟩
    exact (read_batchFiles root outDir quiet options _ htarget).2 (Tree.read_write hwrite hlast)
  · omega

theorem batch_eq {reader : PatternReader} {o : Outcome} {extensions files : List Text} {p : Text}
    (hfiles : Harvest.collectBy reader o.tree root { extensions } = .ok (p :: files)) :
    ∃ (start : Outcome) (message : Text), start.tree = o.tree ∧ start.exit = o.exit ∧
      batch reader o quiet options root outDir extensions =
        let r := batchFiles root outDir quiet options (start, 0) (p :: files)
        if 0 < r.2 then { r.1.log quiet message with exit := 1 } else r.1.log quiet message := by
  simp only [batch, Outcome.tree_log, hfiles]
  exact ⟨_, _, by rw [Outcome.tree_log, Outcome.tree_log], by rw [Outcome.exit_log, Outcome.exit_log], rfl⟩

/-- What is wrong with a source has no influence on the exit code. -/
theorem exit_batchFiles (s : Outcome × Nat) (files : List Text) :
    (batchFiles root outDir quiet options s files).1.exit = s.1.exit := by
  refine foldl_view (fun s : Outcome × Nat => s.1.exit) (fun s p => ?_) files s
  simp only [batchFile]
  split
  · exact exit_summarize _ _ _ _
  · rfl

/-- A batch that ends well has gone through all its sources without a failure. -/
theorem batch_files {reader : PatternReader} {o : Outcome} {extensions files : List Text}
    (hfiles : Harvest.collectBy reader o.tree root { extensions } = .ok files)
    (hexit : (batch reader o quiet options root outDir extensions).exit = 0) :
    ∃ start : Outcome, start.tree = o.tree ∧
      (batchFiles root outDir quiet options (start, 0) files).2 = 0 ∧
      (batch reader o quiet options root outDir extensions).tree =
        (batchFiles root outDir quiet options (start, 0) files).1.tree := by
  cases files with
  | nil =>
    simp only [batch, Outcome.tree_log, hfiles] at hexit
    cases hexit
  | cons p files =>
    obtain ⟨start, message, hstart, -, hbatch⟩ := batch_eq root outDir quiet options hfiles
    rw [hbatch] at hexit ⊢
    refine ⟨start, hstart, ?_⟩
    dsimp only at hexit ⊢
    split at hexit
    · cases hexit
    · next hnone =>
      rw [if_neg hnone, Outcome.tree_log]
      exact ⟨Nat.eq_zero_of_not_pos hnone, rfl⟩

end Run

/-- The conversions of all sources below a folder, however ignore patterns are read.  The targets are
different exactly when no two sources differ in their extensions only.  After a batch without failures the
target of a source holds its conversion, unless a later source has the same target or an earlier one has
overwritten the source; the latter does not happen as long as the extensions do not ask for targets. -/
theorem batch_translations {reader : PatternReader} {o : Outcome} {quiet : Bool} {options : Options}
    {root : Text} {outDir : Option Text} {extensions files : List Text} (htree : o.tree.IsSystem)
    (hfiles : Harvest.collectBy reader o.tree root { extensions } = .ok files)
    (hexit : (batch reader o quiet options root outDir extensions).exit = 0) :
    let final := (batch reader o quiet options root outDir extensions).tree
    let goal := target root outDir
    ((files.map goal).Nodup ↔ ∀ p ∈ files, ∀ q ∈ files, ∀ s, stem? p = some s → stem? q = some s → p = q) ∧
    (∀ before p after, files = before ++ p :: after → (∀ q ∈ before, goal q ≠ p) →
      (∀ q ∈ after, goal q ≠ goal p) → ∃ source, o.tree.read p = .ok source ∧
        final.read (goal p) = .ok (Conversion.ofSource options source).text) ∧
    (".cpp".toList ∉ extensions → [] ∉ extensions →
      ∀ p ∈ files, ∀ q ∈ files, stem? q ≠ none → goal q ≠ p) := by
  intro final goal
  obtain ⟨hnodup, hsources⟩ := Harvest.collectBy_spec htree hfiles
  refine ⟨?_, ?_, ?_⟩
  · rw [List.nodup_map_iff_inj_on hnodup]
    constructor
    · intro h p hp q hq s hps hqs
      obtain ⟨_, _, hp'⟩ := hsources p hp
      obtain ⟨_, _, hq'⟩ := hsources q hq
      exact h p hp q hq ((target_inj hp' hq').2 (.inr ⟨s, hps, hqs⟩))
    · intro h p hp q hq he
      obtain ⟨_, _, hp'⟩ := hsources p hp
      obtain ⟨_, _, hq'⟩ := hsources q hq
      rcases (target_inj hp' hq').1 he with he | ⟨s, hps, hqs⟩
      · exact he
      · exact h p hp q hq s hps hqs
  · rintro before p after rfl hbefore hafter
    obtain ⟨start, hstart, hnone, hfinal⟩ := batch_files root outDir quiet options hfiles hexit
    obtain ⟨_, _, hp⟩ := hsources p (by simp)
    obtain ⟨source, hread, htarget⟩ := read_target_batchFiles root outDir quiet options (getLast?_target outDir hp)
      hnone
      (fun q hq he => by
        obtain ⟨_, _, hq'⟩ := hsources q (by simp [hq])
        exact hbefore q hq ((isPlain_target outDir hq').eq (isPlain_source hp) he.symm))
      (fun q hq he => by
        obtain ⟨_, _, hq'⟩ := hsources q (by simp [hq])
        exact hafter q hq ((isPlain_target outDir hq').eq (isPlain_target outDir hp) he.symm))
    refine ⟨source, ?_, ?_⟩
    · rw [← hstart]
      exact hread
    · rw [← htarget, ← hfinal]
  · intro hcpp hempty p hp q hq hstem
    obtain ⟨_, _, hp'⟩ := hsources p hp
    obtain ⟨_, _, hq'⟩ := hsources q hq
    exact target_ne_source hq' hp' hstem hcpp hempty

def sampleTree : Tree :=
  .folder [] [.folder [] [.folder "w" [
    .file "a.f" "      subroutine one\n      end\n", .file "a.for" "      subroutine two\n      end\n"]]]

theorem isSystem_sampleTree : sampleTree.IsSystem := by
  have hfolder : Tree.Sound (.folder "w" [.file "a.f" "      subroutine one\n      end\n",
      .file "a.for" "      subroutine two\n      end\n"]) := by
    refine .folder _ _ (by decide) (by decide) ?_
    simp only [List.forall_mem_cons]
    exact ⟨.file _ _, .file _ _, by simp⟩
  have hvolume := Tree.Sound.folder [] _ (by decide) (by decide) (List.forall_mem_singleton.2 hfolder)
  exact .volumes _ _ (List.forall_mem_singleton.2 hvolume)

/-- Patterns that leave nothing out. -/
def sampleReader : PatternReader := fun _ => .ok fun _ => false

theorem collectBy_sampleTree : Harvest.collectBy sampleReader sampleTree "/w" { extensions := [".f", ".for"] } =
    .ok ["/w/a.f", "/w/a.for"] := by
  have hsort : ["/w/a.f".toList, "/w/a.for".toList].mergeSort Text.le = ["/w/a.f".toList, "/w/a.for".toList] :=
    List.mergeSort_of_pairwise (by decide)
  exact congrArg Except.ok hsort

theorem exit_sampleTree : (batch sampleReader { tree := sampleTree } true {} "/w" none [".f", ".for"]).exit = 0 := by
  obtain ⟨start, message, hstart, hexit, hbatch⟩ :=
    batch_eq "/w" none true {} (o := { tree := sampleTree }) collectBy_sampleTree
  have hnone : (batchFiles "/w" none true {} (start, 0) ["/w/a.f", "/w/a.for"]).2 = 0 := by
    obtain ⟨hfirst, htree⟩ := batchFile_ok "/w" none true {} (s := (start, 0)) (p := "/w/a.f")
      (by rw [hstart]; rfl) (by rw [hstart]; rfl)
    obtain ⟨hsecond, -⟩ := batchFile_ok "/w" none true {}
      (s := batchFile "/w" none true {} (start, 0) "/w/a.f") (p := "/w/a.for")
      (by rw [htree]; rfl) (by rw [htree]; rfl)
    exact hsecond.trans hfirst
  rw [hbatch]
  dsimp only
  rw [if_neg (by rw [hnone]; decide), Outcome.exit_log, exit_batchFiles]
  exact hexit

/-- Of two sources that differ in their extensions only, the second one is kept. -/
theorem batch_translations_sample :
    let final := (batch sampleReader { tree := sampleTree } true {} "/w" none [".f", ".for"]).tree
    target "/w" none "/w/a.f" = target "/w" none "/w/a.for" ∧
      ∃ source, sampleTree.read "/w/a.for" = .ok source ∧
        final.read (target "/w" none "/w/a.for") = .ok (Conversion.ofSource {} source).text := by
  intro final
  refine ⟨by decide, ?_⟩
  exact (batch_translations (o := { tree := sampleTree }) isSystem_sampleTree collectBy_sampleTree
    exit_sampleTree).2.1 ["/w/a.f"] "/w/a.for" [] rfl (by decide) (by simp)

end Command

end FixedForm
