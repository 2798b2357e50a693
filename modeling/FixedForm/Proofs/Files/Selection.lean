import FixedForm.Proofs.Files.Harvest
import Mathlib.Data.List.Lex

/-! Which files are sources.  A file below the top folder is one exactly when its extension is asked for and
neither the file nor a folder on the way to it is ignored; the sources come in the order of their units. -/
namespace FixedForm

namespace Text

/-- The order of texts is the order of their units. -/
theorem le_iff {s t : Text} : Text.le s t = true ↔ s.map unit ≤ t.map unit := by
  induction s generalizing t with
  | nil => simp [Text.le, ← not_lt]
  | cons a s ih =>
    cases t with
    | nil => simp [Text.le, ← not_lt]
    | cons b t =>
      rw [List.map_cons, List.map_cons, ← not_lt, List.cons_lt_cons_iff, Text.le, Bool.or_eq_true,
        Bool.and_eq_true, ih, decide_eq_true_iff, beq_iff_eq, ← not_lt]
      grind

end Text

namespace Harvest
open FixedForm.Path (IsName absolute ofNames)
open FixedForm.Tree (Sound)

/-- The file stays, and so does each folder on the way to it.  The way starts in the folder with the names
`above`. -/
structure Stays (ignored : Text → Bool) (above folders : List Text) (name : Text) : Prop where
  file : ignored (ofNames (above ++ (folders ++ [name]))) = false
  folder : ∀ {outer inner}, outer ≠ [] → folders = outer ++ inner →
    ignored (ofNames (above ++ outer) ++ "/") = false

section Entries
variable {ignored keep : Text → Bool} {above folders rest : List Text} {n name : Text} {es : List Tree}

/-- One folder of the way after the other. -/
theorem stays_cons : Stays ignored above (n :: folders) name ↔
    ignored (ofNames (above ++ [n]) ++ "/") = false ∧ Stays ignored (above ++ [n]) folders name := by
  have hsplit (ns : List Text) : above ++ n :: ns = above ++ [n] ++ ns := by simp
  constructor
  · intro h
    refine ⟨h.folder (List.cons_ne_nil n []) rfl, ?_, fun {outer inner} _ he => ?_⟩
    · rw [← hsplit]
      exact h.file
    · rw [← hsplit]
      exact h.folder (List.cons_ne_nil n outer) (by rw [he, List.cons_append])
  · rintro ⟨hn, h⟩
    refine ⟨?_, fun {outer inner} hne he => ?_⟩
    · rw [List.cons_append, hsplit]
      exact h.file
    · obtain ⟨m, outer, rfl⟩ := List.exists_cons_of_ne_nil hne
      obtain ⟨rfl, hrest⟩ := List.cons.inj he
      cases outer with
      | nil => exact hn
      | cons k outer =>
        rw [hsplit]
        exact h.folder (List.cons_ne_nil k outer) hrest

theorem mem_entries {ns : List Text} :
    ns ∈ entries ignored keep above es ↔ ∃ e ∈ es, ns ∈ entry ignored keep above e := by
  induction es with
  | nil => simp [entries]
  | cons e es ih => simp [entries, ih]

theorem Kept.exists_rest {ns : List Text} (h : Kept keep above n ns) : ∃ rest, ns = above ++ n :: rest := by
  cases h with
  | below rest _ _ => exact ⟨rest, rfl⟩

/-- Among different names an entry is found by its own. -/
theorem find?_name_iff {e : Tree} (h : (es.map Tree.name).Nodup) :
    (es.find? fun e => e.name == n) = some e ↔ e ∈ es ∧ e.name = n := by
  constructor
  · intro hfind
    have hname := List.find?_some hfind
    exact ⟨List.mem_of_find?_eq_some hfind, by simpa using hname⟩
  · rintro ⟨he, rfl⟩
    cases hfind : es.find? fun f => f.name == e.name with
    | none => exact absurd (beq_self_eq_true e.name) (List.find?_eq_none.1 hfind e he)
    | some f =>
      have hname := List.find?_some hfind
      exact congrArg some (List.inj_on_of_nodup_map h (List.mem_of_find?_eq_some hfind) he (by simpa using hname))

/-- The files with a first name come from the entry of that name. -/
theorem mem_entries_find (h : Sound (.folder name es)) : above ++ n :: rest ∈ entries ignored keep above es ↔
    ∃ e, es.find? (fun e => e.name == n) = some e ∧ above ++ n :: rest ∈ entry ignored keep above e := by
  cases h with
  | folder _ _ hnames hdistinct hsound =>
    rw [mem_entries]
    constructor
    · rintro ⟨e, he, hmem⟩
      obtain ⟨rest', hrest⟩ := ((kept_entry ignored keep above (hnames e he) (hsound e he)).1 _ hmem).exists_rest
      obtain ⟨rfl, -⟩ := List.cons.inj (List.append_cancel_left hrest)
      exact ⟨e, (find?_name_iff hdistinct).2 ⟨he, rfl⟩, hmem⟩
    · rintro ⟨e, he, hmem⟩
      exact ⟨e, List.mem_of_find?_eq_some he, hmem⟩

theorem sound_find {e : Tree} (h : Sound (.folder name es)) (hfind : (es.find? fun e => e.name == n) = some e) :
    Sound e := by
  cases h with
  | folder _ _ _ _ hsound => exact hsound _ (List.mem_of_find?_eq_some hfind)

/-- A folder is none of its own files. -/
theorem above_not_mem_entries (h : Sound (.folder n es)) : above ∉ entries ignored keep above es := by
  intro hmem
  cases h with
  | folder _ _ hnames hdistinct hsound =>
    obtain ⟨e, -, hkept⟩ := (kept_entries ignored keep above hnames hdistinct hsound).1 _ hmem
    obtain ⟨rest, hrest⟩ := hkept.exists_rest
    simp at hrest

/-- By the folders on the way: each step goes into the entry of one name, if it is a folder that stays. -/
theorem mem_entries_iff (h : Sound (.folder n es)) :
    above ++ (folders ++ [name]) ∈ entries ignored keep above es ↔
    (∃ content, (Tree.folder n es).look (folders ++ [name]) = .file content) ∧ keep name = true ∧
      Stays ignored above folders name := by
  induction folders generalizing above n es with
  | nil =>
    rw [List.nil_append, mem_entries_find h, Tree.look]
    cases hfind : es.find? fun e => e.name == name with
    | none => simp
    | some e =>
      have hname : e.name = name := by simpa using List.find?_some hfind
      cases e with
      | file m content =>
        obtain rfl : m = name := hname
        have hstays : Stays ignored above [] m ↔ ignored (ofNames (above ++ [m])) = false :=
          ⟨fun h => h.file, fun h => ⟨h, fun hne he => absurd (List.append_eq_nil_iff.1 he.symm).1 hne⟩⟩
        simp [entry, entryPath, Tree.look, hstays, and_comm]
      | folder m inner =>
        obtain rfl : m = name := hname
        have hnot : above ++ [m] ∉ entry ignored keep above (.folder m inner) := by
          rw [entry]
          split
          · exact List.not_mem_nil
          · exact above_not_mem_entries (sound_find h hfind)
        simp [Tree.look, hnot]
  | cons f folders ih =>
    rw [List.cons_append, mem_entries_find h, Tree.look, stays_cons]
    cases hfind : es.find? fun e => e.name == f with
    | none => simp
    | some e =>
      have hname : e.name = f := by simpa using List.find?_some hfind
      cases e with
      | file m content =>
        have hlook : Tree.look (folders ++ [name]) (.file m content) = .notFolder := by cases folders <;> rfl
        have hnot : above ++ f :: (folders ++ [name]) ∉ entry ignored keep above (.file m content) := by
          rw [entry]
          split <;> simp
        simp [hlook, hnot]
      | folder m inner =>
        obtain rfl : m = f := hname
        have hstep : above ++ [m] ++ (folders ++ [name]) ∈ entries ignored keep (above ++ [m]) inner ↔ _ :=
          ih (sound_find h hfind)
        rw [List.append_assoc, List.singleton_append] at hstep
        have hentry : above ++ m :: (folders ++ [name]) ∈ entry ignored keep above (.folder m inner) ↔
            ignored (ofNames (above ++ [m]) ++ "/") = false ∧
              above ++ m :: (folders ++ [name]) ∈ entries ignored keep (above ++ [m]) inner := by
          rw [entry, entryPath]
          split <;> simp_all
        simp only [Option.some.injEq, exists_eq_left', hentry, hstep]
        tauto

end Entries

/-- A source that is not ignored: the file is there, and neither its path from the top folder nor that of a
folder above it, with a slash at the end, is ignored. -/
structure IsSelected (ignored : Text → Bool) (t : Tree) (top : Text) (extensions folders : List Text)
    (name p : Text) : Prop extends IsSource top extensions folders name p where
  file : ∃ content, t.read p = .ok content
  stays : ignored (Path.relative top p) = false
  folder_stays : ∀ outer inner, outer ≠ [] → folders = outer ++ inner →
    ignored (Path.relative top (Path.join top (ofNames outer)) ++ "/") = false

section Gather
variable {ignored : Text → Bool} {t : Tree} {top : Text} {extensions folders files : List Text} {name p : Text}
  {es : List Tree}

theorem IsSource.relative (h : IsSource top extensions folders name p) :
    Path.relative top p = ofNames (folders ++ [name]) := by
  rw [h.path_eq, Path.relative_join (by simp) h.names]

theorem IsSource.relative_folder {outer inner : List Text} (h : IsSource top extensions folders name p)
    (hne : outer ≠ []) (he : folders = outer ++ inner) :
    Path.relative top (Path.join top (ofNames outer)) = ofNames outer := by
  refine Path.relative_join hne (fun n hn => h.names n ?_) top
  rw [he]
  simp [hn]

theorem IsSource.stays_iff (h : IsSource top extensions folders name p) : Stays ignored [] folders name ↔
    ignored (Path.relative top p) = false ∧ ∀ outer inner, outer ≠ [] → folders = outer ++ inner →
      ignored (Path.relative top (Path.join top (ofNames outer)) ++ "/") = false := by
  rw [h.relative]
  constructor
  · intro hs
    refine ⟨hs.file, fun outer inner hne he => ?_⟩
    rw [h.relative_folder hne he]
    exact hs.folder hne he
  · rintro ⟨hfile, hfolder⟩
    refine ⟨hfile, fun {outer inner} hne he => ?_⟩
    rw [List.nil_append, ← h.relative_folder hne he]
    exact hfolder outer inner hne he

theorem IsSource.read_iff (h : IsSource top extensions folders name p) (hes : t.list top = .ok es) (n : Text) :
    (∃ content, t.read p = .ok content) ↔
      ∃ content, (Tree.folder n es).look (folders ++ [name]) = .file content := by
  have hname := h.names name (by simp)
  have hlast : p.getLast? ≠ some '/' := by
    rw [h.path_eq, Path.join_ofNames (by simp) h.names, ← List.append_assoc]
    exact Path.getLast?_ofNames _ hname.nonempty hname.slash
  have habsolute : absolute p = absolute top ++ (folders ++ [name]) := by
    rw [h.path_eq, Path.absolute_join (by simp) h.names]
  have hlook := Tree.look_append (Tree.look_of_list hes).1 (List.concat_ne_nil name folders) n
  simp only [Tree.read_eq_ok_iff, habsolute, hlook]
  simp [hlast]

/-- The names of a source below the top folder are its folders and its own name. -/
theorem exists_source (top : Text) (h : Sound (.folder name es)) {ns : List Text}
    (hns : ns ∈ entries ignored (asks extensions) [] es) : ∃ folders name,
      ns = folders ++ [name] ∧ IsSource top extensions folders name (Path.join top (ofNames ns)) := by
  cases h with
  | folder _ _ hnames hdistinct hsound =>
    obtain ⟨e, -, hkept⟩ := (kept_entries ignored (asks extensions) [] hnames hdistinct hsound).1 ns hns
    obtain ⟨⟨hne, hall⟩, folders, name, hsource⟩ := isSource_of_kept top hkept
    have habsolute := congrArg absolute hsource.path_eq
    rw [Path.absolute_join hne hall, Path.absolute_join (by simp) hsource.names] at habsolute
    exact ⟨folders, name, List.append_cancel_left habsolute, hsource⟩

theorem mem_gather_iff (ht : t.IsSystem) (h : gather ignored t top extensions = .ok files) :
    p ∈ files ↔ ∃ folders name, IsSelected ignored t top extensions folders name p := by
  obtain ⟨es, hes⟩ := list_of_gather h
  obtain ⟨n, hsound⟩ := ht.list hes
  obtain rfl := Except.ok.inj ((gather_eq hes).symm.trans h)
  have hentry {folders : List Text} {name : Text} (hs : IsSource top extensions folders name p) :
      folders ++ [name] ∈ entries ignored (asks extensions) [] es ↔
        IsSelected ignored t top extensions folders name p := by
    have hasks : asks extensions name = true := by simpa [asks] using hs.kept
    have hmem : [] ++ (folders ++ [name]) ∈ entries ignored (asks extensions) [] es ↔ _ := mem_entries_iff hsound
    rw [List.nil_append, ← hs.read_iff hes, hs.stays_iff] at hmem
    rw [hmem]
    constructor
    · rintro ⟨hfile, -, hstays, hfolder⟩
      exact ⟨hs, hfile, hstays, hfolder⟩
    · intro h
      exact ⟨h.file, hasks, h.stays, h.folder_stays⟩
  rw [(List.mergeSort_perm _ _).mem_iff, List.mem_map]
  constructor
  · rintro ⟨ns, hns, rfl⟩
    obtain ⟨folders, name, rfl, hs⟩ := exists_source top hsound hns
    exact ⟨folders, name, (hentry hs).1 hns⟩
  · rintro ⟨folders, name, hs⟩
    exact ⟨folders ++ [name], (hentry hs.toIsSource).2 hs, hs.path_eq.symm⟩

theorem pairwise_gather (h : gather ignored t top extensions = .ok files) :
    files.Pairwise fun p q => p.map Text.unit ≤ q.map Text.unit := by
  obtain ⟨es, hes⟩ := list_of_gather h
  obtain rfl := Except.ok.inj ((gather_eq hes).symm.trans h)
  have htrans (p q r : Text) (hpq : Text.le p q = true) (hqr : Text.le q r = true) : Text.le p r = true :=
    Text.le_iff.2 (le_trans (Text.le_iff.1 hpq) (Text.le_iff.1 hqr))
  have htotal (p q : Text) : (Text.le p q || Text.le q p) = true := by
    rw [Bool.or_eq_true, Text.le_iff, Text.le_iff]
    exact le_total _ _
  exact (List.pairwise_mergeSort htrans htotal _).imp fun h => Text.le_iff.1 h

end Gather

/-- Below every folder that can be listed, for every choice of ignored paths, the sources are exactly the
files that are not ignored, each once and in the order of their units.  However patterns are read, those of
a folder are such a choice, unless an entry of the folder has no path from it. -/
theorem gather_exact (ignored : Text → Bool) {t : Tree} {top : Text} {es : List Tree} (ht : t.IsSystem)
    (hes : t.list top = .ok es) (extensions : List Text) :
    (∃ files, gather ignored t top extensions = .ok files ∧
      (files.Pairwise fun p q => p.map Text.unit ≤ q.map Text.unit) ∧ files.Nodup ∧
      ∀ p, p ∈ files ↔ ∃ folders name, IsSelected ignored t top extensions folders name p) ∧
    ∀ (reader : PatternReader) o left, reader (patterns t top o) = .ok left →
      (∀ e ∈ es, isOnlyPoints e.name = false) →
      collectBy reader t top o = gather left t top o.extensions := by
  refine ⟨⟨_, gather_eq hes, pairwise_gather (gather_eq hes), (gather_spec ht (gather_eq hes)).1,
    fun p => mem_gather_iff ht (gather_eq hes)⟩, fun reader o left hleft hpoints => ?_⟩
  have hpathless : pathless? t top = none := by
    rw [pathless?, hes]
    exact List.find?_eq_none.2 fun e he => by simp [hpoints e he]
  rw [collectBy, hleft]
  dsimp only
  rw [hpathless]

/-- Sources on two levels, and one in a folder to be ignored. -/
def sampleEntries : List Tree :=
  [.folder "old" [.file "a.f" []], .folder "lib" [.file "a.for" [], .file "a.txt" []], .file "b.F" []]

def sampleFolders : Tree := .folder [] [.folder [] [.folder "w" sampleEntries]]

theorem isSystem_sampleFolders : sampleFolders.IsSystem := by
  have hold : Sound (.folder "old" [.file "a.f" []]) :=
    .folder _ _ (by decide) (by decide) (List.forall_mem_singleton.2 (.file _ _))
  have hlib : Sound (.folder "lib" [.file "a.for" [], .file "a.txt" []]) := by
    refine .folder _ _ (by decide) (by decide) ?_
    simp only [List.forall_mem_cons]
    exact ⟨.file _ _, .file _ _, by simp⟩
  have htop : Sound (.folder "w" sampleEntries) := by
    refine .folder _ _ (by decide) (by decide) ?_
    simp only [sampleEntries, List.forall_mem_cons]
    exact ⟨hold, hlib, .file _ _, by simp⟩
  have hvolume := Sound.folder [] _ (by decide) (by decide) (List.forall_mem_singleton.2 htop)
  exact .volumes _ _ (List.forall_mem_singleton.2 hvolume)

theorem list_sampleFolders : sampleFolders.list "/w" = .ok sampleEntries := rfl

theorem gather_sampleFolders : gather (· == "old/".toList) sampleFolders "/w" [".f", ".for"] =
    .ok ["/w/b.F", "/w/lib/a.for"] := by
  have hentries : entries (· == "old/".toList) (asks [".f", ".for"]) [] sampleEntries =
      [["lib".toList, "a.for".toList], ["b.F".toList]] := by decide
  have hpaths : ([["lib".toList, "a.for".toList], ["b.F".toList]].map fun ns => Path.join "/w" (ofNames ns)) =
      ["/w/lib/a.for".toList, "/w/b.F".toList] := by decide
  have hsort {p q : Text} (h : Text.le p q = false) : [p, q].mergeSort Text.le = [q, p] := by
    simp [List.mergeSort, List.MergeSort.Internal.splitInTwo, h]
  rw [gather_eq list_sampleFolders, hentries, hpaths, hsort (by decide)]

/-- The folder `old` is ignored with all that is in it. -/
theorem gather_exact_sample : sampleFolders.IsSystem ∧
    (∃ folders name, IsSelected (· == "old/".toList) sampleFolders "/w" [".f", ".for"] folders name
      "/w/lib/a.for") ∧
    ¬ ∃ folders name, IsSelected (· == "old/".toList) sampleFolders "/w" [".f", ".for"] folders name
      "/w/old/a.f" := by
  obtain ⟨⟨files, hfiles, -, -, hmem⟩, -⟩ := gather_exact (· == "old/".toList) isSystem_sampleFolders
    list_sampleFolders [".f", ".for"]
  obtain rfl := Except.ok.inj (gather_sampleFolders.symm.trans hfiles)
  refine ⟨isSystem_sampleFolders, ?_, ?_⟩
  · rw [← hmem]
    decide
  · rw [← hmem]
    decide

end Harvest

end FixedForm
