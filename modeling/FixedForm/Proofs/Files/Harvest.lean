import FixedForm.Files.Harvest
import FixedForm.Proofs.Files.Tree
import Mathlib.Data.List.Nodup

/-! The sources below a folder.  Their paths are different, and each one ends with a name that the
extensions ask for. -/
namespace FixedForm.Harvest
open FixedForm.Path (IsName absolute ofNames)
variable {keep : Text → Bool}

/-- The names of a source in the entry `n` of a folder. -/
inductive Kept (keep : Text → Bool) (above : List Text) (n : Text) : List Text → Prop where
  | below (rest : List Text) (names : ∀ m ∈ n :: rest, IsName m)
      (kept : keep ((n :: rest).getLast (List.cons_ne_nil n rest)) = true) :
      Kept keep above n (above ++ n :: rest)

theorem Kept.of_folder {above ns : List Text} {name n : Text} (hn : IsName name)
    (h : Kept keep (above ++ [name]) n ns) : Kept keep above name ns := by
  cases h with
  | below rest hnames hkept =>
    rw [List.append_assoc]
    refine .below (n :: rest) (fun m hm => ?_) ?_
    · rcases List.mem_cons.1 hm with rfl | hm
      · exact hn
      · exact hnames m hm
    · rwa [List.getLast_cons]

theorem Kept.name_inj {above ns : List Text} {m n : Text} (hm : Kept keep above m ns)
    (hn : Kept keep above n ns) : m = n := by
  have hget {k : Text} (h : Kept keep above k ns) : ns[above.length]? = some k := by
    obtain ⟨rest, -, -⟩ := h
    simp
  exact Option.some.inj ((hget hm).symm.trans (hget hn))

mutual

theorem kept_entry (ignored : Text → Bool) (keep : Text → Bool) (above : List Text) :
    ∀ {e : Tree}, IsName e.name → e.Sound →
    (∀ ns ∈ entry ignored keep above e, Kept keep above e.name ns) ∧ (entry ignored keep above e).Nodup
  | .file name content, hn, _ => by
    rw [entry]
    split
    · next hk =>
      refine ⟨fun ns hns => ?_, by simp⟩
      rw [List.mem_singleton.1 hns]
      refine .below [] (fun m hm => List.mem_singleton.1 hm ▸ hn) ?_
      exact (Bool.and_eq_true_iff.1 hk).2
    · exact ⟨by simp, List.nodup_nil⟩
  | .folder name es, hn, hs => by
    rw [entry]
    split
    · exact ⟨by simp, List.nodup_nil⟩
    · cases hs with
      | folder _ _ hnames hdistinct hsound =>
        obtain ⟨hkept, hnodup⟩ := kept_entries ignored keep (above ++ [name]) hnames hdistinct hsound
        refine ⟨fun ns hns => ?_, hnodup⟩
        obtain ⟨e, -, h⟩ := hkept ns hns
        exact h.of_folder hn

theorem kept_entries (ignored : Text → Bool) (keep : Text → Bool) (above : List Text) :
    ∀ {es : List Tree}, (∀ e ∈ es, IsName e.name) → (es.map Tree.name).Nodup → (∀ e ∈ es, e.Sound) →
    (∀ ns ∈ entries ignored keep above es, ∃ e ∈ es, Kept keep above e.name ns) ∧
      (entries ignored keep above es).Nodup
  | [], _, _, _ => ⟨by simp [entries], by simp [entries]⟩
  | e :: es, hnames, hdistinct, hsound => by
    obtain ⟨hne, hdistinct⟩ := List.nodup_cons.1 hdistinct
    obtain ⟨hfirst, hnodup⟩ := kept_entry ignored keep above (hnames e (by simp)) (hsound e (by simp))
    obtain ⟨hrest, hnodup'⟩ := kept_entries ignored keep above (fun f hf => hnames f (by simp [hf])) hdistinct
      fun f hf => hsound f (by simp [hf])
    rw [entries]
    refine ⟨fun ns hns => ?_, List.nodup_append.2 ⟨hnodup, hnodup', fun ns hns ms hms => ?_⟩⟩
    · rcases List.mem_append.1 hns with h | h
      · exact ⟨e, by simp, hfirst ns h⟩
      · obtain ⟨f, hf, hk⟩ := hrest ns h
        exact ⟨f, by simp [hf], hk⟩
    · rintro rfl
      obtain ⟨f, hf, hk⟩ := hrest ns hms
      exact hne (List.mem_map.2 ⟨f, hf, (hk.name_inj (hfirst ns hns))⟩)

end

/-- The path of a source below a folder, from the names of the folders between and from its own. -/
structure IsSource (top : Text) (extensions : List Text) (folders : List Text) (name p : Text) : Prop where
  names : ∀ n ∈ folders ++ [name], IsName n
  kept : (Path.extension name).lower ∈ extensions
  path_eq : p = Path.join top (ofNames (folders ++ [name]))

/-- A file has one of the extensions. -/
def asks (extensions : List Text) (name : Text) : Bool := extensions.contains (Path.extension name).lower

theorem isSource_of_kept (top : Text) {extensions ns : List Text} {n : Text}
    (h : Kept (asks extensions) [] n ns) :
    (ns ≠ [] ∧ ∀ m ∈ ns, IsName m) ∧
      ∃ folders name, IsSource top extensions folders name (Path.join top (ofNames ns)) := by
  obtain ⟨rest, hnames, hkept⟩ := h
  have hconcat := List.dropLast_concat_getLast (List.cons_ne_nil n rest)
  refine ⟨⟨List.cons_ne_nil n rest, hnames⟩, (n :: rest).dropLast, _, ?_, by simpa [asks] using hkept, ?_⟩
  · rwa [hconcat]
  · rw [hconcat]
    rfl

section Gather
variable {ignored : Text → Bool} {t : Tree} {top : Text} {extensions files : List Text} {es : List Tree}

theorem gather_eq (h : t.list top = .ok es) : gather ignored t top extensions =
    .ok (((entries ignored (asks extensions) [] es).map fun ns => Path.join top (ofNames ns)).mergeSort
      Text.le) := by
  rw [gather, h]
  rfl

theorem list_of_gather (h : gather ignored t top extensions = .ok files) : ∃ es, t.list top = .ok es := by
  cases hes : t.list top with
  | error reason =>
    rw [gather, hes] at h
    cases h
  | ok es => exact ⟨es, rfl⟩

/-- All sources are different, and each one has a name that the extensions ask for. -/
theorem gather_spec (ht : t.IsSystem) (h : gather ignored t top extensions = .ok files) :
    files.Nodup ∧ ∀ p ∈ files, ∃ folders name, IsSource top extensions folders name p := by
  obtain ⟨es, hes⟩ := list_of_gather h
  obtain rfl := Except.ok.inj ((gather_eq hes).symm.trans h)
  obtain ⟨name, hsound⟩ := ht.list hes
  cases hsound with
  | folder _ _ hnames hdistinct hsound =>
    obtain ⟨hkept, hnodup⟩ := kept_entries ignored (asks extensions) [] hnames hdistinct hsound
    generalize entries ignored (asks extensions) [] es = found at hkept hnodup
    have hsource (ns : List Text) (hns : ns ∈ found) : (ns ≠ [] ∧ ∀ m ∈ ns, IsName m) ∧
        ∃ folders name, IsSource top extensions folders name (Path.join top (ofNames ns)) := by
      obtain ⟨e, -, hk⟩ := hkept ns hns
      exact isSource_of_kept top hk
    refine ⟨(List.mergeSort_perm _ _).nodup_iff.2 (List.Nodup.map_on ?_ hnodup), fun p hp => ?_⟩
    · intro ns hns ms hms he
      obtain ⟨hn, -⟩ := hsource ns hns
      obtain ⟨hm, -⟩ := hsource ms hms
      have habsolute := congrArg absolute he
      rw [Path.absolute_join hn.1 hn.2, Path.absolute_join hm.1 hm.2] at habsolute
      exact List.append_cancel_left habsolute
    · obtain ⟨ns, hns, rfl⟩ := List.mem_map.1 ((List.mergeSort_perm _ _).mem_iff.1 hp)
      exact (hsource ns hns).2

end Gather

theorem collectBy_spec {reader : PatternReader} {t : Tree} {top : Text} {o : HarvestOptions}
    {files : List Text} (ht : t.IsSystem) (h : collectBy reader t top o = .ok files) :
    files.Nodup ∧ ∀ p ∈ files, ∃ folders name, IsSource top o.extensions folders name p := by
  rw [collectBy] at h
  split at h
  · cases h
  · split at h
    · cases h
    · exact gather_spec ht h

end FixedForm.Harvest
