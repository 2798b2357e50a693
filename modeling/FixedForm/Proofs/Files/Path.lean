import FixedForm.Files.Path
import Mathlib.Data.List.Basic

/-! Paths and their names.  Every path stands for names that are worked out, and those names make up a path
that stands for them.  Replacing an extension is a matter of the last name. -/
namespace FixedForm

namespace Text
variable {c : Char} {t : Text}

theorem splitOn_of_not_mem (h : c ∉ t) : splitOn c t = [t] := by
  induction t with
  | nil => rfl
  | cons d t ih =>
    obtain ⟨hd, ht⟩ := not_or.1 (List.mem_cons.not.1 h)
    rw [splitOn, if_neg (by simpa using Ne.symm hd), ih ht]

theorem splitOn_append (h : c ∉ t) (u : Text) : splitOn c (t ++ c :: u) = t :: splitOn c u := by
  induction t with
  | nil => simp [splitOn]
  | cons d t ih =>
    obtain ⟨hd, ht⟩ := not_or.1 (List.mem_cons.not.1 h)
    rw [List.cons_append, splitOn, if_neg (by simpa using Ne.symm hd), ih ht]

theorem splitOn_join {parts : List Text} (hne : parts ≠ []) (h : ∀ t ∈ parts, c ∉ t) :
    splitOn c (join [c] parts) = parts := by
  induction parts with
  | nil => exact absurd rfl hne
  | cons t parts ih =>
    have ht := h t List.mem_cons_self
    cases parts with
    | nil =>
      rw [join, List.intercalate_singleton]
      exact splitOn_of_not_mem ht
    | cons u parts =>
      have hrest := ih (List.cons_ne_nil u parts) fun v hv => h v (List.mem_cons_of_mem t hv)
      rw [join, List.intercalate_cons_cons, List.append_assoc]
      exact (splitOn_append ht _).trans (congrArg (t :: ·) hrest)

theorem not_mem_of_mem_splitOn {piece : Text} (h : piece ∈ splitOn c t) : c ∉ piece := by
  induction t generalizing piece with
  | nil => simp [List.mem_singleton.1 h]
  | cons d t ih =>
    rw [splitOn] at h
    split at h
    · rcases List.mem_cons.1 h with rfl | h
      · simp
      · exact ih h
    · next hd =>
      have hd : c ≠ d := by simpa using Ne.symm (by simpa using hd)
      split at h
      · rw [List.mem_singleton.1 h]
        simpa using hd
      · next first rest hs =>
        rcases List.mem_cons.1 h with rfl | h
        · exact List.mem_cons.not.2 (not_or.2 ⟨hd, ih (hs ▸ List.mem_cons_self)⟩)
        · exact ih (hs ▸ List.mem_cons_of_mem _ h)

end Text

namespace Path

/-- The name of an entry: not empty, without a slash, and not one of the names that stand for the folder
itself and for the folder above. -/
structure IsName (n : Text) : Prop where
  nonempty : n ≠ []
  slash : '/' ∉ n
  point : n ≠ "."
  points : n ≠ ".."

instance (n : Text) : Decidable (IsName n) :=
  decidable_of_iff (n ≠ [] ∧ '/' ∉ n ∧ n ≠ "." ∧ n ≠ "..")
    ⟨fun ⟨hn, hs, hp, hps⟩ => ⟨hn, hs, hp, hps⟩, fun ⟨hn, hs, hp, hps⟩ => ⟨hn, hs, hp, hps⟩⟩

/-- The names of a path that are worked out: behind the root, or behind some folders above the working
folder, names of entries. -/
inductive IsNormal : List Text → Prop where
  | rooted (ns : List Text) (hns : ∀ n ∈ ns, IsName n) : IsNormal ([] :: ns)
  | relative (k : Nat) (ns : List Text) (hns : ∀ n ∈ ns, IsName n) :
      IsNormal (List.replicate k "..".toList ++ ns)

theorem IsNormal.append {ns names : List Text} (h : IsNormal ns) (hn : ∀ n ∈ names, IsName n) :
    IsNormal (ns ++ names) := by
  cases h with
  | rooted ns hns => exact .rooted (ns ++ names) (List.forall_mem_append.2 ⟨hns, hn⟩)
  | relative k ns hns =>
    rw [List.append_assoc]
    exact .relative k (ns ++ names) (List.forall_mem_append.2 ⟨hns, hn⟩)

theorem up_concat (folder : List Text) {n : Text} (hn : IsName n) : up (folder ++ [n]) = folder := by
  have hroot : ¬ (folder ++ [n] == [[]]) = true := by
    intro he
    have hlast := congrArg List.getLast? (eq_of_beq he)
    rw [List.getLast?_concat] at hlast
    exact hn.nonempty (Option.some.inj hlast)
  rw [up, if_neg hroot, if_neg (by simpa using hn.points), List.dropLast_concat]

theorem up_replicate (k : Nat) : up (List.replicate k "..".toList) = List.replicate (k + 1) "..".toList := by
  rw [up, if_neg (by cases k <;> simp [List.replicate_succ]),
    if_pos (by cases k <;> simp [List.getLast?_replicate]), List.replicate_succ']

theorem IsNormal.up {ns : List Text} (h : IsNormal ns) : IsNormal (up ns) := by
  cases h with
  | rooted ns hns =>
    rcases List.eq_nil_or_concat ns with rfl | ⟨above, n, rfl⟩
    · exact .rooted [] (by simp)
    · rw [List.concat_eq_append, List.forall_mem_append] at hns
      rw [List.concat_eq_append, ← List.cons_append, up_concat _ (hns.2 n (by simp))]
      exact .rooted above hns.1
  | relative k ns hns =>
    rcases List.eq_nil_or_concat ns with rfl | ⟨above, n, rfl⟩
    · rw [List.append_nil, up_replicate]
      simpa using IsNormal.relative (k + 1) [] (by simp)
    · rw [List.concat_eq_append, List.forall_mem_append] at hns
      rw [List.concat_eq_append, ← List.append_assoc, up_concat _ (hns.2 n (by simp))]
      exact .relative k above hns.1

theorem follow_names (folder : List Text) {ns : List Text} (h : ∀ n ∈ ns, IsName n) :
    follow folder ns = folder ++ ns := by
  induction ns generalizing folder with
  | nil => simp [follow]
  | cons n ns ih =>
    have hn := h n List.mem_cons_self
    have hplain : ¬ (n.isEmpty || n == ".".toList) = true := by
      rw [Bool.or_eq_true, not_or, List.isEmpty_iff, beq_iff_eq]
      exact ⟨hn.nonempty, hn.point⟩
    rw [follow, if_neg hplain, if_neg (by simpa only [beq_iff_eq] using hn.points),
      ih _ fun m hm => h m (List.mem_cons_of_mem n hm), List.append_assoc]
    rfl

theorem isNormal_follow {folder : List Text} (h : IsNormal folder) {ns : List Text}
    (hns : ∀ n ∈ ns, '/' ∉ n) : IsNormal (follow folder ns) := by
  induction ns generalizing folder with
  | nil => exact h
  | cons n ns ih =>
    have hrest : ∀ m ∈ ns, '/' ∉ m := fun m hm => hns m (List.mem_cons_of_mem n hm)
    rw [follow]
    split
    · exact ih h hrest
    · next hplain =>
      split
      · exact ih h.up hrest
      · next habove =>
        have hplain : ¬ (n = [] ∨ n = ".".toList) := by simpa using hplain
        refine ih (h.append fun m hm => ?_) hrest
        rw [List.mem_singleton.1 hm]
        exact ⟨fun h => hplain (.inl h), hns n List.mem_cons_self, fun h => hplain (.inr h),
          by simpa using habove⟩

theorem isNormal_absolute (p : Text) : IsNormal (absolute p) := by
  refine isNormal_follow ?_ fun n hn => Text.not_mem_of_mem_splitOn hn
  split
  · exact .rooted [] (by simp)
  · exact .relative 0 [] (by simp)

theorem follow_replicate (k j : Nat) (ns : List Text) :
    follow (List.replicate j "..".toList) (List.replicate k "..".toList ++ ns) =
      follow (List.replicate (j + k) "..".toList) ns := by
  induction k generalizing j with
  | zero => rfl
  | succ k ih =>
    rw [List.replicate_succ, List.cons_append, follow, if_neg (by simp), if_pos (by simp), up_replicate, ih,
      Nat.add_assoc, Nat.add_comm 1 k]

theorem ofNames_eq_join {ns : List Text} (h : ns ≠ [[]]) : ofNames ns = Text.join "/" ns := by
  rw [ofNames, if_neg (by simpa using h)]

/-- The names of a path below some folder. -/
theorem names_ofNames {ns : List Text} (hne : ns ≠ []) (hroot : ns ≠ [[]]) (h : ∀ n ∈ ns, '/' ∉ n) :
    names (ofNames ns) = ns := by
  rw [ofNames_eq_join hroot]
  exact Text.splitOn_join hne h

theorem startsWith_join {n : Text} (hn : n ≠ []) (hs : '/' ∉ n) (ns : List Text) :
    Text.startsWith "/" (Text.join "/" (n :: ns)) = false := by
  obtain ⟨c, n, rfl⟩ := List.exists_cons_of_ne_nil hn
  have hc : c ≠ '/' := fun he => hs (he ▸ List.mem_cons_self)
  cases ns <;> simp [Text.startsWith, Text.after?, Text.join, List.intercalate_cons_cons, hc]

theorem absolute_ofNames {ns : List Text} (h : IsNormal ns) : absolute (ofNames ns) = ns := by
  cases h with
  | rooted ns hns =>
    cases ns with
    | nil => decide
    | cons n ns =>
      have hnames : names (ofNames ([] :: n :: ns)) = [] :: n :: ns :=
        names_ofNames (by simp) (by simp) (List.forall_mem_cons.2 ⟨by simp, fun m hm => (hns m hm).slash⟩)
      have hroot : Text.startsWith "/" (ofNames ([] :: n :: ns)) = true := by
        rw [ofNames_eq_join (by simp)]
        simp [Text.startsWith, Text.after?, Text.join, List.intercalate_cons_cons]
      rw [absolute, hroot, hnames, follow]
      exact follow_names [[]] hns
  | relative k ns hns =>
    have hall : ∀ n ∈ List.replicate k "..".toList ++ ns, n ≠ [] ∧ '/' ∉ n := by
      refine List.forall_mem_append.2 ⟨fun n hn => ?_, fun n hn => ⟨(hns n hn).nonempty, (hns n hn).slash⟩⟩
      rw [List.eq_of_mem_replicate hn]
      decide
    have hfollow : follow [] (List.replicate k "..".toList ++ ns) = List.replicate k "..".toList ++ ns := by
      refine (follow_replicate k 0 ns).trans ?_
      rw [Nat.zero_add, follow_names _ hns]
    generalize List.replicate k "..".toList ++ ns = ms at hall hfollow
    cases ms with
    | nil => decide
    | cons n ms =>
      obtain ⟨⟨hn, hs⟩, -⟩ := List.forall_mem_cons.1 hall
      have hplain : n :: ms ≠ [[]] := fun he => hn (List.cons.inj he).1
      have hnames := names_ofNames (List.cons_ne_nil n ms) hplain fun m hm => (hall m hm).2
      rw [absolute, hnames, ofNames_eq_join hplain, startsWith_join hn hs]
      exact hfollow

theorem ofNames_inj {ns ns' : List Text} (h : IsNormal ns) (h' : IsNormal ns') :
    ofNames ns = ofNames ns' ↔ ns = ns' := by
  refine ⟨fun he => ?_, fun he => by rw [he]⟩
  rw [← absolute_ofNames h, he, absolute_ofNames h']

/-- A path that is worked out. -/
def IsPlain (p : Text) : Prop := ofNames (absolute p) = p

theorem isPlain_ofNames {ns : List Text} (h : IsNormal ns) : IsPlain (ofNames ns) := by
  rw [IsPlain, absolute_ofNames h]

theorem IsPlain.eq {p q : Text} (hp : IsPlain p) (hq : IsPlain q) (h : absolute p = absolute q) : p = q := by
  rw [← hp, h, hq]

/-- What stands before the last name of a path. -/
def lead (folders : List Text) : Text := folders.flatMap fun n => n ++ "/"

theorem lead_ends (folders : List Text) : lead folders = [] ∨ (lead folders).getLast? = some '/' := by
  rcases List.eq_nil_or_concat folders with rfl | ⟨above, n, rfl⟩
  · exact .inl rfl
  · right
    rw [lead, List.concat_eq_append, List.flatMap_append, List.flatMap_singleton, ← List.append_assoc]
    exact List.getLast?_concat

theorem ofNames_concat (folders : List Text) {n : Text} (hn : n ≠ []) :
    ofNames (folders ++ [n]) = lead folders ++ n := by
  have hjoin : Text.join "/" (folders ++ [n]) = lead folders ++ n := by
    induction folders with
    | nil => simp [Text.join, lead]
    | cons m folders ih =>
      rw [Text.join] at ih ⊢
      cases folders with
      | nil => simp [lead, List.intercalate_cons_cons]
      | cons k folders =>
        rw [List.cons_append, List.cons_append, List.intercalate_cons_cons, ← List.cons_append, ih]
        simp [lead]
  rw [ofNames_eq_join, hjoin]
  intro he
  have hlast := congrArg List.getLast? he
  rw [List.getLast?_concat] at hlast
  exact hn (Option.some.inj hlast)

theorem getLast?_ofNames (folders : List Text) {n : Text} (hn : n ≠ []) (hs : '/' ∉ n) :
    (ofNames (folders ++ [n])).getLast? ≠ some '/' := by
  rw [ofNames_concat folders hn, List.getLast?_append, List.getLast?_eq_some_getLast hn, Option.some_or]
  exact fun h => hs (Option.some.inj h ▸ List.getLast_mem hn)

section Below
variable {ns : List Text} (hne : ns ≠ []) (hns : ∀ n ∈ ns, IsName n)
include hne hns

/-- The path of some names below a folder. -/
theorem join_ofNames (folder : Text) : join folder (ofNames ns) = ofNames (absolute folder ++ ns) := by
  obtain ⟨above, n, rfl⟩ := (List.eq_nil_or_concat ns).resolve_left hne
  rw [List.concat_eq_append] at hns ⊢
  have hn := hns n (by simp)
  have hlast (folders : List Text) := getLast?_ofNames folders hn.nonempty hn.slash
  have hfull (folders : List Text) : (ofNames (folders ++ [n])).isEmpty = false := by
    rw [ofNames_concat folders hn.nonempty]
    simp [hn.nonempty]
  have hjoined : (if folder.isEmpty then absolute (ofNames (above ++ [n]))
      else follow (absolute folder) (names (ofNames (above ++ [n])))) = absolute folder ++ (above ++ [n]) := by
    split
    · next he =>
      rw [List.isEmpty_iff.1 he]
      exact absolute_ofNames (.relative 0 _ hns)
    · have hroot : above ++ [n] ≠ [[]] := fun he => (hns [] (by simp [he])).nonempty rfl
      rw [names_ofNames (by simp) hroot fun m hm => (hns m hm).slash, follow_names _ hns]
  simp only [join, hjoined, ← List.append_assoc, hfull]
  simp [hlast above]

theorem absolute_join (folder : Text) : absolute (join folder (ofNames ns)) = absolute folder ++ ns := by
  rw [join_ofNames hne hns, absolute_ofNames ((isNormal_absolute folder).append hns)]

theorem relative_join (folder : Text) : relative folder (join folder (ofNames ns)) = ofNames ns := by
  rw [relative, absolute_join hne hns, List.drop_left]

end Below

/-- Letters of an extension. -/
def isExtensionLetter (c : Char) : Bool := c != '.' && c != '/' && c != '\\'

/-- `p` up to its last point, if letters of an extension follow. -/
def stem? (p : Text) : Option Text :=
  let (before, letters) := p.spanEnd isExtensionLetter
  if before.getLast? == some '.' && !letters.isEmpty then some before.dropLast else none

theorem withExtension_eq (new p : Text) :
    withExtension new p = ((stem? p).map fun s => s ++ "." ++ new).getD p := by
  simp only [withExtension, stem?]
  delta isExtensionLetter
  split <;> rfl

theorem spanEnd_run {q : Char → Bool} {t letters : Text} {c : Char} (hc : q c = false)
    (hl : ∀ d ∈ letters, q d = true) : Text.spanEnd q (t ++ [c] ++ letters) = (t ++ [c], letters) := by
  have hl : ∀ d ∈ letters.reverse, q d = true := fun d hd => hl d (List.mem_reverse.1 hd)
  simp only [Text.spanEnd, List.reverse_append, List.dropWhile_append_of_pos hl,
    List.takeWhile_append_of_pos hl]
  simp [hc]

theorem stem?_eq_some_iff {p s : Text} : stem? p = some s ↔
    ∃ letters : Text, letters ≠ [] ∧ (∀ c ∈ letters, isExtensionLetter c = true) ∧ p = s ++ "." ++ letters := by
  constructor
  · intro h
    have hsplit := Text.spanEnd_append isExtensionLetter p
    have hletters : ∀ c ∈ (Text.spanEnd isExtensionLetter p).2, isExtensionLetter c = true :=
      fun c hc => List.all_eq_true.1 List.all_takeWhile c (List.mem_reverse.1 hc)
    simp only [stem?] at h
    generalize Text.spanEnd isExtensionLetter p = e at hsplit hletters h
    split at h
    · next hpoint =>
      simp only [Bool.and_eq_true, beq_iff_eq, Bool.not_eq_true', List.isEmpty_eq_false_iff] at hpoint
      obtain ⟨before, hbefore⟩ := List.getLast?_eq_some_iff.1 hpoint.1
      refine ⟨e.2, hpoint.2, hletters, ?_⟩
      rw [← hsplit, ← Option.some.inj h, hbefore, List.dropLast_concat]
      rfl
    · cases h
  · rintro ⟨letters, hne, hl, rfl⟩
    have hsplit : Text.spanEnd isExtensionLetter (s ++ "." ++ letters) = (s ++ ".", letters) :=
      spanEnd_run (c := '.') (by decide) hl
    rw [stem?, hsplit]
    simp [hne]

/-- Letters after a point are an extension, unless the name starts with the point. -/
theorem extension_point (s : Text) {letters : Text} (hne : letters ≠ [])
    (hl : ∀ c ∈ letters, isExtensionLetter c = true) :
    extension (s ++ "." ++ letters) = if s = [] then [] else '.' :: letters := by
  have hpoint : ∀ c ∈ letters, (c != '.') = true := fun c hc => by
    have h := hl c hc
    simp only [isExtensionLetter, Bool.and_eq_true] at h
    exact h.1.1
  have hspan : Text.spanEnd (· != '.') (s ++ "." ++ letters) = (s ++ ".", letters) :=
    spanEnd_run (c := '.') (by decide) hpoint
  have hnot : (s ++ "." ++ letters == "..".toList) = false := by
    rw [beq_eq_false_iff_ne]
    intro he
    obtain ⟨c, hc⟩ := List.exists_mem_of_ne_nil _ hne
    have hmem : c ∈ "..".toList := he ▸ List.mem_append_right _ hc
    have hdot : c = '.' := by simpa using hmem
    exact absurd (hpoint c hc) (by simp [hdot])
  simp only [extension, hspan, hnot]
  cases s with
  | nil => rfl
  | cons c s => simp

/-- Two paths with replaced extensions are the same only if the paths are, or if they differ in their
extensions only. -/
theorem withExtension_inj {new p q : Text} (hne : new ≠ []) (hnew : ∀ c ∈ new, isExtensionLetter c = true) :
    withExtension new p = withExtension new q ↔ p = q ∨ ∃ s, stem? p = some s ∧ stem? q = some s := by
  have hstem (s : Text) : stem? (s ++ "." ++ new) = some s := stem?_eq_some_iff.2 ⟨new, hne, hnew, rfl⟩
  have hbare {p : Text} (hp : stem? p = none) (s : Text) : p ≠ s ++ "." ++ new := by
    rintro rfl
    rw [hstem] at hp
    cases hp
  rw [withExtension_eq, withExtension_eq]
  cases hp : stem? p with
  | none =>
    cases hq : stem? q with
    | none => simp
    | some s =>
      have hpq : p ≠ q := by
        rintro rfl
        simp [hp] at hq
      simpa [hpq] using hbare hp s
  | some r =>
    cases hq : stem? q with
    | none =>
      have hpq : p ≠ q := by
        rintro rfl
        simp [hp] at hq
      simpa [hpq] using (hbare hq r).symm
    | some s =>
      constructor
      · intro he
        have hrs : r = s := List.append_cancel_right (List.append_cancel_right he)
        exact .inr ⟨r, rfl, by rw [hrs]⟩
      · rintro (rfl | ⟨x, hr, hs⟩)
        · rw [hp] at hq
          rw [Option.some.inj hq]
        · rw [Option.some.inj hr, Option.some.inj hs]
          rfl

/-- The extension is that of the last name. -/
theorem stem?_lead {t : Text} (ht : t = [] ∨ t.getLast? = some '/') (n : Text) :
    stem? (t ++ n) = (stem? n).map (t ++ ·) := by
  ext s
  rw [Option.map_eq_some_iff]
  constructor
  · intro h
    obtain ⟨letters, hne, hl, he⟩ := stem?_eq_some_iff.1 h
    rw [List.append_assoc] at he
    rcases List.append_eq_append_iff.1 he with ⟨s', rfl, hn⟩ | ⟨u, rfl, hu⟩
    · exact ⟨s', stem?_eq_some_iff.2 ⟨letters, hne, hl, by rw [hn, List.append_assoc]⟩, rfl⟩
    · -- the folders would end within the extension, and so not with a slash
      rcases List.eq_nil_or_concat u with rfl | ⟨v, c, rfl⟩
      · exact ⟨[], stem?_eq_some_iff.2 ⟨letters, hne, hl, by simpa using hu.symm⟩, by simp⟩
      · rw [List.concat_eq_append] at ht hu
        have hc : c = '/' := by
          rcases ht with ht | ht
          · simp at ht
          · rw [← List.append_assoc, List.getLast?_concat] at ht
            exact Option.some.inj ht
        have hmem : '/' ∈ ("." ++ letters : Text) := by
          rw [hu, hc]
          simp
        rcases List.mem_cons.1 hmem with h | h
        · exact absurd h (by decide)
        · exact absurd (hl _ h) (by decide)
  · rintro ⟨s', hs, rfl⟩
    obtain ⟨letters, hne, hl, rfl⟩ := stem?_eq_some_iff.1 hs
    exact stem?_eq_some_iff.2 ⟨letters, hne, hl, by simp only [List.append_assoc]⟩

theorem withExtension_lead {t : Text} (ht : t = [] ∨ t.getLast? = some '/') (new n : Text) :
    withExtension new (t ++ n) = t ++ withExtension new n := by
  rw [withExtension_eq, withExtension_eq, stem?_lead ht]
  cases stem? n with
  | none => rfl
  | some s => simp only [Option.map_some, Option.getD_some, List.append_assoc]

theorem isName_withExtension {n new : Text} (hn : IsName n) (hne : new ≠ [])
    (hnew : ∀ c ∈ new, isExtensionLetter c = true) : IsName (withExtension new n) := by
  rw [withExtension_eq]
  cases hs : stem? n with
  | none => exact hn
  | some s =>
    obtain ⟨letters, -, -, rfl⟩ := stem?_eq_some_iff.1 hs
    have hslash : '/' ∉ s ++ "." ++ new := by
      have := hn.slash
      simp only [List.mem_append, not_or] at this ⊢
      exact ⟨this.1, fun h => absurd (hnew _ h) (by decide)⟩
    have hlast (t : Text) (ht : ∀ c ∈ t, isExtensionLetter c = false) : s ++ "." ++ new ≠ t := by
      rintro rfl
      have hletter := ht _ (List.mem_append_right _ (List.getLast_mem hne))
      rw [hnew _ (List.getLast_mem hne)] at hletter
      cases hletter
    exact ⟨hlast [] (by simp), hslash, hlast "." (by simp [isExtensionLetter]),
      hlast ".." (by simp [isExtensionLetter])⟩

/-- The path with a replaced extension has the same folders. -/
theorem withExtension_ofNames (folders : List Text) {n new : Text} (hn : IsName n) (hne : new ≠ [])
    (hnew : ∀ c ∈ new, isExtensionLetter c = true) :
    withExtension new (ofNames (folders ++ [n])) = ofNames (folders ++ [withExtension new n]) := by
  rw [ofNames_concat folders hn.nonempty, withExtension_lead (lead_ends folders),
    ofNames_concat folders (isName_withExtension hn hne hnew).nonempty]

end Path

end FixedForm
