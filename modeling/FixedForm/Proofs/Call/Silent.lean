import FixedForm.Proofs.Call.Requote
import FixedForm.Proofs.Call.Resolved
import FixedForm.Proofs.Call.Search

/-! Literals that say nothing to the resolution of calls.  Sites are looked for in the whole text of a
line, and arguments are divided at the commas of their literals too.  Where the literals of a line hold
none of what is looked for, nothing that is known or left of the unit depends on them. -/
namespace FixedForm
open Text (Alike)

/-- Contents of a literal that neither hold a call or a reference nor end an argument. -/
@[mk_iff]
structure Inert (symbols : SymbolTable) (x : Text) : Prop where
  item : Text.NestedItem x
  oneLine : x.hasLineEnd = false
  noCall : CallSite.findCall? [] x = none
  noReference : ∀ r ∈ CallSite.parenWords x, symbols.isCallable r.1 = false

instance (symbols : SymbolTable) (x : Text) : Decidable (Inert symbols x) :=
  decidable_of_iff' _ (inert_iff symbols x)

/-- Contents without quotes. -/
def Unquoted (_ : Char) (x y : Text) : Prop := (∀ c ∈ x, isQuote c = false) ∧ ∀ c ∈ y, isQuote c = false

/-- Inert contents without quotes. -/
def Mute (symbols : SymbolTable) (q : Char) (x y : Text) : Prop :=
  Unquoted q x y ∧ Inert symbols x ∧ Inert symbols y

theorem Mute.bare {symbols : SymbolTable} {q : Char} {x y : Text} (h : Mute symbols q x y) :
    Quote.Bare x ∧ Quote.Bare y := by
  have hbare {x : Text} (hx : ∀ c ∈ x, isQuote c = false) (hi : Inert symbols x) : Quote.Bare x :=
    ⟨⟨hi.item, hi.oneLine, fun hc => by simpa [isQuote] using hx _ hc⟩,
      fun hc => by simpa [isQuote] using hx _ hc⟩
  exact ⟨hbare h.1.1 h.2.1, hbare h.1.2 h.2.2⟩

namespace CallSite
open Quote (Doubled)
variable {symbols : SymbolTable} {t t' : Text}

/-- Sites of one name on one line, with arguments that are alike. -/
structure Similar (site site' : CallSite) : Prop where
  name : site.name = site'.name
  args : List.Forall₂ (Alike Doubled) site.args site'.args
  line : site.line = site'.line

theorem arguments_alike (h : Alike (Mute symbols) t t') (ht : Text.startsWith "(" t = true) :
    List.Forall₂ (Alike Doubled) (arguments t) (arguments t') := by
  have hinside := inside_alike (fun _ _ _ hm => ⟨hm.2.1.item.nested, hm.2.2.item.nested⟩) h ht
  have hdouble := Quote.toDouble_alike (fun _ _ _ hm => hm.bare) hinside
  rw [arguments_eq, arguments_eq, Argument.split, Argument.split, hdouble.allBlank_eq]
  split
  · exact .nil
  · exact hdouble.listItems fun _ _ _ hd => ⟨hd.2.1.item, hd.2.2.item⟩

/-- The name of a call is a word. -/
theorem findCall?_name {before t : Text} {r : Text × Text × Text} (h : findCall? before t = some r) :
    ∀ c ∈ r.2.1, isWord c = true := by
  induction t generalizing before with
  | nil => cases h
  | cons c t ih =>
    rw [findCall?_cons] at h
    split at h
    · next name rest hhere =>
      cases h
      split at hhere
      · simp only [callHere?, Option.bind_eq_bind, Option.bind_eq_some_iff] at hhere
        obtain ⟨u, -, v, -, w, hw, he⟩ := hhere
        cases he
        exact (Text.eq_of_word? hw).2.2
      · cases hhere
    · exact ih h

theorem parenWords_name {t : Text} {r : Text × Text} (h : r ∈ parenWords t) :
    ∀ c ∈ r.1, isWord c = true := by
  fun_induction parenWords t with
  | case1 => cases h
  | case2 c t hc after group rest hstart ih =>
    rcases List.mem_cons.1 h with rfl | h
    · exact List.forall_mem_cons.2 ⟨hc, List.all_eq_true.1 List.all_takeWhile⟩
    · exact ih h
  | case3 c t hc after group rest hstart ih => exact ih h
  | case4 c t hc ih => exact ih h

theorem dropCall?_alike (h : Alike (Mute symbols) t t') (line : Nat) :
    Option.Rel (fun r r' => Alike (Mute symbols) r.1 r'.1 ∧ Similar r.2 r'.2) (dropCall? line t)
      (dropCall? line t') := by
  have hnone (q : Char) (x y : Text) (hm : Mute symbols q x y) :=
    And.intro hm.2.1.noCall hm.2.2.noCall
  have hfind : Option.Rel _ (findCall? [] t) (findCall? [] t') := findCall?_alike hnone h .nil rfl
  have hname {r : Text × Text × Text} (hr : findCall? [] t = some r) :=
    findCall?_name hr
  rw [dropCall?, dropCall?]
  generalize findCall? [] t = o at hfind hname ⊢
  generalize findCall? [] t' = o' at hfind ⊢
  cases hfind with
  | none => exact .none
  | @some r r' hr =>
    obtain ⟨before, name, after⟩ := r
    obtain ⟨before', name', after'⟩ := r'
    obtain ⟨hbefore, rfl, hafter⟩ := hr
    have hfront := hbefore.append (.of_free fun c hc => Text.not_quote_of_word (hname rfl c hc))
    have hstart : Text.startsWith "(" after = Text.startsWith "(" after' :=
      hafter.startsWith (Text.not_quote_of_all rfl)
    simp only [Option.map_some, ← hstart]
    split
    · next hs => exact .some ⟨hfront.append hafter, rfl, arguments_alike hafter hs, rfl⟩
    · exact .some ⟨(hfront.append (.of_free (Text.not_quote_of_all rfl))).append hafter, rfl, .nil, rfl⟩

theorem references_alike (h : Alike (Mute symbols) t t') (line : Nat) :
    List.Forall₂ Similar (references symbols line t) (references symbols line t') := by
  rw [references, references, List.forall₂_map_left_iff, List.forall₂_map_right_iff]
  refine (parenWords_alike (p := symbols.isCallable) (fun _ _ _ hm => ?_) h).imp fun r r' hr => ?_
  · exact ⟨hm.2.1.noReference, hm.2.2.noReference⟩
  · exact ⟨hr.1, arguments_alike hr.2.2 hr.2.1, rfl⟩

end CallSite

namespace Resolution
open Demand
variable {symbols : SymbolTable}

/-- The literals of a line hold nothing that is looked for, and decide on the type of an argument only
where they are all of it. -/
@[mk_iff]
structure Silent (symbols : SymbolTable) (l : Line) : Prop where
  inert : ∀ x ∈ l.text.contents, Inert symbols x
  calls : ∀ r ∈ lineCall? l, ∀ arg ∈ r.2.args, Argument.IsSettled symbols arg
  references : ∀ site ∈ lineReferences symbols l, ∀ arg ∈ site.args, Argument.IsSettled symbols arg

instance (symbols : SymbolTable) (l : Line) : Decidable (Silent symbols l) :=
  decidable_of_iff' _ (silent_iff symbols l)

/-- Lines that are equal except for what their literals hold.  A line with calls is silent before and
after the change. -/
structure Kin (symbols : SymbolTable) (l l' : Line) : Prop where
  rest : l' = { l with text := l'.text }
  text : l.text = l'.text ∨ Alike Unquoted l.text l'.text ∧
    (holdsCalls l.shape = true → Silent symbols l ∧ Silent symbols l')

theorem map_eq_of_forall₂ {α β γ : Type} {r : α → β → Prop} {f : α → γ} {g : β → γ} {xs : List α}
    {ys : List β} (h : List.Forall₂ r xs ys) (hfg : ∀ x ∈ xs, ∀ y ∈ ys, r x y → f x = g y) :
    xs.map f = ys.map g := by
  induction h with
  | nil => rfl
  | cons hxy _ ih =>
    rw [List.map_cons, List.map_cons, hfg _ (by simp) _ (by simp) hxy,
      ih fun x hx y hy => hfg x (by simp [hx]) y (by simp [hy])]

theorem ofCall_similar {site site' : CallSite} (h : site.Similar site')
    (hs : ∀ arg ∈ site.args, Argument.IsSettled symbols arg)
    (hs' : ∀ arg ∈ site'.args, Argument.IsSettled symbols arg) :
    ofCall symbols site = ofCall symbols site' := by
  have htypes := map_eq_of_forall₂ h.args fun arg ha arg' ha' halike =>
    Argument.type_alike halike (hs arg ha) (hs' arg' ha')
  rw [ofCall, ofCall, h.name, htypes, h.line]

theorem ofReference_similar {site site' : CallSite} (h : site.Similar site')
    (hs : ∀ arg ∈ site.args, Argument.IsSettled symbols arg)
    (hs' : ∀ arg ∈ site'.args, Argument.IsSettled symbols arg) :
    ofReference symbols site = ofReference symbols site' := by
  rw [ofReference, ofReference, ofCall_similar h hs hs', h.name]

/-- Silent lines that are alike ask for the same. -/
theorem demands_alike {l l' : Line} (hmute : Alike (Mute symbols) l.text l'.text)
    (hrest : l' = { l with text := l'.text }) (hc : holdsCalls l.shape = true) (hs : Silent symbols l)
    (hs' : Silent symbols l') :
    (lineCall? l).map (fun r => ofCall symbols r.2) = (lineCall? l').map (fun r => ofCall symbols r.2) ∧
      (lineReferences symbols l).map (ofReference symbols) =
        (lineReferences symbols l').map (ofReference symbols) := by
  have hshape : l'.shape = l.shape := by rw [hrest]
  have hid : l'.id = l.id := by rw [hrest]
  have hdrop : Option.Rel (fun r r' => Alike (Mute symbols) r.1 r'.1 ∧ r.2.Similar r'.2) (lineCall? l)
      (lineCall? l') := by
    rw [lineCall?, lineCall?, hshape, hid, if_pos hc, if_pos hc]
    exact CallSite.dropCall?_alike hmute l.id
  have hsites : List.Forall₂ CallSite.Similar (lineReferences symbols l) (lineReferences symbols l') := by
    rw [lineReferences, lineReferences, hshape, hid, if_pos hc, if_pos hc]
    -- References are looked for in what the CALL leaves of the text.
    refine CallSite.references_alike ?_ l.id
    generalize lineCall? l = call at hdrop ⊢
    generalize lineCall? l' = call' at hdrop ⊢
    cases hdrop with
    | none => exact hmute
    | some hr => exact hr.1
  refine ⟨?_, map_eq_of_forall₂ hsites fun site hm site' hm' hsim =>
    ofReference_similar hsim (hs.references site hm) (hs'.references site' hm')⟩
  have hcalls := hs.calls
  have hcalls' := hs'.calls
  generalize lineCall? l = call at hdrop hcalls ⊢
  generalize lineCall? l' = call' at hdrop hcalls' ⊢
  cases hdrop with
  | none => rfl
  | some hr => exact congrArg some (ofCall_similar hr.2 (hcalls _ rfl) (hcalls' _ rfl))

theorem Kin.demands_eq {l l' : Line} (h : Kin symbols l l') :
    (lineCall? l).map (fun r => ofCall symbols r.2) = (lineCall? l').map (fun r => ofCall symbols r.2) ∧
      (lineReferences symbols l).map (ofReference symbols) =
        (lineReferences symbols l').map (ofReference symbols) := by
  obtain ⟨hrest, heq | ⟨halike, hsilent⟩⟩ := h
  · rw [← heq] at hrest
    rw [hrest]
    exact ⟨rfl, rfl⟩
  · have hshape : l'.shape = l.shape := by rw [hrest]
    cases hc : holdsCalls l.shape with
    | false => simp [lineCall?, lineReferences, hshape, hc]
    | true =>
      obtain ⟨hs, hs'⟩ := hsilent hc
      have hfree (q : Char) (x y : Text) (hq : isQuote q = true) (hxy : Unquoted q x y) :
          q ∉ x ∧ q ∉ y :=
        ⟨fun hx => by simp [hxy.1 q hx] at hq, fun hy => by simp [hxy.2 q hy] at hq⟩
      exact demands_alike (halike.with_contents hfree hs.inert hs'.inert) hrest hc hs hs'

section Buffers
variable {lines lines' : List Line} (h : List.Forall₂ (Kin symbols) lines lines')
include h

theorem called_kin : called symbols lines = called symbols lines' := by
  have hcalls : (calls lines).map (ofCall symbols) = (calls lines').map (ofCall symbols) := by
    induction h with
    | nil => rfl
    | cons hl _ ih =>
      have hhead := congrArg Option.toList hl.demands_eq.1
      simp only [calls, List.flatMap_cons, List.map_append] at ih ⊢
      rw [ih]
      congr 1
      simpa [Option.toList_map, Function.comp_def] using hhead
  rw [called, called, hcalls]

theorem referenced_kin : referenced symbols lines = referenced symbols lines' := by
  have hreferences : (references symbols lines).map (ofReference symbols) =
      (references symbols lines').map (ofReference symbols) := by
    induction h with
    | nil => rfl
    | cons hl _ ih =>
      simp only [references, List.flatMap_cons, List.map_append] at ih ⊢
      rw [ih, hl.demands_eq.2]
  rw [referenced, referenced, hreferences]

theorem functions_kin : functions symbols lines = functions symbols lines' := by
  simp only [functions, isCalled, called_kin h, referenced_kin h]

end Buffers

/-- The name of a demand is a word. -/
theorem name_called {lines : List Line} {d : Demand} (h : d ∈ called symbols lines) :
    ∀ c ∈ d.name, isWord c = true := by
  obtain ⟨site, hsite, rfl⟩ := List.mem_map.1 (mem_of_mem_firstsBy h)
  obtain ⟨l, -, hl⟩ := List.mem_flatMap.1 hsite
  obtain ⟨r, hr, rfl⟩ := Option.map_eq_some_iff.1 (Option.mem_toList.1 hl)
  rw [lineCall?] at hr
  split at hr
  · rw [CallSite.dropCall?] at hr
    obtain ⟨found, hfound, rfl⟩ := Option.map_eq_some_iff.1 hr
    have hname := CallSite.findCall?_name hfound
    dsimp only [ofCall]
    split <;> exact hname
  · cases hr

theorem name_functions {lines : List Line} {d : Demand} (h : d ∈ functions symbols lines) :
    ∀ c ∈ d.name, isWord c = true := by
  obtain ⟨site, hsite, rfl⟩ := List.mem_map.1 (mem_of_mem_firstsBy (List.mem_of_mem_filter h))
  obtain ⟨l, -, hl⟩ := List.mem_flatMap.1 hsite
  rw [lineReferences] at hl
  split at hl
  · obtain ⟨r, hr, rfl⟩ := List.mem_map.1 hl
    exact CallSite.parenWords_name (List.mem_of_mem_filter hr)
  · cases hl

/-- Lines that the demands treat alike. -/
structure Matched (l l' : Line) : Prop where
  id : l.id = l'.id
  shape : l.shape = l'.shape
  declares : l.declares = l'.declares
  isExtern : ∀ d : Demand, (∀ c ∈ d.name, isWord c = true) → d.isExtern l = d.isExtern l'

/-- The same knowledge, and lines that match. -/
structure Twin (s s' : Analysis × Buffer) : Prop where
  analysis : s.1 = s'.1
  lines : List.Forall₂ Matched s.2.lines s'.2.lines

theorem isExternOf_alike {name t t' : Text} (hn : ∀ c ∈ name, isWord c = true)
    (h : Alike Unquoted t t') : isExternOf name t = isExternOf name t' := by
  have hread : Option.Rel (Alike Unquoted)
      (((Text.after? "extern" t.trimStart).bind Text.blanks?).map Text.trimEnd)
      (((Text.after? "extern" t'.trimStart).bind Text.blanks?).map Text.trimEnd) := by
    rw [Option.map_eq_bind, Option.map_eq_bind]
    have hafter : Option.Rel (Alike Unquoted) (Text.after? "extern" t.trimStart)
        (Text.after? "extern" t'.trimStart) :=
      h.trimStart.after? (Text.not_quote_of_all rfl)
    exact Text.bind_of_rel (Text.bind_of_rel hafter fun _ _ hu => hu.blanks?)
      fun _ _ hu => .some hu.trimEnd
  have hword {u : Text} (hu : ∃ c ∈ u, isQuote c = true) : u ≠ name := by
    rintro rfl
    obtain ⟨c, hc, hq⟩ := hu
    simp [Text.not_quote_of_word (hn c hc)] at hq
  rw [isExternOf, isExternOf]
  generalize Option.map _ _ = o at hread ⊢
  generalize Option.map _ _ = o' at hread ⊢
  cases hread with
  | none => rfl
  | some hu =>
    rcases hu.eq_or_quote with rfl | ⟨hq, hq'⟩
    · rfl
    · simp [hword hq, hword hq']

theorem Kin.matched {l l' : Line} (h : Kin symbols l l') :
    Matched { rewritten symbols l with id := l.id, origin := l.origin }
      { rewritten symbols l' with id := l'.id, origin := l'.origin } := by
  obtain ⟨hrest, htext⟩ := h
  have hshape : l.shape = l'.shape := by rw [hrest]
  refine ⟨by rw [hrest], ?_, ?_, fun d hd => ?_⟩
  · exact (shape_rewritten symbols l).trans (hshape.trans (shape_rewritten symbols l').symm)
  · refine (declares_rewritten symbols l).trans (Eq.trans ?_ (declares_rewritten symbols l').symm)
    rw [hrest]
  · rw [isExtern, isExtern]
    dsimp only
    rw [shape_rewritten, shape_rewritten, hshape]
    cases hs : l'.shape == .external with
    | false => rfl
    | true =>
      -- EXTERNAL lines hold no calls and stay as they are.
      have hkept {l : Line} (hl : l.shape = .external) : rewritten symbols l = l.toDraft := by
        simp [rewritten, lineCall?, lineReferences, hl, holdsCalls]
      have hs := eq_of_beq hs
      rw [hkept (hshape.trans hs), hkept hs]
      refine congrArg _ ?_
      rcases htext with heq | ⟨halike, -⟩
      · rw [heq]
      · exact isExternOf_alike hd halike

section Steps
variable {s s' : Analysis × Buffer} {d : Demand}

theorem forall₂_remove {b b' : Buffer} {p : Line → Bool} (hp : ∀ l l', Matched l l' → p l = p l')
    (h : List.Forall₂ Matched b.lines b'.lines) :
    List.Forall₂ Matched (b.remove p).lines (b'.remove p).lines :=
  List.rel_filter (fun l l' hl => by simp [hp l l' hl]) h

theorem forall₂_modify {b b' : Buffer} (i : Nat) (t : Text) (h : List.Forall₂ Matched b.lines b'.lines) :
    List.Forall₂ Matched (b.modify i fun c => { c with text := t }).lines
      (b'.modify i fun c => { c with text := t }).lines := by
  simp only [Buffer.modify, Buffer.map, List.forall₂_map_left_iff, List.forall₂_map_right_iff]
  refine h.imp fun l l' hl => ?_
  rw [hl.id]
  split
  · exact ⟨rfl, hl.shape, hl.declares, fun d _ => by simp [isExtern, hl.shape]⟩
  · exact ⟨rfl, hl.shape, hl.declares, hl.isExtern⟩

theorem Twin.meet (h : Twin s s') (hd : ∀ c ∈ d.name, isWord c = true) :
    Twin (meet s d) (Resolution.meet s' d) := by
  obtain ⟨a, b⟩ := s
  obtain ⟨a', b'⟩ := s'
  obtain ⟨rfl, hlines⟩ := h
  have hremove := forall₂_remove (fun l l' hl => hl.isExtern d hd) hlines
  refine ⟨rfl, ?_⟩
  simp only [Resolution.meet, clear]
  split
  · split
    · exact forall₂_modify _ _ hremove
    · exact hremove
  · exact hremove

theorem Twin.meetFunction (h : Twin s s') (hd : ∀ c ∈ d.name, isWord c = true) :
    Twin (meetFunction s d) (Resolution.meetFunction s' d) := by
  obtain ⟨ha, hlines⟩ := h.meet hd
  refine ⟨ha, forall₂_remove (fun l l' hl => ?_) hlines⟩
  rw [isLocal, isLocal, hl.shape, hl.declares]

theorem Twin.foldl {f : Analysis × Buffer → Demand → Analysis × Buffer} {ds : List Demand}
    (hf : ∀ s s', ∀ d ∈ ds, Twin s s' → Twin (f s d) (f s' d)) (h : Twin s s') :
    Twin (ds.foldl f s) (ds.foldl f s') := by
  induction ds generalizing s s' with
  | nil => exact h
  | cons d ds ih =>
    exact ih (fun s s' e he => hf s s' e (by simp [he])) (hf s s' d (by simp) h)

end Steps

/-- What literals hold does not matter to calls, where it is nothing that is looked for. -/
theorem run_ignores_literals (a : Analysis) {b b' : Buffer}
    (h : List.Forall₂ (Kin a.symbols) b.lines b'.lines) :
    (run a b).1 = (run a b').1 ∧ (run a b).2.lines.map (·.id) = (run a b').2.lines.map (·.id) := by
  have hstart : Twin (a, b.map (rewritten a.symbols)) (a, b'.map (rewritten a.symbols)) := by
    refine ⟨rfl, ?_⟩
    simp only [Buffer.map, List.forall₂_map_left_iff, List.forall₂_map_right_iff]
    exact h.imp fun _ _ hl => hl.matched
  have hcalled : Twin _ _ := hstart.foldl (f := meet) fun s s' d (hd : d ∈ called a.symbols b.lines) hs =>
    hs.meet (name_called hd)
  have hend : Twin _ _ := hcalled.foldl (f := meetFunction)
    fun s s' d (hd : d ∈ functions a.symbols b.lines) hs => hs.meetFunction (name_functions hd)
  have hmarked : marked a.symbols b.lines = marked a.symbols b'.lines := by
    rw [marked, marked, called_kin h, referenced_kin h]
  rw [run_eq, run_eq, ← called_kin h, ← functions_kin h, ← hmarked]
  exact ⟨by rw [hend.analysis], map_eq_of_forall₂ hend.lines fun l _ l' _ hl => hl.id⟩

/-- A call with a message and a function of `n`. -/
def complaintCall (message : Text) : Line :=
  { text := "call warn(" ++ '\x27' :: (message ++ '\x27' :: ", lim(n))"), shape := .call, id := 2, origin := 4 }

def complaint (message : Text) : Buffer :=
  { lines := [{ text := "int lim", shape := .declaration, declares := some "lim", id := 0, origin := 2 },
      { text := "extern warn", shape := .external, id := 1, origin := 3 }, complaintCall message]
    nextId := 3 }

def complaintSymbols : SymbolTable :=
  ⟨[{ name := "n", kind := .scalar, baseType := some .integer },
    { name := "lim", kind := .scalar, baseType := some .integer }]⟩

theorem run_ignores_complaint :
    let a : Analysis := { symbols := complaintSymbols }
    let b := complaint "n is bad"
    let b' := complaint "no limit"
    List.Forall₂ (Kin a.symbols) b.lines b'.lines ∧ (run a b).1 = (run a b').1 ∧
      (run a b).2.lines.map (·.id) = (run a b').2.lines.map (·.id) := by
  intro a b b'
  have halike {m m' : Text} (h : Unquoted '\x27' m m') :
      Alike Unquoted (complaintCall m).text (complaintCall m').text :=
    (Alike.of_free (Text.not_quote_of_all rfl)).append
      (.literal (by decide) h (.of_free (Text.not_quote_of_all rfl)))
  have hcall : Kin a.symbols (complaintCall "n is bad") (complaintCall "no limit") :=
    ⟨rfl, .inr ⟨halike ⟨Text.not_quote_of_all rfl, Text.not_quote_of_all rfl⟩, fun _ => by decide +kernel⟩⟩
  have hkin : List.Forall₂ (Kin a.symbols) b.lines b'.lines :=
    .cons ⟨rfl, .inl rfl⟩ (.cons ⟨rfl, .inl rfl⟩ (.cons hcall .nil))
  exact ⟨hkin, run_ignores_literals a hkin⟩

end Resolution

end FixedForm
