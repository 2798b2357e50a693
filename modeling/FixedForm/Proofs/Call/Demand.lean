import FixedForm.Proofs.Assoc
import FixedForm.Proofs.Stage.Heading

/-! What the call sites of a unit ask for.  A name is asked for once, with the types of the arguments at
its first site; the resolution of calls depends on nothing else of the sites. -/
namespace FixedForm

/-- The first of the elements with each key. -/
def firstsBy {α : Type} (key : α → Text) : List α → List α
  | [] => []
  | x :: xs => x :: (firstsBy key xs).filter fun y => key y != key x

section Firsts
variable {α β : Type} {key : α → Text}

theorem mem_of_mem_firstsBy {xs : List α} {x : α} (h : x ∈ firstsBy key xs) : x ∈ xs := by
  induction xs with
  | nil => exact h
  | cons y xs ih =>
    rcases List.mem_cons.1 h with rfl | h
    · exact List.mem_cons_self
    · exact List.mem_cons_of_mem _ (ih (List.mem_of_mem_filter h))

theorem nodup_firstsBy (xs : List α) : ((firstsBy key xs).map key).Nodup := by
  induction xs with
  | nil => exact List.nodup_nil
  | cons x xs ih =>
    refine List.nodup_cons.2 ⟨fun hm => ?_, ih.sublist (List.filter_sublist.map _)⟩
    obtain ⟨y, hy, hk⟩ := List.mem_map.1 hm
    simpa [hk] using (List.mem_filter.1 hy).2

theorem firstsBy_map {f : α → β} {key' : β → Text} (hf : ∀ x, key' (f x) = key x) (xs : List α) :
    firstsBy key' (xs.map f) = (firstsBy key xs).map f := by
  induction xs with
  | nil => rfl
  | cons x xs ih =>
    rw [List.map_cons, firstsBy, ih, firstsBy, List.map_cons, List.filter_map]
    simp only [Function.comp_def, hf]

end Firsts

/-- What a site asks for: a name with a result and parameters of these types. -/
structure Demand where
  name : Text
  types : List Text
  result : Text
  /-- The line of the site. -/
  line : Nat
  deriving DecidableEq, Repr

namespace Demand

def ofCall (symbols : SymbolTable) (site : CallSite) : Demand :=
  { name := site.name, types := site.args.map (Argument.type symbols), result := "void"
    line := site.line }

def ofReference (symbols : SymbolTable) (site : CallSite) : Demand :=
  { ofCall symbols site with result := targetType ((symbols.lookup? site.name).bind (·.baseType)) }

variable (a : Analysis) (d : Demand)

/-- The name is an argument of the unit. -/
def isPointer : Bool := (a.procedure.map (·.arguments.contains d.name)).getD false

theorem isPointer_eq {a : Analysis} {p : Procedure} (h : a.procedure = some p) :
    d.isPointer a = p.arguments.contains d.name := by
  rw [isPointer, h]
  rfl

/-- The statement function of the name. -/
def function? : Option StatementFunction := a.procedure.bind (·.functions.get? d.name)

/-- The parameter that a called argument becomes. -/
def pointer : Text := d.result ++ " (*" ++ d.name ++ ")(" ++ Text.join ", " d.types ++ ")"

def prototype : Text := d.result ++ " " ++ d.name ++ "(" ++ Text.join ", " d.types ++ ");"

/-- A statement function as an inline function. -/
def inlined (scope : ReferenceScope) (f : StatementFunction) : Text :=
  "static inline " ++ d.result ++ " " ++ f.name ++ "(" ++
    Text.join ", " ((d.types.zip f.params).map fun (type, name) => Argument.named type name) ++
    ")\x7b return " ++ Intrinsic.replace (Reference.linearize scope f.body).1 ++ "; \x7d"

/-- The declarations that a demand adds. -/
def declarations : List Text :=
  if d.isPointer a then []
  else
    match d.function? a with
    | none => [d.prototype]
    | some f => if d.types.length = f.params.length then [d.inlined a.referenceScope f] else []

/-- The issues that a demand makes known, with their lines. -/
def issues : List (Option Nat × Issue) :=
  if d.isPointer a then []
  else
    match d.function? a with
    | none => []
    | some f =>
      if d.types.length = f.params.length then
        (Reference.linearize a.referenceScope f.body).2.map fun issue => (none, issue)
      else [(some d.line, .arity f.name f.params.length d.types.length)]

/-- What is known of the unit once the demand is met. -/
def settle : Analysis :=
  { (d.issues a).foldl (fun a i => a.report i.1 i.2) a with
    declarations := a.declarations ++ d.declarations a
    procedure :=
      if d.isPointer a then
        a.procedure.map fun p => { p with renderings := p.renderings.put d.name d.pointer }
      else a.procedure }

/-- A line that the demand takes the place of. -/
def isExtern (l : Line) : Bool := l.shape == .external && Resolution.isExternOf d.name l.text

/-- A line that declares the name as a local variable. -/
def isLocal (l : Line) : Bool := l.shape == .declaration && l.declares == some d.name

/-- The lines once the demand is met. -/
def clear (b : Buffer) : Buffer :=
  let b := b.remove d.isExtern
  match (d.settle a).procedure with
  | some p => if d.isPointer a then b.modify p.anchor fun c => { c with text := p.header } else b
  | none => b

end Demand

namespace Resolution
open Demand

theorem reportAll_declarations (a : Analysis) (line : Option Nat) (issues : List Issue) :
    (a.reportAll line issues).declarations = a.declarations ∧
      (a.reportAll line issues).procedure = a.procedure :=
  ⟨foldl_view Analysis.declarations (f := fun a issue => a.report line issue) (fun _ _ => rfl) issues a,
    foldl_view Analysis.procedure (f := fun a issue => a.report line issue) (fun _ _ => rfl) issues a⟩

/-- A statement function is resolved as its demand says. -/
theorem inlineFunction_eq {a : Analysis} {d : Demand} {f : StatementFunction}
    (hp : d.isPointer a = false) (hf : d.function? a = some f) :
    inlineFunction a f d.types d.result d.line = d.settle a := by
  obtain ⟨hd, hprocedure⟩ :=
    reportAll_declarations a none (Reference.linearize a.referenceScope f.body).2
  by_cases hn : d.types.length = f.params.length
  · have hissues : d.issues a =
        (Reference.linearize a.referenceScope f.body).2.map fun issue => (none, issue) := by
      simp [issues, hp, hf, hn]
    have hadded : d.declarations a = [d.inlined a.referenceScope f] := by simp [declarations, hp, hf, hn]
    simp only [inlineFunction, settle, hn, bne_self_eq_false, Bool.false_eq_true, if_false, hp,
      hissues, hadded, List.foldl_map, Analysis.linearize, hd]
    rw [← hprocedure]
    rfl
  · have hissues : d.issues a = [(some d.line, .arity f.name f.params.length d.types.length)] := by
      simp [issues, hp, hf, hn]
    have hadded : d.declarations a = [] := by simp [declarations, hp, hf, hn]
    simp only [inlineFunction, settle, hp, hissues, hadded, List.append_nil, bne_iff_ne, ne_eq, hn,
      not_false_eq_true, if_true, Bool.false_eq_true, if_false]
    rfl

/-- A site is resolved as its demand says. -/
theorem resolve_eq (a : Analysis) (b : Buffer) (site : CallSite) (result : Text) :
    let d : Demand := { ofCall a.symbols site with result }
    resolve a b site result = (d.settle a, d.clear a b) := by
  intro d
  have hplain (hp : d.isPointer a = false) : d.clear a b = b.remove d.isExtern := by
    simp only [clear, hp, Bool.false_eq_true, if_false]
    split <;> rfl
  cases hp : d.isPointer a with
  | true =>
    cases hprocedure : a.procedure with
    | none => simp [isPointer, hprocedure] at hp
    | some p =>
      have hargument : p.arguments.contains site.name = true := (isPointer_eq d hprocedure).symm.trans hp
      have hfilter : a.procedure.filter (·.arguments.contains site.name) = some p := by
        rw [hprocedure, Option.filter_some, if_pos hargument]
      have hissues : d.issues a = [] := by rw [issues, if_pos hp]
      have hadded : d.declarations a = [] := by rw [declarations, if_pos hp]
      simp only [resolve, hfilter, clear, settle, hp, if_true, hissues, hadded, List.foldl_nil,
        List.append_nil]
      rw [hprocedure]
      rfl
  | false =>
    have hfilter : a.procedure.filter (·.arguments.contains site.name) = none := by
      cases hprocedure : a.procedure with
      | none => rfl
      | some p =>
        have hargument : p.arguments.contains site.name = false :=
          (isPointer_eq d hprocedure).symm.trans hp
        rw [Option.filter_some, hargument]
        rfl
    have hfunction : (a.procedure.bind fun p => p.functions.get? site.name) = d.function? a := rfl
    simp only [resolve, hfilter, hplain hp, hfunction]
    cases hf : d.function? a with
    | none =>
      have hissues : d.issues a = [] := by simp [issues, hp, hf]
      have hadded : d.declarations a = [d.prototype] := by simp [declarations, hp, hf]
      simp only [settle, hp, hissues, hadded, List.foldl_nil, Bool.false_eq_true, if_false]
      rfl
    | some f => exact Prod.ext (inlineFunction_eq hp hf) rfl

/-- One demand is met. -/
def meet (s : Analysis × Buffer) (d : Demand) : Analysis × Buffer := (d.settle s.1, d.clear s.1 s.2)

/-- A function is met, and its local declaration goes away. -/
def meetFunction (s : Analysis × Buffer) (d : Demand) : Analysis × Buffer :=
  ((meet s d).1, (meet s d).2.remove d.isLocal)

theorem symbols_settle (a : Analysis) (d : Demand) : (d.settle a).symbols = a.symbols :=
  foldl_view Analysis.symbols (f := fun a (i : Option Nat × Issue) => a.report i.1 i.2)
    (fun _ _ => rfl) (d.issues a) a

/-- Sites that are resolved one after the other are demands that are met so, since the table stays. -/
theorem foldl_sites {f : Analysis × Buffer → CallSite → Analysis × Buffer} {of : SymbolTable → CallSite → Demand}
    {met : Analysis × Buffer → Demand → Analysis × Buffer} (hstep : ∀ s site, f s site = met s (of s.1.symbols site))
    (hsymbols : ∀ s d, (met s d).1.symbols = s.1.symbols) (sites : List CallSite) (s : Analysis × Buffer) :
    sites.foldl f s = (sites.map (of s.1.symbols)).foldl met s := by
  induction sites generalizing s with
  | nil => rfl
  | cons site sites ih =>
    rw [List.foldl_cons, List.map_cons, List.foldl_cons, ih, hstep, hsymbols]

theorem foldl_resolve (sites : List CallSite) (s : Analysis × Buffer) :
    sites.foldl (fun s site => resolve s.1 s.2 site "void") s = (sites.map (ofCall s.1.symbols)).foldl meet s :=
  foldl_sites (fun _ _ => resolve_eq ..) (fun _ _ => symbols_settle _ _) sites s

theorem foldl_resolveFunction (sites : List CallSite) (s : Analysis × Buffer) :
    sites.foldl (fun s site => resolveFunction s.1 s.2 site) s =
      (sites.map (ofReference s.1.symbols)).foldl meetFunction s :=
  foldl_sites (fun _ _ => by rw [resolveFunction, resolve_eq]; rfl) (fun _ _ => symbols_settle _ _) sites s

/-- The call of a line, and its text without the word `call`. -/
def lineCall? (l : Line) : Option (Text × CallSite) :=
  if holdsCalls l.shape then CallSite.dropCall? l.id l.text else none

/-- The references of a line to callable scalars. -/
def lineReferences (symbols : SymbolTable) (l : Line) : List CallSite :=
  if holdsCalls l.shape then
    CallSite.references symbols l.id (((lineCall? l).map Prod.fst).getD l.text)
  else []

def calls (lines : List Line) : List CallSite :=
  lines.flatMap fun l => ((lineCall? l).map Prod.snd).toList

def references (symbols : SymbolTable) (lines : List Line) : List CallSite :=
  lines.flatMap (lineReferences symbols)

/-- Sites under their names. -/
def byName (sites : List CallSite) : Assoc CallSite := sites.map fun s => (s.name, s)

theorem has_byName (sites : List CallSite) (name : Text) :
    (byName sites).has name = sites.any (·.name == name) := by
  induction sites with
  | nil => rfl
  | cons site sites ih =>
    rw [byName, List.map_cons, ← List.singleton_append, Assoc.has_append, Assoc.has_singleton, BEq.comm,
      ← byName, ih, List.any_cons]

/-- The sites are those that came before and the first ones of other names. -/
theorem foldl_addFirst (sites : List CallSite) (m : Assoc CallSite) :
    sites.foldl addFirst m =
      m ++ byName ((firstsBy CallSite.name sites).filter fun s => !m.has s.name) := by
  induction sites generalizing m with
  | nil => simp [firstsBy, byName]
  | cons site sites ih =>
    rw [List.foldl_cons, ih, addFirst, firstsBy, List.filter_cons, List.filter_filter]
    cases hm : m.has site.name with
    | true =>
      have hpred (s : CallSite) : (!m.has s.name && s.name != site.name) = !m.has s.name := by
        by_cases hs : s.name = site.name <;> simp [hs, hm]
      simp [hpred]
    | false =>
      have hhas (name : Text) : Assoc.has (m ++ [(site.name, site)]) name =
          (m.has name || name == site.name) := by
        rw [Assoc.has_append, Assoc.has_singleton]
      have hpred (s : CallSite) : (!m.has s.name && s.name != site.name) =
          !Assoc.has (m ++ [(site.name, site)]) s.name := by
        rw [hhas, Bool.not_or]
        rfl
      simp [Assoc.put_of_absent hm, hpred, byName]

theorem foldl_addFirst_nil (sites : List CallSite) :
    sites.foldl addFirst [] = byName (firstsBy CallSite.name sites) := by
  rw [foldl_addFirst, List.nil_append]
  exact congrArg _ (List.filter_eq_self.2 fun _ _ => rfl)

theorem functionSites_byName (subroutines functions : List CallSite) :
    functionSites { subroutines := byName subroutines, functions := byName functions } =
      functions.filter fun s => !subroutines.any (·.name == s.name) := by
  simp only [functionSites, has_byName]
  rw [byName, List.filter_map, List.map_map]
  exact List.map_id _

/-- A line after its calls are taken. -/
def rewritten (symbols : SymbolTable) (l : Line) : Draft :=
  if (lineCall? l).isSome || !(lineReferences symbols l).isEmpty then
    { l.toDraft with text := Quote.toDouble (((lineCall? l).map Prod.fst).getD l.text) }
  else l.toDraft

theorem collect_eq (symbols : SymbolTable) (sites : Sites) (l : Line) : collect symbols sites l =
    ({ subroutines := ((lineCall? l).map Prod.snd).toList.foldl addFirst sites.subroutines
       functions := (lineReferences symbols l).foldl addFirst sites.functions },
      [.kept (rewritten symbols l)]) := by
  rw [collect, rewritten, lineReferences, lineCall?]
  split
  · cases hc : CallSite.dropCall? l.id l.text with
    | none =>
      cases hr : (CallSite.references symbols l.id l.text).isEmpty <;> simp [hr]
    | some call => rfl
  · rfl

theorem edit_collect (symbols : SymbolTable) (b : Buffer) : b.edit (collect symbols) {} =
    ({ subroutines := (calls b.lines).foldl addFirst []
       functions := (references symbols b.lines).foldl addFirst [] },
      b.map (rewritten symbols)) := by
  have hsites (lines : List Line) (sites : Sites) (n : Nat) :
      (Buffer.editFrom (collect symbols) sites n lines).1 =
        { subroutines := (calls lines).foldl addFirst sites.subroutines
          functions := (references symbols lines).foldl addFirst sites.functions } := by
    induction lines generalizing sites n with
    | nil => rfl
    | cons l lines ih =>
      simp only [Buffer.editFrom, collect_eq, ih, calls, references, List.flatMap_cons,
        List.foldl_append]
  have hstep (sites : Sites) (l : Line) : (collect symbols sites l).2 = [.kept (rewritten symbols l)] := by
    rw [collect_eq]
  have hlines := Buffer.edit_eq_map hstep {} b
  exact Prod.ext (hsites b.lines {} b.nextId) hlines

/-- What the CALL statements of the lines ask for. -/
def called (symbols : SymbolTable) (lines : List Line) : List Demand :=
  firstsBy Demand.name ((calls lines).map (ofCall symbols))

/-- The names of CALL statements. -/
def isCalled (symbols : SymbolTable) (lines : List Line) (name : Text) : Bool :=
  (called symbols lines).any (·.name == name)

/-- What the references to callable scalars ask for. -/
def referenced (symbols : SymbolTable) (lines : List Line) : List Demand :=
  firstsBy Demand.name ((references symbols lines).map (ofReference symbols))

/-- The functions that are not called as subroutines too. -/
def functions (symbols : SymbolTable) (lines : List Line) : List Demand :=
  (referenced symbols lines).filter fun d => !isCalled symbols lines d.name

/-- The demands of a unit, in the order in which they are met. -/
def demands (symbols : SymbolTable) (lines : List Line) : List Demand :=
  called symbols lines ++ functions symbols lines

/-- The table after all calls are known. -/
def marked (symbols : SymbolTable) (lines : List Line) : SymbolTable :=
  ((referenced symbols lines).map (·.name)).foldl markFunction
    (((called symbols lines).map (·.name)).foldl markSubroutine symbols)

section Firsts
variable (symbols : SymbolTable) (lines : List Line)

theorem called_eq :
    called symbols lines = (firstsBy CallSite.name (calls lines)).map (ofCall symbols) :=
  firstsBy_map (fun _ => rfl) _

theorem referenced_eq : referenced symbols lines =
    (firstsBy CallSite.name (references symbols lines)).map (ofReference symbols) :=
  firstsBy_map (fun _ => rfl) _

theorem functions_eq : functions symbols lines =
    (functionSites { subroutines := byName (firstsBy CallSite.name (calls lines))
                     functions := byName (firstsBy CallSite.name (references symbols lines)) }).map
      (ofReference symbols) := by
  rw [functionSites_byName, functions, referenced_eq, List.filter_map]
  simp only [Function.comp_def, isCalled, called_eq, List.any_map]
  rfl

theorem marked_eq : marked symbols lines =
    mark symbols { subroutines := byName (firstsBy CallSite.name (calls lines))
                   functions := byName (firstsBy CallSite.name (references symbols lines)) } := by
  simp only [marked, mark, called_eq, referenced_eq, byName, Assoc.names, List.map_map,
    Function.comp_def]
  rfl

end Firsts

theorem run_eq (a : Analysis) (b : Buffer) :
    let s := (called a.symbols b.lines).foldl meet (a, b.map (rewritten a.symbols))
    let s := (functions a.symbols b.lines).foldl meetFunction s
    run a b = ({ s.1 with symbols := marked a.symbols b.lines }, s.2) := by
  have hvalues (sites : List CallSite) : (byName sites).map Prod.snd = sites := by
    rw [byName, List.map_map]
    exact List.map_id sites
  have hmeet (ds : List Demand) (s : Analysis × Buffer) : (ds.foldl meet s).1.symbols = s.1.symbols :=
    foldl_view (fun s : Analysis × Buffer => s.1.symbols) (fun s d => symbols_settle s.1 d) ds s
  have hmeetFunction (ds : List Demand) (s : Analysis × Buffer) :
      (ds.foldl meetFunction s).1.symbols = s.1.symbols :=
    foldl_view (fun s : Analysis × Buffer => s.1.symbols) (fun s d => symbols_settle s.1 d) ds s
  simp only [run, edit_collect, foldl_addFirst_nil, hvalues, foldl_resolve, ← called_eq, Prod.eta,
    foldl_resolveFunction, hmeet, hmeetFunction, ← functions_eq, ← marked_eq]

end Resolution

end FixedForm
