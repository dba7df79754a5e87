import Mathlib.Data.List.Perm.Basic
import StoredProcedure.Proofs.LockNeed
import StoredProcedure.Proofs.LoweredForm
import StoredProcedure.Proofs.Marks
import StoredProcedure.Proofs.ReadBefore
import StoredProcedure.Proofs.StoreAccess

namespace StoredProcedure

namespace Mark

def store? : Mark → Option String
  | store name => some name
  | _ => none

/-- The stores that are accessed, each as often as it is. -/
def stores (marks : List Mark) : List String :=
  marks.filterMap store?

@[simp] theorem stores_nil : stores [] = [] := rfl

@[simp] theorem stores_cons (mark : Mark) (marks : List Mark) :
    stores (mark :: marks) = mark.store?.toList ++ stores marks := by
  rw [stores, List.filterMap_cons, stores]
  cases mark.store? <;> rfl

@[simp] theorem stores_append (marks others : List Mark) :
    stores (marks ++ others) = stores marks ++ stores others :=
  List.filterMap_append

theorem stores_flatMap {α : Type} (f : α → List Mark) (xs : List α) :
    stores (xs.flatMap f) = xs.flatMap fun x => stores (f x) :=
  List.filterMap_flatMap

theorem mem_stores {marks : List Mark} {name : String} :
    name ∈ stores marks ↔ .store name ∈ marks := by
  rw [stores, List.mem_filterMap]
  constructor
  · rintro ⟨mark, hmark, hname⟩
    cases mark with
    | store other =>
        cases hname
        exact hmark
    | _ => cases hname
  · intro hmark
    exact ⟨_, hmark, rfl⟩

section Lowers

variable {declared : Option NameSet} {marks others : List Mark} {name : String}

theorem stores_subset_of_lowers (h : List.Forall₂ (Lowers declared) marks others) :
    stores marks ⊆ stores others := by
  intro name hname
  have hcount := count_store_of_lowers h name
  have hpos := List.count_pos_iff.mpr (mem_stores.mp hname)
  exact mem_stores.mpr (List.count_pos_iff.mp (by omega))

theorem declared_of_mem_stores (h : List.Forall₂ (Lowers declared) marks others)
    (hname : name ∈ stores others) : name ∈ stores marks ∨ Lowering.Declared declared name := by
  obtain ⟨mark, hmark, hlowers⟩ := exists_of_forall₂ h _ (mem_stores.mp hname)
  cases hlowers with
  | kept h => exact .inl (mem_stores.mpr hmark)
  | accessed h => exact .inr h

end Lowers

end Mark

def Access.store : Access → String
  | .read store | .write store => store

theorem Source.accesses_flatMap {α : Type} (f : α → List Source) (xs : List α) :
    accesses (xs.flatMap f) = xs.flatMap fun x => accesses (f x) := by
  simp only [accesses, gets, List.filterMap_flatMap, List.map_flatMap]

namespace Expr

/-- The source that an expression itself is. -/
def source? : Expr → Option Source
  | .saved name => some (.saved name)
  | .wholeObject store | .keyOfObject store _ | .keyExists store _ | .keysOfObject store =>
      some (.store store)
  | _ => none

theorem sourcesList_eq (es : List Expr) : sourcesList es = es.flatMap sources := by
  induction es with
  | nil => rfl
  | cons e rest ih => rw [sourcesList, ih, List.flatMap_cons]

theorem sourcesFields_eq (fields : List (Expr × Expr)) :
    sourcesFields fields = (object fields).children.flatMap sources := by
  induction fields with
  | nil => rfl
  | cons field rest ih =>
      rw [sourcesFields, ih]
      simp [children]

theorem sources_eq (e : Expr) : e.sources = e.children.flatMap sources ++ e.source?.toList := by
  cases e with
  | object fields => simp [sources, source?, sourcesFields_eq]
  | role schema state => cases state <;> simp [sources, sourcesOption, children, source?]
  | _ => simp [sources, children, source?, sourcesList_eq]

/-- What an expression reads is what its nodes name. -/
theorem perm_stores (e : Expr) :
    ((Source.accesses e.sources).map Access.store).Perm (Mark.stores e.marks) := by
  induction e using induction_on_children with
  | node e ih =>
      have hself : (Source.accesses e.source?.toList).map Access.store =
          Mark.stores e.mark?.toList := by
        cases e <;> rfl
      have hchildren : ((Source.accesses (e.children.flatMap sources)).map Access.store).Perm
          (Mark.stores (e.children.flatMap marks)) := by
        rw [Mark.stores_flatMap, Source.accesses_flatMap, List.map_flatMap]
        exact List.Perm.flatMap_left _ ih
      rw [sources_eq, marks_eq, Source.accesses_append, List.map_append, Mark.stores_append, hself]
      exact List.perm_append_comm.trans (hchildren.append_left _)

theorem perm_stores_list (es : List Expr) :
    ((Source.accesses (sourcesList es)).map Access.store).Perm
      (Mark.stores (es.flatMap marks)) := by
  rw [sourcesList_eq, Source.accesses_flatMap, List.map_flatMap, Mark.stores_flatMap]
  exact List.Perm.flatMap_left _ fun e _ => e.perm_stores

end Expr

namespace Walk

/-- Wherever the walk starts, its actions access these stores, each as often as it is listed. -/
def Names (walk : Walk) (stores : List String) : Prop :=
  ∀ t, ((walk t).1.map fun action => action.access.store).Perm stores

variable {first next : Walk} {stores others : List String}

theorem Names.congr (h : first.Names stores) (hstores : others = stores) : first.Names others :=
  hstores ▸ h

theorem Names.andThen (h : first.Names stores) (hnext : next.Names others) :
    (first.andThen next).Names (stores ++ others) := by
  intro t
  rw [Walk.andThen, List.map_append]
  exact (h t).append (hnext _)

theorem names_read (values : List Expr) (change : Track → Track) :
    (read values change).Names (Mark.stores (values.flatMap Expr.marks)) := by
  intro t
  have hstores := Expr.perm_stores_list values
  rwa [Source.accesses, List.map_map] at hstores

theorem names_write (store : String) (values : List Expr) :
    (write store values).Names (Mark.stores (.store store :: values.flatMap Expr.marks)) := by
  intro t
  rw [write, List.map_append]
  exact ((names_read values id t).append_right _).trans (List.perm_append_singleton _ _)

end Walk

theorem Guard.names_visit (guard : Guard) :
    guard.visit.Names (Mark.stores (guard.conditions.flatMap Expr.marks)) := by
  cases guard with
  | when condition => exact Walk.names_read [condition] _
  | otherwise | lastly => exact Walk.names_read [] _

namespace Statement

mutual
theorem names_visit : (s : Statement) → .globalObject ∉ s.kinds →
    s.visit.Names (Mark.stores (s.marksWith Expr.marks))
  | .ret value, _ => Walk.names_read value.toList _
  | .save name value, _ =>
      (Walk.names_read [value] _).congr (by simp [marksWith, Mark.store?])
  | .update (.globalObject name) level edit, h => by
      simp [kinds, Target.kinds] at h
  | .update (.saved name) level edit, _ => Walk.names_read (level ++ edit.inputs) _
  | .choice branches, h => by
      simp only [kinds, List.mem_cons, not_or] at h
      exact names_visitBranches branches h.2
  | .forEach source item body, h => by
      simp only [kinds, List.mem_cons, List.mem_append, not_or] at h
      have hround : (Walk.round source item).Names _ := Walk.names_read [source] _
      have hbody := hround.andThen (names_visitBody body h.2)
      have hleave := hbody.andThen (Walk.names_read [] Track.leave)
      exact hleave.congr (by simp [marksWith, Mark.store?])
  | .call _ args, _ => Walk.names_read args _
  | .noop, _ => Walk.names_read [] _
  | .setKey store key value, _ => Walk.names_write store (key ++ [value])
  | .deleteKey store key, _ => Walk.names_write store key
  | .pushAtKey store key values, _ => Walk.names_write store (key ++ values)
termination_by structural s => s

theorem names_visitBody : (body : List Statement) → .globalObject ∉ kindsList body →
    (visitBody body).Names (Mark.stores (marksBody Expr.marks body))
  | [], _ => Walk.names_read [] _
  | s :: rest, h => by
      simp only [kindsList, List.mem_append, not_or] at h
      rw [marksBody, Mark.stores_append]
      exact (names_visit s h.1).andThen (names_visitBody rest h.2)
termination_by structural body => body

theorem names_visitBranches : (branches : List (Guard × List Statement)) →
    .globalObject ∉ kindsBranches branches →
    (visitBranches branches).Names (Mark.stores (marksBranches Expr.marks branches))
  | [], _ => Walk.names_read [] _
  | (guard, body) :: rest, h => by
      simp only [kindsBranches, List.mem_append, not_or] at h
      have henter := guard.names_visit.andThen (Walk.names_read [] Track.enter)
      have hbody := henter.andThen (names_visitBody body h.1.2)
      have hleave := hbody.andThen (Walk.names_read [] Track.leave)
      exact (hleave.andThen (names_visitBranches rest h.2)).congr (by simp [marksBranches])
termination_by structural branches => branches
end

end Statement

def Code.stores (code : Code) : List String :=
  code.accesses.map Access.store

/-- An analysis says something of a store. -/
def Analysis.Names (a : Analysis) (store : String) : Prop :=
  (∃ action ∈ a.actions, action.access.store = store ∨ store ∈ action.dependsOn) ∨
    ∃ kind, a.locks.get? store = some kind

namespace Function

/-- The stores that a function accesses, each as often as it does. -/
def stores (f : Function) : List String :=
  Mark.stores f.marks

/-- The stores that a function names outside discarded operands. -/
def keptStores (f : Function) : List String :=
  Mark.stores f.keptMarks

variable {f f' : Function}

theorem stores_eq (f : Function) :
    f.stores = Mark.stores (Statement.marksBody Expr.marks f.body) := by
  have hinputs : Mark.stores (f.inputs.map fun input => .declaration input.name) = [] := by
    rw [Mark.stores, List.filterMap_map]
    exact List.filterMap_none _
  rw [stores, marks, Mark.stores_append, hinputs, List.nil_append]

theorem names_visitBody (h : .globalObject ∉ Statement.kindsList f.body) :
    (Statement.visitBody f.body).Names f.stores := by
  rw [stores_eq]
  exact Statement.names_visitBody f.body h

theorem perm_stores_of_compile (hkinds : .globalObject ∉ Statement.kindsList f.body) {code : Code}
    (h : f.compile = .ok code) : code.stores.Perm f.stores := by
  simp only [compile, bind_eq_ok, pure_eq_ok] at h
  obtain ⟨⟨body, after⟩, hbody, rfl⟩ := h
  have hagrees := (Statement.agrees_visitBody f.body _ hbody f.initialFlow.track).perm
  have hstores := names_visitBody hkinds f.initialFlow.track
  rw [Code.stores, Code.accesses_append, Code.accesses_cons, accesses_prologue]
  refine (hagrees.map Access.store).trans ?_
  rwa [List.map_map]

theorem perm_stores_of_summarize (hkinds : .globalObject ∉ Statement.kindsList f.body)
    {actions : List Action} (h : f.summarize = .ok actions) :
    (actions.map fun action => action.access.store).Perm f.stores := by
  obtain rfl := eq_visit_of_summarize h
  exact names_visitBody hkinds _

theorem names_analyze_iff (hkinds : .globalObject ∉ Statement.kindsList f.body) {a : Analysis}
    (h : f.analyze = .ok a) {store : String} : a.Names store ↔ store ∈ f.stores := by
  simp only [analyze, bind_eq_ok, pure_eq_ok] at h
  obtain ⟨actions, hactions, rfl⟩ := h
  have hstores := perm_stores_of_summarize hkinds hactions
  have hrecorded : ∀ k, Action.Recorded actions k store → store ∈ f.stores := by
    intro k hk
    have hget := List.mem_of_mem_take (get_mem_take_of_recorded hactions hk)
    exact hstores.subset (List.mem_map.mpr ⟨_, hget, rfl⟩)
  constructor
  · rintro (⟨action, haction, rfl | hdepends⟩ | hlock)
    · exact hstores.subset (List.mem_map.mpr ⟨action, haction, rfl⟩)
    · obtain ⟨k, hk⟩ := List.getElem?_of_mem haction
      exact hrecorded k ⟨action, hk, hdepends⟩
    · obtain ⟨k, hk⟩ := LockMap.holds_read_ofActions.mp hlock
      exact hrecorded k hk
  · intro hstore
    obtain ⟨action, haction, haccess⟩ := List.mem_map.mp (hstores.symm.subset hstore)
    exact .inl ⟨action, haction, .inl haccess⟩

end Function

theorem NameMap.exists_traversed_iff {α β ε : Type} {f : String → α → Except ε β} {m : NameMap α}
    {m' : NameMap β} (h : m.traverse f = .ok m') {P : β → Prop} {Q : α → Prop}
    (hiff : ∀ entry ∈ m.entries, ∀ b, f entry.1 entry.2 = .ok b → (P b ↔ Q entry.2)) :
    (∃ entry ∈ m'.entries, P entry.2) ↔ ∃ entry ∈ m.entries, Q entry.2 := by
  have hresults := traverse_eq_ok_iff.mp h
  constructor
  · rintro ⟨entry', hentry', hP⟩
    obtain ⟨entry, hentry, -, hresult⟩ := exists_of_forall₂ hresults entry' hentry'
    exact ⟨entry, hentry, (hiff entry hentry _ hresult).mp hP⟩
  · rintro ⟨entry, hentry, hQ⟩
    obtain ⟨entry', hentry', -, hresult⟩ := exists_of_forall₂ hresults.flip entry hentry
    exact ⟨entry', hentry', (hiff entry hentry _ hresult).mpr hQ⟩

def Bundle.stores (b : Bundle) : List String :=
  b.procedures.entries.flatMap fun entry => entry.2.stores

namespace Program

def stores (p : Program) : List String :=
  p.functions.entries.flatMap fun entry => entry.2.stores

def keptStores (p : Program) : List String :=
  p.functions.entries.flatMap fun entry => entry.2.keptStores

variable {p p' : Program} {name store : String} {f f' : Function}

theorem lowerFunction_eq_ok : p.lowerFunction name f = .ok f' ↔ f.lower p.declared = .ok f' := by
  rw [lowerFunction]
  cases f.lower p.declared <;> simp

theorem compileFunction_eq_ok {code : Code} :
    compileFunction name f = .ok code ↔ f.compile = .ok code := by
  rw [compileFunction]
  cases f.compile <;> simp

theorem analyzeFunction_eq_ok {a : Analysis} :
    analyzeFunction name f = .ok a ↔ f.analyze = .ok a := by
  rw [analyzeFunction]
  cases f.analyze <;> simp

theorem forall₂_of_lower (h : p.lower = .ok p') :
    List.Forall₂ (fun entry entry' => entry.2.lower p.declared = .ok entry'.2)
      p.functions.entries p'.functions.entries := by
  simp only [lower, bind_eq_ok, pure_eq_ok] at h
  obtain ⟨functions, hfunctions, rfl⟩ := h
  exact (NameMap.traverse_eq_ok_iff.mp hfunctions).imp fun _ _ hresult =>
    lowerFunction_eq_ok.mp hresult.2

theorem globalObject_not_mem_of_lower (h : p.lower = .ok p') :
    ∀ entry ∈ p'.functions.entries, .globalObject ∉ Statement.kindsList entry.2.body := by
  intro entry hentry
  obtain ⟨source, -, hsource⟩ := exists_of_forall₂ (forall₂_of_lower h) entry hentry
  exact (Function.settled_of_lower hsource).2.1

theorem mem_stores_of_lower (h : p.lower = .ok p') (hstore : store ∈ p'.stores) :
    store ∈ p.keptStores ∨ Lowering.Declared p.declared store := by
  obtain ⟨entry', hentry', hmem⟩ := List.mem_flatMap.mp hstore
  obtain ⟨entry, hentry, hlower⟩ := exists_of_forall₂ (forall₂_of_lower h) entry' hentry'
  refine (Mark.declared_of_mem_stores (Function.lowers_marks hlower) hmem).imp_left fun hkept => ?_
  exact List.mem_flatMap.mpr ⟨entry, hentry, hkept⟩

theorem keptStores_subset_of_lower (h : p.lower = .ok p') : p.keptStores ⊆ p'.stores := by
  intro store hstore
  obtain ⟨entry, hentry, hmem⟩ := List.mem_flatMap.mp hstore
  obtain ⟨entry', hentry', hlower⟩ := exists_of_forall₂ (forall₂_of_lower h).flip entry hentry
  exact List.mem_flatMap.mpr
    ⟨entry', hentry', Mark.stores_subset_of_lowers (Function.lowers_marks hlower) hmem⟩

theorem declared_eq_some (h : p.globals.isEmpty = false) : p.declared = some p.globals := by
  rw [declared, h]
  rfl

theorem mem_stores_iff_of_compile {b : Bundle} (h : p.lower = .ok p') (hb : p.compile = .ok b) :
    store ∈ b.stores ↔ store ∈ p'.stores := by
  simp only [compile, h, compileLowered, bind_eq_ok, pure_eq_ok, Except.ok.injEq] at hb
  obtain ⟨_, rfl, procedures, hprocedures, rfl⟩ := hb
  rw [Bundle.stores, stores, List.mem_flatMap, List.mem_flatMap]
  refine NameMap.exists_traversed_iff hprocedures (P := fun code => store ∈ code.stores)
    (Q := fun f => store ∈ f.stores) fun entry hentry code hcode => ?_
  have hkinds := globalObject_not_mem_of_lower h entry hentry
  exact (Function.perm_stores_of_compile hkinds (compileFunction_eq_ok.mp hcode)).mem_iff

theorem names_iff_of_analyze {analyses : NameMap Analysis} (h : p.lower = .ok p')
    (ha : p.analyze = .ok analyses) :
    (∃ entry ∈ analyses.entries, entry.2.Names store) ↔ store ∈ p'.stores := by
  simp only [analyze, h, analyzeLowered, bind_eq_ok, Except.ok.injEq] at ha
  obtain ⟨_, rfl, hanalyses⟩ := ha
  rw [stores, List.mem_flatMap]
  refine NameMap.exists_traversed_iff hanalyses (P := fun a => a.Names store)
    (Q := fun f => store ∈ f.stores) fun entry hentry a ha => ?_
  have hkinds := globalObject_not_mem_of_lower h entry hentry
  exact Function.names_analyze_iff hkinds (analyzeFunction_eq_ok.mp ha)

/-- If a program declares its global objects, every store that it accesses once it is lowered is
declared or was named as a store by the program itself. So all are declared exactly if those are,
and then the instructions and the analysis name declared stores only. -/
theorem stores_declared_iff (hglobals : p.globals.isEmpty = false) (h : p.lower = .ok p') :
    (∀ store ∈ p'.stores, store ∈ p.globals ∨ store ∈ p.keptStores) ∧
    ((∀ store ∈ p'.stores, store ∈ p.globals) ↔ ∀ store ∈ p.keptStores, store ∈ p.globals) ∧
    (∀ b, p.compile = .ok b → ∀ store, store ∈ b.stores ↔ store ∈ p'.stores) ∧
    ∀ analyses, p.analyze = .ok analyses → ∀ store,
      (∃ entry ∈ analyses.entries, entry.2.Names store) ↔ store ∈ p'.stores := by
  have hstores : ∀ store ∈ p'.stores, store ∈ p.globals ∨ store ∈ p.keptStores := by
    intro store hstore
    rcases mem_stores_of_lower h hstore with hkept | hdeclared
    · exact .inr hkept
    · exact .inl (hdeclared p.globals (declared_eq_some hglobals))
  refine ⟨hstores, ⟨fun hall store hstore => ?_, fun hkept store hstore => ?_⟩,
    fun b hb store => mem_stores_iff_of_compile h hb,
    fun analyses ha store => names_iff_of_analyze h ha⟩
  · exact hall store (keptStores_subset_of_lower h hstore)
  · exact (hstores store hstore).elim id (hkept store)

/-- A program that declares `users` only. -/
def ofUsers (body : List Statement) : Program where
  version := supportedVersion
  globals := .ofList ["users"]
  functions := NameMap.empty.insert "f" ⟨[], body⟩

theorem stores_ofUsers (body : List Statement) :
    (ofUsers body).stores = Mark.stores (Statement.marksBody Expr.marks body) :=
  List.append_nil _

theorem keptStores_ofUsers (body : List Statement) :
    (ofUsers body).keptStores = Mark.stores (Statement.marksBody Expr.keptMarks body) :=
  List.append_nil _

/-- A user is replaced by another, which is read from the store of users. -/
def replacing : Program :=
  ofUsers [.update (.globalObject "users") [.string "new"]
    (.set (.keyOfObject "users" [.string "old"]))]

theorem stores_declared_iff_replacing :
    ∃ p', replacing.lower = .ok p' ∧ (∀ store ∈ p'.stores, store ∈ replacing.globals) ∧
      ∃ b, replacing.compile = .ok b ∧ ∀ store, store ∈ b.stores ↔ store ∈ p'.stores := by
  obtain ⟨p', hlower⟩ : ∃ p', replacing.lower = .ok p' := ⟨_, rfl⟩
  obtain ⟨-, hiff, hcompile, -⟩ := stores_declared_iff rfl hlower
  refine ⟨p', hlower, hiff.mpr ?_, _, rfl, hcompile _ rfl⟩
  have hkept : replacing.keptStores = ["users"] := by
    rw [replacing, keptStores_ofUsers]
    simp [Statement.marksBody, Statement.marksWith, Expr.keptMarks_eq, Expr.places, Expr.children,
      Expr.mark?, Edit.inputs, Target.mark, Mark.store?]
  rw [hkept]
  decide

/-- An order is stored under its own key. -/
def keeping : Program :=
  ofUsers [.setKey "orders" [.string "k"] (.keyOfObject "orders" [.string "k"])]

/-- The same, with `orders` as a global object. -/
def referring : Program :=
  ofUsers [.update (.globalObject "orders") [.string "k"]
    (.set (.selection (.globalObject "orders") [.string "k"]))]

/-- Declared global objects are no closed world: `orders` is not declared, and it is refused as a
global object, but as a store it is accessed and locked. -/
theorem orders_accessed_undeclared :
    "orders" ∉ keeping.globals ∧
      (∃ p', keeping.lower = .ok p' ∧ "orders" ∈ p'.stores) ∧
      (∃ b, keeping.compile = .ok b ∧ "orders" ∈ b.stores) ∧
      (∃ analyses, keeping.analyze = .ok analyses ∧
        (analyses.get? "f").bind (·.locks.get? "orders") = some .write) ∧
      ∃ failure, referring.lower = .error failure ∧ failure.kind = .unknownGlobal := by
  refine ⟨by decide, ⟨keeping, rfl, ?_⟩, ⟨_, rfl, by decide⟩, ⟨_, rfl, by decide⟩, _, rfl, rfl⟩
  rw [keeping, stores_ofUsers]
  simp [Statement.marksBody, Statement.marksWith, Mark.store?]

end Program

end StoredProcedure
