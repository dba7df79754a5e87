import StoredProcedure.Proofs.Choice
import StoredProcedure.Proofs.ExprAcceptance
import StoredProcedure.Proofs.Walk

namespace StoredProcedure

/-- What a statement asks of the names in scope and of its own form, its expressions and the
statements inside it apart. -/
def Statement.WellFormed (names : List String) : Statement → Prop
  | .update (.globalObject _) _ _ => False
  | .update (.saved name) level edit => name ∈ names ∧ (edit = .deleteField → level ≠ [])
  | .choice branches => Choice.WellShaped branches
  | .setKey _ key _ | .deleteKey _ key | .pushAtKey _ key _ => key ≠ []
  | _ => True

/-- A well-formed statement, each node of whose expressions fits the names in scope. -/
def Site.Admits (fits : List String → Expr → Prop) (site : Site) : Prop :=
  site.statement.WellFormed site.names ∧
    ∀ e ∈ site.statement.exprs, ∀ node ∈ e.nodes, fits site.names node

theorem Site.admits_mk {fits : List String → Expr → Prop} {names : List String} {s : Statement} :
    Site.Admits fits ⟨names, s⟩ ↔
      s.WellFormed names ∧ ∀ e ∈ s.exprs, ∀ node ∈ e.nodes, fits names node :=
  Iff.rfl

namespace Statement

/-- The conditions of branches fit, and the statements in their bodies are admitted. -/
def BranchesAdmit (fits : List String → Expr → Prop) (names : List String)
    (branches : List Branch) : Prop :=
  OnBranches (fun e => ∀ node ∈ e.nodes, fits names node) (Site.Admits fits) names branches

theorem branchesAdmit_cons {fits : List String → Expr → Prop} {names : List String} {guard : Guard}
    {body : List Statement} {rest : List Branch} :
    BranchesAdmit fits names ((guard, body) :: rest) ↔
      (∀ e ∈ guard.conditions, ∀ node ∈ e.nodes, fits names node) ∧
        (∀ site ∈ sitesBody names body, site.Admits fits) ∧ BranchesAdmit fits names rest :=
  onBranches_cons

section Summarize

theorem shape_summarize {s : Statement} {flow after : Flow} (h : s.summarize flow = .ok after) :
    after.track.shape = s.scopeAfter flow.track.shape := by
  have hwalk := follows_visit s _ flow after rfl h flow rfl
  obtain rfl := Except.ok.inj (h.symm.trans hwalk)
  exact (carries_visit s _).track.shape_eq _ rfl

theorem names_scopeAfter (slots : Slots) (s : Statement) :
    (s.scopeAfter slots).names = s.declares ++ slots.names := by
  cases s <;> rfl

theorem names_summarize {s : Statement} {flow after : Flow} (h : s.summarize flow = .ok after) :
    after.taints.names = s.declares ++ flow.taints.names := by
  rw [← Scope.names_shape, ← Scope.names_shape flow.taints, ← names_scopeAfter]
  exact congrArg Scope.names (shape_summarize h)

theorem names_leave_summarizeBody {body : List Statement} {flow after : Flow}
    (h : summarizeBody flow body = .ok after) :
    after.leave.taints.names = flow.leave.taints.names := by
  have hwalk := follows_visitBody body _ flow after rfl h flow rfl
  obtain rfl := Except.ok.inj (h.symm.trans hwalk)
  have hshape := (carries_visitBody body _).track.shape_eq flow.track rfl
  have hleave := congrArg Scope.leave hshape
  rw [leave_scopeAfterBody] at hleave
  have hnames := congrArg Scope.names hleave
  rwa [Track.shape, Track.shape, ← Scope.shape_leave, ← Scope.shape_leave, Scope.names_shape,
    Scope.names_shape] at hnames

theorem exists_summarizeUpdate_iff {flow : Flow} {name : String} {level : List Expr} {edit : Edit} :
    (∃ after, summarizeUpdate flow name level edit = .ok after) ↔
      (name ∈ flow.taints.names ∧ (edit = .deleteField → level ≠ [])) ∧
        ∀ e ∈ level ++ edit.inputs, ∀ node ∈ e.nodes, node.InScope flow.taints.names := by
  cases edit with
  | push _ | set _ =>
      simp only [summarizeUpdate, exists_bind_eq_ok, exists_pure_eq_ok, and_true, exists_and_right,
        Taints.exists_resolve_iff, Expr.exists_readsList_iff, Expr.exists_reads_iff]
      simp
  | deleteField =>
      simp only [summarizeUpdate, exists_bind_eq_ok, exists_pure_eq_ok, and_true, exists_and_right,
        Taints.exists_resolve_iff, Expr.exists_readsList_iff, Expr.exists_reads_iff,
        Lowering.exists_requireField_iff]
      simp [and_assoc]

theorem exists_summarizeGuard_iff {flow : Flow} {guard : Guard} :
    (∃ after, summarizeGuard flow guard = .ok after) ↔
      ∀ e ∈ guard.conditions, ∀ node ∈ e.nodes, node.InScope flow.taints.names := by
  cases guard with
  | when condition =>
      simp only [summarizeGuard, exists_bind_eq_ok, exists_pure_eq_ok, and_true, Expr.exists_reads_iff]
      simp [Guard.conditions]
  | otherwise | lastly => simp [summarizeGuard, Guard.conditions]

theorem taints_summarizeGuard {flow after : Flow} {guard : Guard}
    (h : summarizeGuard flow guard = .ok after) : after.taints = flow.taints := by
  cases guard with
  | when condition =>
      obtain ⟨reads, -, hguard⟩ := bind_eq_ok.mp h
      obtain rfl := pure_eq_ok.mp hguard
      rfl
  | otherwise | lastly =>
      obtain rfl := Except.ok.inj h
      rfl

mutual
theorem exists_summarize_iff : (s : Statement) → (flow : Flow) →
    ((∃ after, s.summarize flow = .ok after) ↔
      Site.Admits Expr.InScope ⟨flow.taints.names, s⟩ ∧
        ∀ site ∈ s.sitesWithin flow.taints.names, site.Admits Expr.InScope)
  | .ret value, flow => by
      simp only [summarize, ← Expr.readsList_toList, exists_bind_eq_ok, exists_pure_eq_ok, and_true,
        Expr.exists_readsList_iff, Expr.exists_reads_iff]
      simp [Site.admits_mk, WellFormed, exprs, sitesWithin]
  | .save name value, flow => by
      simp only [summarize, exists_bind_eq_ok, exists_pure_eq_ok, and_true, Expr.exists_reads_iff]
      simp [Site.admits_mk, WellFormed, exprs, sitesWithin]
  | .update (.globalObject _) _ _, flow => by
      simp [summarize, Site.admits_mk, WellFormed]
  | .update (.saved name) level edit, flow => by
      rw [summarize, exists_summarizeUpdate_iff]
      simp [Site.admits_mk, WellFormed, exprs, sitesWithin]
  | .choice branches, flow => by
      simp only [summarize, exists_bind_eq_ok, exists_and_right, Choice.exists_shape_iff,
        exists_summarizeBranches_iff branches flow]
      simp [Site.admits_mk, WellFormed, exprs, sitesWithin, BranchesAdmit, OnBranches, and_assoc]
  | .forEach source item body, flow => by
      have hbody : ∀ reads, source.reads flow.taints = .ok reads →
          ((∃ after, (do
            let after ← summarizeBody ((flow.guard reads).enter.declare item reads.taint) body
            return after.leave) = .ok after) ↔
            ∀ site ∈ sitesBody (item :: flow.taints.names) body, site.Admits Expr.InScope) := by
        intro reads _
        simp only [exists_bind_eq_ok, exists_pure_eq_ok, and_true, exists_summarizeBody_iff body]
        rfl
      rw [summarize, exists_bind_iff_and hbody, Expr.exists_reads_iff]
      simp [Site.admits_mk, WellFormed, exprs, sitesWithin]
  | .call function args, flow => by
      simp only [summarize, exists_bind_eq_ok, exists_pure_eq_ok, and_true,
        Expr.exists_readsList_iff, Expr.exists_reads_iff]
      simp [Site.admits_mk, WellFormed, exprs, sitesWithin]
  | .noop, flow => by
      simp [summarize, Site.admits_mk, WellFormed, exprs, sitesWithin]
  | .setKey store key value, flow | .deleteKey store key, flow
  | .pushAtKey store key values, flow => by
      simp only [summarize, exists_bind_eq_ok, exists_pure_eq_ok, and_true, exists_and_right,
        Expr.exists_readsList_iff, Expr.exists_reads_iff, Lowering.exists_requireKey_iff]
      simp [Site.admits_mk, WellFormed, exprs, sitesWithin]
termination_by structural s => s

theorem exists_summarizeBody_iff : (body : List Statement) → (flow : Flow) →
    ((∃ after, summarizeBody flow body = .ok after) ↔
      ∀ site ∈ sitesBody flow.taints.names body, site.Admits Expr.InScope)
  | [], flow => by simp [summarizeBody, sitesBody]
  | s :: rest, flow => by
      have hrest : ∀ after, s.summarize flow = .ok after →
          ((∃ final, summarizeBody after rest = .ok final) ↔
            ∀ site ∈ sitesBody (s.declares ++ flow.taints.names) rest,
              site.Admits Expr.InScope) := by
        intro after hafter
        rw [exists_summarizeBody_iff rest after, names_summarize hafter]
      rw [summarizeBody, exists_bind_iff_and hrest, exists_summarize_iff s flow,
        forall_sitesBody_cons]
termination_by structural body => body

theorem exists_summarizeBranches_iff : (branches : List (Guard × List Statement)) →
    (flow : Flow) →
    ((∃ after, summarizeBranches flow branches = .ok after) ↔
      BranchesAdmit Expr.InScope flow.taints.names branches)
  | [], flow => by simp [summarizeBranches, BranchesAdmit, OnBranches, sitesBranches]
  | (guard, body) :: rest, flow => by
      have hrest : ∀ start : Flow, start.taints = flow.taints → ∀ after,
          summarizeBody start.enter body = .ok after →
          ((∃ final, summarizeBranches after.leave rest = .ok final) ↔
            BranchesAdmit Expr.InScope flow.taints.names rest) := by
        intro start hstart after hafter
        have hnames : after.leave.taints.names = start.taints.names :=
          names_leave_summarizeBody hafter
        rw [exists_summarizeBranches_iff rest after.leave, hnames, hstart]
      have hbody : ∀ start, summarizeGuard flow guard = .ok start →
          ((∃ final, (summarizeBody start.enter body >>= fun after =>
            summarizeBranches after.leave rest) = .ok final) ↔
          (∀ site ∈ sitesBody flow.taints.names body, site.Admits Expr.InScope) ∧
            BranchesAdmit Expr.InScope flow.taints.names rest) := by
        intro start hstart
        have htaints := taints_summarizeGuard hstart
        rw [exists_bind_iff_and (hrest start htaints), exists_summarizeBody_iff body start.enter]
        simp only [Flow.enter, Scope.names_enter, htaints]
      rw [summarizeBranches, exists_bind_iff_and hbody, exists_summarizeGuard_iff,
        branchesAdmit_cons]
termination_by structural branches => branches
end

end Summarize

section Compile

theorem exists_compileAppends_iff (slots : Slots) (slot : Nat) (es : List Expr) :
    (∃ code, Expr.compileAppends slots slot es = .ok code) ↔
      ∀ e ∈ es, ∃ code, e.compile slots = .ok code :=
  Expr.exists_list_iff (g := Expr.compileAppends slots slot) rfl (fun _ _ => rfl) es

theorem exists_compileArray_iff (slots : Slots) (es : List Expr) :
    (∃ code, Expr.compileArray slots es = .ok code) ↔
      ∀ e ∈ es, ∃ code, e.compile slots = .ok code := by
  simp only [Expr.compileArray, exists_bind_eq_ok, exists_pure_eq_ok, and_true,
    Expr.exists_compilePushes_iff]

theorem exists_compileEdit_iff {slots : Slots} {name : String} {slot : Nat} {level : List Expr}
    {edit : Edit} :
    (∃ code, edit.compile slots name slot level = .ok code) ↔
      (edit = .deleteField → level ≠ []) ∧
        ∀ e ∈ level ++ edit.inputs, ∀ node ∈ e.nodes, node.Compilable slots.names := by
  cases edit with
  | push values =>
      rw [Edit.compile]
      split
      · rename_i hempty
        obtain rfl := List.isEmpty_iff.mp hempty
        simp [exists_compileAppends_iff, Expr.exists_compile_iff, Edit.inputs]
      · simp only [exists_bind_eq_ok, exists_pure_eq_ok, and_true, exists_and_right,
          Expr.exists_compileList_iff, exists_compileArray_iff, Expr.exists_compile_iff]
        simp [Edit.inputs, or_imp, forall_and]
  | deleteField =>
      simp only [Edit.compile, exists_bind_eq_ok, exists_pure_eq_ok, and_true, exists_and_right,
        Lowering.exists_requireField_iff, Expr.exists_compileList_iff, Expr.exists_compile_iff]
      simp [Edit.inputs]
  | set value =>
      rw [Edit.compile]
      split
      · rename_i hempty
        obtain rfl := List.isEmpty_iff.mp hempty
        simp only [exists_bind_eq_ok, exists_pure_eq_ok, and_true, Expr.exists_compile_iff]
        simp [Edit.inputs]
      · simp only [exists_bind_eq_ok, exists_pure_eq_ok, and_true, exists_and_right,
          Expr.exists_compileList_iff, Expr.exists_compile_iff]
        simp [Edit.inputs, or_imp, forall_and]

theorem exists_compileGuard_iff {slots : Slots} {body : Code} {guard : Guard} :
    (∃ test, guard.compile slots body = .ok test) ↔
      ∀ e ∈ guard.conditions, ∀ node ∈ e.nodes, node.Compilable slots.names := by
  cases guard with
  | when condition =>
      simp only [Guard.compile, exists_bind_eq_ok, exists_pure_eq_ok, and_true,
        Expr.exists_compile_iff]
      simp [Guard.conditions]
  | otherwise | lastly => simp [Guard.compile, Guard.conditions]

mutual
theorem exists_compile_iff : (s : Statement) → (slots : Slots) →
    ((∃ result, s.compile slots = .ok result) ↔
      Site.Admits Expr.Compilable ⟨slots.names, s⟩ ∧
        ∀ site ∈ s.sitesWithin slots.names, site.Admits Expr.Compilable)
  | .ret none, slots | .noop, slots => by
      simp [compile, Site.admits_mk, WellFormed, exprs, sitesWithin]
  | .ret (some value), slots | .save _ value, slots => by
      simp only [compile, exists_bind_eq_ok, exists_pure_eq_ok, and_true, Expr.exists_compile_iff]
      simp [Site.admits_mk, WellFormed, exprs, sitesWithin]
  | .update (.globalObject _) _ _, slots => by
      simp [compile, Site.admits_mk, WellFormed]
  | .update (.saved name) level edit, slots => by
      simp only [compile, exists_bind_eq_ok, exists_pure_eq_ok, and_true, exists_and_right,
        Slots.exists_resolve_iff, exists_compileEdit_iff]
      simp [Site.admits_mk, WellFormed, exprs, sitesWithin, and_assoc]
  | .choice branches, slots => by
      have hbranches : ∀ shape, Choice.shape branches = .ok shape →
          ((∃ result, (do
            let (arms, last) ← compileBranches slots branches
            return (arms ++ last, slots)) = .ok result) ↔
            BranchesAdmit Expr.Compilable slots.names branches) := by
        intro shape hshape
        have hshaped := Choice.exists_shape_iff.mp ⟨shape, hshape⟩
        simp only [exists_bind_eq_ok, exists_pure_eq_ok, and_true,
          exists_compileBranches_iff branches slots fun _ _ => hshaped.last_ends]
      rw [compile, exists_bind_iff_and hbranches, Choice.exists_shape_iff]
      simp [Site.admits_mk, WellFormed, exprs, sitesWithin, BranchesAdmit, OnBranches, and_assoc]
  | .forEach source item body, slots => by
      simp only [compile, exists_bind_eq_ok, exists_pure_eq_ok, and_true, exists_and_right,
        Expr.exists_compile_iff, exists_compileBody_iff body]
      simp [Site.admits_mk, WellFormed, exprs, sitesWithin]
  | .call function args, slots => by
      simp only [compile, exists_bind_eq_ok, exists_pure_eq_ok, and_true,
        Expr.exists_compileList_iff, Expr.exists_compile_iff]
      simp [Site.admits_mk, WellFormed, exprs, sitesWithin]
  | .setKey _ [] _, slots | .deleteKey _ [], slots | .pushAtKey _ [] _, slots => by
      simp [compile, Site.admits_mk, WellFormed]
  | .setKey store (first :: rest) value, slots => by
      simp only [compile, exists_bind_eq_ok, exists_pure_eq_ok, and_true, exists_and_right,
        Expr.exists_compileList_iff, Expr.exists_compile_iff]
      simp only [Site.admits_mk, WellFormed, exprs, sitesWithin, List.cons_append,
        List.forall_mem_cons, List.forall_mem_append]
      simp [← and_assoc, and_comm]
  | .deleteKey store (first :: rest), slots => by
      simp only [compile, exists_bind_eq_ok, exists_pure_eq_ok, and_true, exists_and_right,
        Expr.exists_compileList_iff, Expr.exists_compile_iff]
      simp [Site.admits_mk, WellFormed, exprs, sitesWithin, and_comm]
  | .pushAtKey store (first :: rest) values, slots => by
      simp only [compile, exists_bind_eq_ok, exists_pure_eq_ok, and_true, exists_and_right,
        Expr.exists_compileList_iff, exists_compileArray_iff, Expr.exists_compile_iff]
      simp only [Site.admits_mk, WellFormed, exprs, sitesWithin, List.cons_append,
        List.forall_mem_cons, List.forall_mem_append]
      simp [← and_assoc, and_comm]
termination_by structural s => s

theorem exists_compileBody_iff : (body : List Statement) → (slots : Slots) →
    ((∃ result, compileBody slots body = .ok result) ↔
      ∀ site ∈ sitesBody slots.names body, site.Admits Expr.Compilable)
  | [], slots => by simp [compileBody, sitesBody]
  | s :: rest, slots => by
      have hrest : ∀ result, s.compile slots = .ok result →
          ((∃ final, compileBody result.2 rest = .ok final) ↔
            ∀ site ∈ sitesBody (s.declares ++ slots.names) rest,
              site.Admits Expr.Compilable) := by
        rintro ⟨code, after⟩ hresult
        rw [exists_compileBody_iff rest after, eq_scopeAfter_of_compile hresult, names_scopeAfter]
      rw [compileBody, exists_bind_iff_and fun result hresult => by
        simp only [exists_bind_eq_ok, exists_pure_eq_ok, and_true]
        exact hrest result hresult, exists_compile_iff s slots,
        forall_sitesBody_cons]
termination_by structural body => body

theorem exists_compileBranches_iff : (branches : List (Guard × List Statement)) →
    (slots : Slots) → (∀ body rest, (.lastly, body) :: rest <:+ branches → rest = []) →
    ((∃ result, compileBranches slots branches = .ok result) ↔
      BranchesAdmit Expr.Compilable slots.names branches)
  | [], slots, _ => by simp [compileBranches, BranchesAdmit, OnBranches, sitesBranches]
  | (.lastly, body) :: rest, slots, hends => by
      obtain rfl := hends body rest (List.suffix_refl _)
      simp only [compileBranches, exists_bind_eq_ok, exists_pure_eq_ok, and_true,
        exists_compileBody_iff body slots.enter, branchesAdmit_cons]
      simp [Guard.conditions, BranchesAdmit, OnBranches, sitesBranches]
  | (.when condition, body) :: rest, slots, hends | (.otherwise, body) :: rest, slots, hends => by
      have hrest := exists_compileBranches_iff rest slots fun body others hsuffix =>
        hends body others (hsuffix.trans (List.suffix_cons _ _))
      simp only [compileBranches, exists_bind_eq_ok, exists_pure_eq_ok, and_true, exists_and_right,
        exists_compileGuard_iff, exists_compileBody_iff body slots.enter, branchesAdmit_cons, hrest]
      exact and_left_comm
termination_by structural branches => branches
end

end Compile

end Statement

/-- The key of the document that a statement writes, if it writes a store. -/
def Statement.storeKey? : Statement → Option (List Expr)
  | .setKey _ key _ | .deleteKey _ key | .pushAtKey _ key _ => some key
  | _ => none

namespace Function

theorem names_prologue (slots : Slots) (inputs : List Input) :
    (prologue slots inputs).2.names = (inputs.map Input.name).reverse ++ slots.names := by
  induction inputs generalizing slots with
  | nil => rfl
  | cons input rest ih =>
      rw [prologue, ih, Scope.names_add, List.map_cons, List.reverse_cons, List.append_assoc]
      rfl

theorem names_initialFlow (f : Function) :
    f.initialFlow.taints.names = (f.inputs.map Input.name).reverse := by
  have hfold : ∀ (inputs : List Input) (taints : Taints),
      (inputs.foldl (fun taints input => taints.add input.name .empty) taints).names =
        (inputs.map Input.name).reverse ++ taints.names := by
    intro inputs
    induction inputs with
    | nil => exact fun _ => rfl
    | cons input rest ih =>
        intro taints
        rw [List.foldl_cons, ih, Scope.names_add, List.map_cons, List.reverse_cons,
          List.append_assoc]
        rfl
  rw [initialFlow, hfold]
  exact List.append_nil _

theorem exists_summarize_iff (f : Function) :
    (∃ actions, f.summarize = .ok actions) ↔ ∀ site ∈ f.sites, site.Admits Expr.InScope := by
  simp only [summarize, exists_bind_eq_ok, exists_pure_eq_ok, and_true,
    Statement.exists_summarizeBody_iff, names_initialFlow, sites]

theorem exists_compile_iff (f : Function) :
    (∃ code, f.compile = .ok code) ↔ ∀ site ∈ f.sites, site.Admits Expr.Compilable := by
  have hnames := names_prologue Scope.empty f.inputs
  rw [show (Scope.empty : Slots).names = [] from rfl, List.append_nil] at hnames
  simp only [compile, exists_bind_eq_ok, exists_pure_eq_ok, and_true,
    Statement.exists_compileBody_iff, hnames, sites]

/-- What a function needs to be analyzed. -/
structure WellFormed (f : Function) : Prop where
  noGlobal : ∀ name, .globalObject name ∉ f.exprs
  noGlobalTarget : ∀ name level edit, .update (.globalObject name) level edit ∉ f.statements
  resolved : ∀ site ∈ f.sites, ∀ e ∈ site.statement.exprs, ∀ name, .saved name ∈ e.nodes →
    name ∈ site.names
  targetResolved : ∀ site ∈ f.sites, ∀ name level edit,
    site.statement = .update (.saved name) level edit → name ∈ site.names
  choices : ∀ branches, .choice branches ∈ f.statements → Choice.WellShaped branches
  keyed : ∀ s ∈ f.statements, s.storeKey? ≠ some []
  deletions : ∀ name, .update (.saved name) [] .deleteField ∉ f.statements

theorem mem_exprs {f : Function} {node : Expr} :
    node ∈ f.exprs ↔ ∃ site ∈ f.sites, ∃ e ∈ site.statement.exprs, node ∈ e.nodes := by
  simp [exprs, statements]

theorem wellFormed_iff (f : Function) :
    f.WellFormed ↔ ∀ site ∈ f.sites, site.Admits Expr.InScope := by
  constructor
  · intro h site hsite
    have hstatement : site.statement ∈ f.statements := List.mem_map_of_mem hsite
    constructor
    · rcases site with ⟨names, s⟩
      cases s with
      | update target level edit =>
          cases target with
          | globalObject name => exact h.noGlobalTarget name level edit hstatement
          | saved name =>
              refine ⟨h.targetResolved _ hsite name level edit rfl, ?_⟩
              rintro rfl rfl
              exact h.deletions name hstatement
      | choice branches => exact h.choices branches hstatement
      | setKey _ key _ | deleteKey _ key | pushAtKey _ key _ =>
          rintro rfl
          exact h.keyed _ hstatement rfl
      | _ => trivial
    · intro e he node hnode
      cases node with
      | saved name => exact h.resolved site hsite e he name hnode
      | globalObject name => exact h.noGlobal name (mem_exprs.mpr ⟨site, hsite, e, he, hnode⟩)
      | _ => trivial
  · intro h
    have hstatement : ∀ s ∈ f.statements, ∃ names, s.WellFormed names := by
      intro s hs
      obtain ⟨site, hsite, rfl⟩ := List.mem_map.mp hs
      exact ⟨site.names, (h site hsite).1⟩
    constructor
    · intro name hname
      obtain ⟨site, hsite, e, he, hnode⟩ := mem_exprs.mp hname
      exact (h site hsite).2 e he _ hnode
    · intro name level edit hs
      obtain ⟨names, hwell⟩ := hstatement _ hs
      exact hwell
    · intro site hsite e he name hnode
      exact (h site hsite).2 e he _ hnode
    · intro site hsite name level edit hs
      have hwell := (h site hsite).1
      rw [hs] at hwell
      exact hwell.1
    · intro branches hs
      obtain ⟨names, hwell⟩ := hstatement _ hs
      exact hwell
    · intro s hs hkey
      obtain ⟨names, hwell⟩ := hstatement s hs
      cases s with
      | setKey _ key _ | deleteKey _ key | pushAtKey _ key _ => exact hwell (Option.some.inj hkey)
      | _ => cases hkey
    · intro name hs
      obtain ⟨names, hwell⟩ := hstatement _ hs
      exact hwell.2 rfl rfl

theorem compilable_iff (f : Function) :
    (∀ site ∈ f.sites, site.Admits Expr.Compilable) ↔
      (∀ site ∈ f.sites, site.Admits Expr.InScope) ∧ ∀ node ∈ f.exprs, node.Complete := by
  constructor
  · intro h
    refine ⟨fun site hsite => ⟨(h site hsite).1, fun e he node hnode => ?_⟩, fun node hnode => ?_⟩
    · exact ((h site hsite).2 e he node hnode).1
    · obtain ⟨site, hsite, e, he, hnode⟩ := mem_exprs.mp hnode
      exact ((h site hsite).2 e he node hnode).2
  · rintro ⟨hscope, hcomplete⟩ site hsite
    refine ⟨(hscope site hsite).1, fun e he node hnode => ⟨(hscope site hsite).2 e he node hnode, ?_⟩⟩
    exact hcomplete node (mem_exprs.mpr ⟨site, hsite, e, he, hnode⟩)

/-- A function has a summary exactly if it is well formed, and code exactly if moreover each keyed
access has a key and each role a name. -/
theorem accepted_iff_wellFormed (f : Function) :
    ((∃ actions, f.summarize = .ok actions) ↔ f.WellFormed) ∧
      ((∃ code, f.compile = .ok code) ↔
        f.WellFormed ∧ (∀ store, .keyOfObject store [] ∉ f.exprs) ∧
          ∀ schema state, .role schema state ∈ f.exprs →
            ∃ name, schema.roleName? = some name) := by
  rw [exists_summarize_iff, exists_compile_iff, compilable_iff, wellFormed_iff]
  refine ⟨Iff.rfl, and_congr_right fun _ => ?_⟩
  constructor
  · intro h
    refine ⟨fun store hstore => ?_, fun schema state hrole => h _ hrole⟩
    exact h _ hstore rfl
  · rintro ⟨hkeys, hroles⟩ node hnode
    cases node with
    | keyOfObject store key =>
        rintro rfl
        exact hkeys store hnode
    | role schema state => exact hroles schema state hnode
    | _ => trivial

end Function

end StoredProcedure
