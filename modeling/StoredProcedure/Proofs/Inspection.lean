import StoredProcedure.Proofs.Ledger

namespace StoredProcedure

namespace Ledger

/-- What came of evaluating expressions, in place and from the variables in scope. -/
inductive Evaluated (l after : Ledger) : Except Fault Unit → Except Fault Reads → Prop
  | error (fault : Fault) : Evaluated l after (.error fault) (.error fault)
  | ok (reads : Reads) (actions : after.actions = l.actions ++ reads.actions)
      (groups : after.groups = l.groups.modifyHead (· ∪ reads.taint)) :
      Evaluated l after (.ok ()) (.ok reads)

/-- A computation that evaluates expressions: it may add to the innermost group, and reads what `c`
reads. -/
def Evaluates (x : Stateful Ledger Unit) (c : Taints → Except Fault Reads) : Prop :=
  ∀ l, ∃ result after, x.run l = some (result, after) ∧ l.Steady after ∧
    after.groups.tail = l.groups.tail ∧ after.groups.length = l.groups.length ∧
      ∀ taints, l.Displays taints → Evaluated l after result (c taints)

namespace Evaluates

variable {x y : Stateful Ledger Unit} {c d : Taints → Except Fault Reads}

theorem pure : Evaluates (pure ()) fun _ => .ok .none := by
  intro l
  refine ⟨.ok (), l, rfl, .refl l, rfl, rfl, fun _ _ => .ok .none (List.append_nil _).symm ?_⟩
  rcases l.groups with _ | ⟨group, rest⟩ <;> rfl

theorem throw (fault : Fault) : Evaluates (throw fault) fun _ => .error fault :=
  fun l => ⟨.error fault, l, rfl, .refl l, rfl, rfl, fun _ _ => .error fault⟩

theorem andThen (hx : Evaluates x c) (hy : Evaluates y d) :
    Evaluates (x >>= fun _ => y) fun taints => do
      let first ← c taints
      return first ++ (← d taints) := by
  intro l
  obtain ⟨result, middle, hrun, hsteady, htail, hlength, hevaluated⟩ := hx l
  cases result with
  | error fault =>
      refine ⟨.error fault, middle, Stateful.run_bind_error hrun _, hsteady, htail, hlength, ?_⟩
      intro taints hdisplays
      have hfirst := hevaluated taints hdisplays
      change Evaluated l middle _ (c taints >>= _)
      generalize c taints = reads at hfirst
      cases hfirst
      exact .error fault
  | ok _ =>
      obtain ⟨final, after, hfinal, hsteady', htail', hlength', hevaluated'⟩ := hy middle
      refine ⟨final, after, (Stateful.run_bind_ok hrun _).trans hfinal, hsteady.trans hsteady',
        htail'.trans htail, hlength'.trans hlength, ?_⟩
      intro taints hdisplays
      have hfirst := hevaluated taints hdisplays
      have hsecond := hevaluated' taints (hdisplays.of_steady hsteady)
      change Evaluated l after _ (c taints >>= fun first => d taints >>= _)
      generalize c taints = reads at hfirst
      generalize d taints = reads' at hsecond
      cases hfirst with
      | ok first hactions hgroups =>
          cases hsecond with
          | error fault => exact .error fault
          | ok second hactions' hgroups' =>
              apply Evaluated.ok (first ++ second)
              · rw [hactions', hactions, List.append_assoc]
                rfl
              · rw [hgroups', hgroups]
                rcases l.groups with _ | ⟨group, rest⟩
                · rfl
                · exact congrArg (· :: rest) (NameSet.union_assoc group first.taint second.taint)

theorem congr (hx : Evaluates x c) (h : ∀ taints, d taints = c taints) : Evaluates x d :=
  funext h ▸ hx

theorem saved (name : String) :
    Evaluates (Expr.inspect (.saved name)) fun taints => do return ⟨[], ← taints.resolve name⟩ := by
  intro l
  have hfind : (find name).run l = some (l.table.resolve name, l) :=
    Stateful.run_ofExcept (l.table.resolve name) l
  cases hname : l.table.resolve name with
  | error fault =>
      rw [hname] at hfind
      refine ⟨.error fault, l, Stateful.run_bind_error hfind _, .refl l, rfl, rfl, ?_⟩
      intro taints hdisplays
      simp only [hdisplays.resolve, hname]
      exact .error fault
  | ok slot =>
      rw [hname] at hfind
      -- Where nothing was noted the empty set is now; `taintAt` does not tell them apart.
      have hsame : ∀ other, (l.note slot (l.taintAt slot)).taintAt other = l.taintAt other := by
        intro other
        by_cases hother : other = slot
        · rw [hother, taintAt_note_self]
        · rw [taintAt_note_of_ne l hother]
      refine ⟨.ok (), (l.note slot (l.taintAt slot)).reached (l.taintAt slot),
        Stateful.run_bind_ok hfind _, ⟨rfl, rfl, hsame, fun hdense hbounded => ?_⟩,
        List.tail_modifyHead, List.length_modifyHead, ?_⟩
      · exact hbounded.note (hdense.resolve_lt hname) (l.taintAt slot)
      · intro taints hdisplays
        simp only [hdisplays.resolve, hname]
        exact .ok ⟨[], l.taintAt slot⟩ (List.append_nil _).symm rfl

end Evaluates

/-- What reached a group, and what the expressions in it read. -/
inductive Gathered (l after : Ledger) : Except Fault NameSet → Except Fault Reads → Prop
  | error (fault : Fault) : Gathered l after (.error fault) (.error fault)
  | ok (reads : Reads) (actions : after.actions = l.actions ++ reads.actions) :
      Gathered l after (.ok reads.taint) (.ok reads)

theorem exists_run_inGroup {x : Stateful Ledger Unit} {c : Taints → Except Fault Reads}
    (hx : Evaluates x c) (l : Ledger) :
    ∃ result after, (inGroup x).run l = some (result, after) ∧ l.Steady after ∧
      after.groups = l.groups ∧ ∀ taints, l.Displays taints → Gathered l after result (c taints) := by
  obtain ⟨result, after, hrun, hsteady, htail, -, hevaluated⟩ := hx l.openGroup
  have hclose : closeGroup.run after =
      some (.ok (after.groups.headD .empty), { after with groups := after.groups.tail }) := rfl
  have hgroup := Stateful.run_bind_pure (Stateful.run_between hrun hclose) Prod.snd
  refine ⟨_, _, hgroup, ⟨hsteady.table, hsteady.path, hsteady.taintAt, hsteady.bounded⟩, htail, ?_⟩
  intro taints hdisplays
  have hreads := hevaluated taints ⟨hdisplays.dense, hdisplays.shape, hdisplays.values⟩
  generalize c taints = reads at hreads
  cases hreads with
  | error fault => exact .error fault
  | ok reads hactions hgroups =>
      have htaint : after.groups.headD .empty = reads.taint := by
        rw [hgroups]
        exact NameSet.empty_union reads.taint
      change Gathered l _ (.ok (after.groups.headD .empty)) _
      rw [htaint]
      exact .ok reads hactions

theorem Evaluates.readStore {x : Stateful Ledger Unit} {c : Taints → Except Fault Reads}
    (hx : Evaluates x c) (store : String) :
    Evaluates (readStore store x) fun taints => do return (← c taints).store store := by
  intro l
  obtain ⟨result, middle, hrun, hsteady, hgroups, hgathered⟩ := exists_run_inGroup hx l
  cases result with
  | error fault =>
      refine ⟨.error fault, middle, Stateful.run_bind_error hrun _, hsteady, by rw [hgroups],
        by rw [hgroups], ?_⟩
      intro taints hdisplays
      have hreads := hgathered taints hdisplays
      change Evaluated l middle _ (c taints >>= _)
      generalize c taints = reads at hreads
      cases hreads
      exact .error fault
  | ok taint =>
      refine ⟨.ok (), (middle.recorded (.get store)).reached (taint.insert store),
        Stateful.run_bind_ok hrun _,
        ⟨hsteady.table, hsteady.path, hsteady.taintAt, hsteady.bounded⟩, ?_, ?_, ?_⟩
      · exact List.tail_modifyHead.trans (by rw [recorded, hgroups])
      · exact List.length_modifyHead.trans (by rw [recorded, hgroups])
      · intro taints hdisplays
        have hreads := hgathered taints hdisplays
        change Evaluated l _ _ (c taints >>= _)
        generalize c taints = reads at hreads
        cases hreads with
        | ok reads hactions =>
            apply Evaluated.ok (reads.store store)
            · change middle.actions ++ _ = _
              rw [hactions, List.append_assoc]
              rfl
            · change middle.groups.modifyHead _ = _
              rw [hgroups]
              rfl

end Ledger

namespace Expr

open Ledger

mutual
theorem evaluates_inspect : (e : Expr) → Evaluates e.inspect fun taints => e.reads taints
  | .bool _ | .int _ | .double _ | .string _ | .nothing => .pure
  | .object fields => evaluates_inspectFields fields
  | .comparison _ left right | .arithmetic _ left right | .logic _ left right
  | .fieldExists left right => (evaluates_inspect left).andThen (evaluates_inspect right)
  | .negation value | .typeOf value | .hasType value _ | .keys value => evaluates_inspect value
  | .selection root level => (evaluates_inspect root).andThen (evaluates_inspectList level)
  | .array values => evaluates_inspectList values
  | .call _ args => evaluates_inspectList args
  | .role _ state => evaluates_inspectOption state
  | .saved name => .saved name
  | .globalObject _ => .throw _
  | .wholeObject store | .keysOfObject store => Evaluates.pure.readStore store
  | .keyOfObject store key => (evaluates_inspectList key).readStore store
  | .keyExists store key => (evaluates_inspect key).readStore store
termination_by structural e => e

theorem evaluates_inspectList : (es : List Expr) →
    Evaluates (inspectList es) fun taints => readsList taints es
  | [] => .pure
  | e :: rest => (evaluates_inspect e).andThen (evaluates_inspectList rest)
termination_by structural es => es

theorem evaluates_inspectFields : (fields : List (Expr × Expr)) →
    Evaluates (inspectFields fields) fun taints => readsFields taints fields
  | [] => .pure
  | (key, value) :: rest => by
      have hfields := (evaluates_inspect key).andThen
        ((evaluates_inspect value).andThen (evaluates_inspectFields rest))
      refine hfields.congr fun taints => ?_
      simp only [readsFields, bind_assoc, pure_bind, Reads.append_assoc]
termination_by structural fields => fields

theorem evaluates_inspectOption : (o : Option Expr) →
    Evaluates (inspectOption o) fun taints => readsOption taints o
  | none => .pure
  | some e => evaluates_inspect e
termination_by structural o => o
end

end Expr

namespace Ledger

/-- What came of a computation, in place and from the flow. -/
inductive Tracked {α : Type} (after : Ledger) : Except Fault α → Except Fault (α × Flow) → Prop
  | error (fault : Fault) : Tracked after (.error fault) (.error fault)
  | ok (a : α) (flow : Flow) (h : after.Shows flow) : Tracked after (.ok a) (.ok (a, flow))

namespace Tracked

variable {α β : Type} {middle after : Ledger} {r : Except Fault (α × Flow)}
  {f : α × Flow → Except Fault (β × Flow)}

theorem bind_error {fault : Fault} (h : Tracked middle (.error fault) r) :
    Tracked after (.error fault) (r >>= f) := by
  cases h
  exact .error fault

theorem bind_ok {a : α} {result : Except Fault β} (h : Tracked middle (.ok a) r)
    (hf : ∀ flow, middle.Shows flow → Tracked after result (f (a, flow))) :
    Tracked after result (r >>= f) := by
  cases h with
  | ok _ flow hshows => exact hf flow hshows

end Tracked

/-- A computation that declares variables in the innermost scope, be it up to a fault, and does to a
ledger what `c` does to the flow that it shows. If it is `still`, it declares none. -/
def Tracks {α : Type} (still : Prop) (x : Stateful Ledger α)
    (c : Flow → Except Fault (α × Flow)) : Prop :=
  ∀ l, ∃ result names after, x.run l = some (result, after) ∧ (still → names = []) ∧
    l.Extends names after ∧ ∀ flow, l.Shows flow → Tracked after result (c flow)

namespace Tracks

variable {α β : Type} {still : Prop} {x : Stateful Ledger α} {c d : Flow → Except Fault (α × Flow)}

theorem ofExcept (r : Except Fault α) :
    Tracks still (ofExcept r) fun flow => r.map fun a => (a, flow) := by
  intro l
  refine ⟨r, [], l, Stateful.run_ofExcept r l, fun _ => rfl, .refl l, ?_⟩
  intro flow hshows
  cases r with
  | error fault => exact .error fault
  | ok a => exact .ok a flow hshows

theorem pure (a : α) : Tracks still (pure a) fun flow => .ok (a, flow) :=
  ofExcept (.ok a)

theorem throw (fault : Fault) : Tracks still (throw fault : Stateful Ledger α) fun _ => .error fault :=
  ofExcept (.error fault)

theorem congr (hx : Tracks still x c) (h : ∀ flow, d flow = c flow) : Tracks still x d :=
  funext h ▸ hx

theorem bind {f : α → Stateful Ledger β} {e : α → Flow → Except Fault (β × Flow)}
    (hx : Tracks still x c) (hf : ∀ a, Tracks still (f a) (e a)) :
    Tracks still (x >>= f) fun flow => c flow >>= fun r => e r.1 r.2 := by
  intro l
  obtain ⟨result, names, middle, hrun, hstill, hextends, htracked⟩ := hx l
  cases result with
  | error fault =>
      exact ⟨.error fault, names, middle, Stateful.run_bind_error hrun f, hstill, hextends,
        fun flow hshows => (htracked flow hshows).bind_error⟩
  | ok a =>
      obtain ⟨final, more, after, hfinal, hstill', hextends', htracked'⟩ := hf a middle
      refine ⟨final, names ++ more, after, (Stateful.run_bind_ok hrun f).trans hfinal, ?_,
        hextends.trans hextends', ?_⟩
      · intro h
        rw [hstill h, hstill' h, List.append_nil]
      · exact fun flow hshows => (htracked flow hshows).bind_ok htracked'

theorem of_modify {f : Ledger → Ledger} {g : Flow → Flow} (hf : ∀ l : Ledger, l.Extends [] (f l))
    (hg : ∀ (l : Ledger) (flow : Flow), l.Shows flow → (f l).Shows (g flow)) :
    Tracks still (modify f) fun flow => .ok ((), g flow) :=
  fun l => ⟨.ok (), [], f l, rfl, fun _ => rfl, hf l, fun flow hshows => .ok () _ (hg l flow hshows)⟩

theorem inGroup {x : Stateful Ledger Unit} {c : Taints → Except Fault Reads}
    (hx : Evaluates x c) :
    Tracks still (inGroup x) fun flow => do
      let reads ← c flow.taints
      return (reads.taint, flow.read reads) := by
  intro l
  obtain ⟨result, after, hrun, hsteady, hgroups, hgathered⟩ := exists_run_inGroup hx l
  refine ⟨result, [], after, hrun, fun _ => rfl, hsteady.extends hgroups, ?_⟩
  intro flow hshows
  have hreads := hgathered flow.taints hshows.taints
  change Tracked after _ (c flow.taints >>= _)
  generalize c flow.taints = reads at hreads
  cases hreads with
  | error fault => exact .error fault
  | ok reads hactions =>
      apply Tracked.ok reads.taint (flow.read reads)
      refine ⟨hshows.taints.of_steady hsteady, hshows.path.trans hsteady.path.symm, ?_⟩
      rw [hactions, ← hshows.actions]
      rfl

theorem decided {x : Stateful Ledger Unit} {c : Taints → Except Fault Reads}
    (hx : Evaluates x c) :
    Tracks still (decided x) fun flow => do
      let reads ← c flow.taints
      return (reads.taint, flow.guard reads) := by
  have hpath : ∀ taint : NameSet,
      Tracks still (modify fun l => { l with path := l.path ∪ taint }) fun flow =>
        .ok ((), { flow with path := flow.path ∪ taint }) := by
    intro taint
    refine of_modify (fun l => ⟨rfl, rfl, fun _ h => h⟩) fun l flow hshows => ?_
    exact ⟨⟨hshows.taints.dense, hshows.taints.shape, hshows.taints.values⟩,
      congrArg (· ∪ taint) hshows.path, hshows.actions⟩
  refine ((inGroup hx).bind fun taint => (hpath taint).bind fun _ => .pure taint).congr fun flow => ?_
  simp only [bind_assoc, pure_bind]
  rfl

theorem writeStore {x : Stateful Ledger Unit} {c : Taints → Except Fault Reads}
    (hx : Evaluates x c) (store : String) :
    Tracks still (writeStore store x) fun flow => do
      return ((), flow.write store (← c flow.taints)) := by
  have hrecord : ∀ taint : NameSet,
      Tracks still (modify fun l => l.recorded (.mutate store (taint ∪ l.path))) fun flow =>
        .ok ((), { flow with actions := flow.actions ++ [.mutate store (taint ∪ flow.path)] }) := by
    intro taint
    refine of_modify (fun l => ⟨rfl, rfl, fun _ h => h⟩) fun l flow hshows => ?_
    refine ⟨⟨hshows.taints.dense, hshows.taints.shape, hshows.taints.values⟩, hshows.path, ?_⟩
    rw [hshows.path, hshows.actions]
    rfl
  refine ((inGroup hx).bind hrecord).congr fun flow => ?_
  simp only [bind_assoc, pure_bind]
  rfl

theorem add (name : String) (taint : NameSet) :
    Tracks False (modify fun l : Ledger => l.add name taint) fun flow =>
      .ok ((), flow.declare name taint) :=
  fun l => ⟨.ok (), [name], l.add name taint, rfl, False.elim, .add l name taint,
    fun _ hshows => .ok () _ (hshows.add name taint)⟩

theorem within {x : Stateful Ledger Unit} {c : Flow → Except Fault (Unit × Flow)}
    (hx : Tracks False x c) :
    Tracks still (within x) fun flow => do
      let inner ← c flow.enter
      return ((), inner.2.leave) := by
  intro l
  obtain ⟨result, names, after, hrun, -, hextends, htracked⟩ := hx l.enter
  have hclose := Stateful.run_step (f := fun l : Ledger => l.close?.map fun after => ((), after))
    (congrArg (Option.map fun after => ((), after)) hextends.close?)
  have hwithin := Stateful.run_bind_pure (Stateful.run_between hrun hclose) Prod.fst
  refine ⟨_, [], _, hwithin, fun _ => rfl, hextends.closed, ?_⟩
  intro flow hshows
  have hinner := htracked flow.enter hshows.enter
  change Tracked _ _ (c flow.enter >>= _)
  generalize c flow.enter = r at hinner
  cases hinner with
  | error fault => exact .error fault
  | ok _ inner hshows' => exact .ok () _ (Shows.leave hextends hshows' hshows.taints.dense)

end Tracks

abbrev Follows (still : Prop) (x : Stateful Ledger Unit) (c : Flow → Except Fault Flow) : Prop :=
  Tracks still x fun flow => c flow >>= fun after => pure ((), after)

end Ledger

def Flow.readEdit (flow : Flow) (name : String) (level : List Expr) (edit : Edit) :
    Except Fault (NameSet × Flow) := do
  if let .deleteField := edit then Lowering.requireField name level
  let reads ← Expr.readsList flow.taints (level ++ edit.inputs)
  return (reads.taint, flow.read reads)

namespace Statement

open Ledger

theorem tracks_inspectEdit (name : String) (level : List Expr) (edit : Edit) :
    Tracks True (inspectEdit name level edit) fun flow => flow.readEdit name level edit := by
  have hinputs := Expr.evaluates_inspectList (level ++ edit.inputs)
  cases edit with
  | deleteField =>
      refine ((Tracks.ofExcept _).bind fun _ => Tracks.inGroup hinputs).congr fun flow => ?_
      rw [Flow.readEdit]
      cases Lowering.requireField name level <;> rfl
  | push values | set value => exact Tracks.inGroup hinputs

theorem summarizeUpdate_eq (flow : Flow) (name : String) (level : List Expr) (edit : Edit) :
    summarizeUpdate flow name level edit = do
      let _ ← flow.taints.resolve name
      let (taint, flow) ← flow.readEdit name level edit
      return { flow with taints := flow.taints.modify name (edit.taintAfter level taint) } := by
  cases edit <;> simp only [summarizeUpdate, Flow.readEdit, bind_assoc, pure_bind] <;> rfl

theorem follows_inspectUpdate (name : String) (level : List Expr) (edit : Edit) :
    Follows True (inspectUpdate name level edit) fun flow => summarizeUpdate flow name level edit := by
  intro l
  have hfind : (Ledger.find name).run l = some (l.table.resolve name, l) :=
    Stateful.run_ofExcept (l.table.resolve name) l
  cases hname : l.table.resolve name with
  | error fault =>
      rw [hname] at hfind
      refine ⟨.error fault, [], l, Stateful.run_bind_error hfind _, fun _ => rfl, .refl l, ?_⟩
      intro flow hshows
      simp only [summarizeUpdate_eq, hshows.taints.resolve, hname]
      exact .error fault
  | ok slot =>
      rw [hname] at hfind
      obtain ⟨result, names, middle, hrun, hstill, hextends, htracked⟩ :=
        tracks_inspectEdit name level edit l
      obtain rfl := hstill trivial
      have hsummary : ∀ flow, l.Shows flow →
          (summarizeUpdate flow name level edit >>= fun after => pure ((), after)) =
            flow.readEdit name level edit >>= fun r =>
              pure ((), { r.2 with
                taints := r.2.taints.modify name (edit.taintAfter level r.1) }) := by
        intro flow hshows
        rw [summarizeUpdate_eq, hshows.taints.resolve, hname]
        simp only [bind_assoc, pure_bind]
        rfl
      cases result with
      | error fault =>
          refine ⟨.error fault, [], middle,
            (Stateful.run_bind_ok hfind _).trans (Stateful.run_bind_error hrun _), fun _ => rfl,
            hextends, ?_⟩
          intro flow hshows
          simp only [hsummary flow hshows]
          exact (htracked flow hshows).bind_error
      | ok taint =>
          have htable : middle.table = l.table := hextends.table
          have hslot : middle.table.resolve name = .ok slot := htable ▸ hname
          refine ⟨.ok (), [], middle.note slot (edit.taintAfter level taint (middle.taintAt slot)),
            (Stateful.run_bind_ok hfind _).trans (Stateful.run_bind_ok hrun _), fun _ => rfl,
            ⟨htable, hextends.groups, fun hdense hbounded => ?_⟩, ?_⟩
          · apply (hextends.bounded hdense hbounded).note
            rw [htable]
            exact hdense.resolve_lt hname
          · intro flow hshows
            simp only [hsummary flow hshows]
            refine (htracked flow hshows).bind_ok fun flow' hmiddle => ?_
            exact .ok () _ ⟨hmiddle.taints.note hslot _, hmiddle.path, hmiddle.actions⟩

theorem follows_writeStore (store : String) (key inputs : List Expr) :
    Follows True (do
      ofExcept (Lowering.requireKey store key)
      Ledger.writeStore store (Expr.inspectList inputs)) fun flow => do
        Lowering.requireKey store key
        return flow.write store (← Expr.readsList flow.taints inputs) := by
  refine ((Tracks.ofExcept _).bind fun _ =>
    Tracks.writeStore (Expr.evaluates_inspectList inputs) store).congr fun flow => ?_
  simp only [bind_assoc, pure_bind]
  cases Lowering.requireKey store key <;> rfl

theorem follows_inspectGuard (guard : Guard) {still : Prop} :
    Follows still (inspectGuard guard) fun flow => summarizeGuard flow guard := by
  cases guard with
  | when condition =>
      refine ((Tracks.decided condition.evaluates_inspect).bind fun _ => .pure ()).congr fun flow => ?_
      simp only [summarizeGuard, bind_assoc, pure_bind]
      rfl
  | otherwise | lastly => exact .pure ()

/-- Analyzing a statement leaves the table of a ledger as it was, up to what a statement that succeeds
declares, closes all groups that it opened, and does what `summarize` does. -/
def Inspected (s : Statement) : Prop :=
  ∀ l, ∃ result after, s.inspect.run l = some (result, after) ∧
    after.table = s.tableAfter result l.table ∧ after.groups = l.groups ∧
    (l.table.Dense → l.Bounded → after.Bounded) ∧
    ∀ flow, l.Shows flow → Tracked after result (s.summarize flow >>= fun after => pure ((), after))

theorem Inspected.of_follows {s : Statement} (hs : s.isSave = false)
    (h : Follows True s.inspect fun flow => s.summarize flow) : s.Inspected := by
  intro l
  obtain ⟨result, names, after, hrun, hstill, hextends, htracked⟩ := h l
  obtain rfl := hstill trivial
  refine ⟨result, after, hrun, ?_, hextends.groups, hextends.bounded, htracked⟩
  rw [hextends.table]
  cases s with
  | save name value => cases hs
  | _ => rfl

theorem Inspected.save (name : String) (value : Expr) : (save name value).Inspected := by
  intro l
  have hvalue : Tracks True _ _ := .inGroup value.evaluates_inspect
  obtain ⟨result, names, middle, hrun, hstill, hextends, htracked⟩ := hvalue l
  obtain rfl := hstill trivial
  have hsummary : ∀ flow, ((Statement.save name value).summarize flow >>= fun after => pure ((), after)) =
      (do let reads ← value.reads flow.taints
          return (reads.taint, flow.read reads)) >>= fun r => pure ((), r.2.declare name r.1) := by
    intro flow
    simp only [summarize, bind_assoc, pure_bind]
  cases result with
  | error fault =>
      refine ⟨.error fault, middle, Stateful.run_bind_error hrun _, hextends.table, hextends.groups,
        hextends.bounded, fun flow hshows => ?_⟩
      rw [hsummary]
      exact (htracked flow hshows).bind_error
  | ok taint =>
      have hadd := hextends.trans (.add middle name taint)
      refine ⟨.ok (), middle.add name taint, Stateful.run_bind_ok hrun _, hadd.table, hadd.groups,
        hadd.bounded, fun flow hshows => ?_⟩
      rw [hsummary]
      exact (htracked flow hshows).bind_ok fun flow' hmiddle => .ok () _ (hmiddle.add name taint)

theorem Inspected.follows {s : Statement} (h : s.Inspected) :
    Follows False s.inspect fun flow => s.summarize flow := by
  intro l
  obtain ⟨result, after, hrun, htable, hgroups, hbounded, htracked⟩ := h l
  cases result with
  | error fault =>
      rw [tableAfter_error] at htable
      exact ⟨.error fault, [], after, hrun, False.elim, ⟨htable, hgroups, hbounded⟩, htracked⟩
  | ok _ =>
      rw [tableAfter_ok] at htable
      exact ⟨.ok (), s.declares, after, hrun, False.elim, ⟨htable, hgroups, hbounded⟩, htracked⟩

mutual
theorem inspected : (s : Statement) → s.Inspected
  | .ret none => by
      refine .of_follows rfl ((Tracks.pure ()).congr fun flow => ?_)
      change Except.ok ((), { flow with actions := flow.actions ++ [] }) = _
      rw [List.append_nil]
  | .ret (some value) => by
      refine .of_follows rfl
        (((Tracks.inGroup value.evaluates_inspect).bind fun _ => .pure ()).congr fun flow => ?_)
      simp only [summarize, Expr.readsOption, bind_assoc, pure_bind]
      rfl
  | .save name value => .save name value
  | .update (.globalObject _) _ _ => .of_follows rfl (.throw _)
  | .update (.saved name) level edit => .of_follows rfl (follows_inspectUpdate name level edit)
  | .choice branches => by
      refine .of_follows rfl
        (((Tracks.ofExcept _).bind fun _ => follows_inspectBranches branches).congr fun flow => ?_)
      simp only [summarize, bind_assoc]
      cases Choice.shape branches <;> rfl
  | .forEach source item body => by
      have hbody (taint : NameSet) := (Tracks.add item taint).bind fun _ => follows_inspectBody body
      refine .of_follows rfl (((Tracks.decided source.evaluates_inspect).bind fun taint =>
        (hbody taint).within).congr fun flow => ?_)
      simp only [summarize, bind_assoc, pure_bind]
      rfl
  | .call _ args => by
      refine .of_follows rfl
        (((Tracks.inGroup (Expr.evaluates_inspectList args)).bind fun _ => .pure ()).congr
          fun flow => ?_)
      simp only [summarize, bind_assoc, pure_bind]
      rfl
  | .noop => .of_follows rfl (.pure ())
  | .setKey store key value => .of_follows rfl (follows_writeStore store key _)
  | .deleteKey store key => .of_follows rfl (follows_writeStore store key _)
  | .pushAtKey store key values => .of_follows rfl (follows_writeStore store key _)
termination_by structural s => s

theorem follows_inspectBody : (body : List Statement) →
    Follows False (inspectBody body) fun flow => summarizeBody flow body
  | [] => .pure ()
  | s :: rest => by
      refine ((inspected s).follows.bind fun _ => follows_inspectBody rest).congr fun flow => ?_
      simp only [summarizeBody, bind_assoc, pure_bind]
termination_by structural body => body

theorem follows_inspectBranches {still : Prop} : (branches : List (Guard × List Statement)) →
    Follows still (inspectBranches branches) fun flow => summarizeBranches flow branches
  | [] => .pure ()
  | (guard, body) :: rest => by
      refine ((follows_inspectGuard guard).bind fun _ => (follows_inspectBody body).within.bind fun _ =>
        follows_inspectBranches rest).congr fun flow => ?_
      simp only [summarizeBranches, bind_assoc, pure_bind]
termination_by structural branches => branches
end

end Statement

namespace Function

theorem displays_inputs (inputs : List Input) {l : Ledger} {taints : Taints}
    (h : l.Displays taints) (hnone : ∀ slot, l.taints slot = none) :
    Ledger.Displays { l with table := SlotTable.scoping.addAll l.table (inputs.map Input.name) }
      (inputs.foldl (fun taints input => taints.add input.name .empty) taints) := by
  induction inputs generalizing l taints with
  | nil => exact h
  | cons input rest ih =>
      apply ih (l := { l with table := l.table.add input.name })
      · change Ledger.Displays _ (taints.add input.name .empty)
        apply h.add_of rfl
        · exact fun _ _ => rfl
        simp only [Ledger.taintAt, hnone, Option.getD_none]
      · exact hnone

theorem shows_initialFlow (f : Function) : f.ledger.Shows f.initialFlow :=
  ⟨displays_inputs f.inputs (l := Ledger.empty) ⟨SlotTable.dense_empty, rfl, rfl⟩ fun _ => rfl,
    rfl, rfl⟩

/-- Analyzing a function never breaks off, and gives its actions. -/
theorem inspect_eq_summarize (f : Function) : f.inspect = some f.summarize := by
  obtain ⟨result, names, after, hrun, -, -, htracked⟩ :=
    Statement.follows_inspectBody f.body f.ledger
  have hbody : after.Tracked result
      (Statement.summarizeBody f.initialFlow f.body >>= fun flow => pure ((), flow)) :=
    htracked f.initialFlow f.shows_initialFlow
  rw [inspect, hrun, summarize]
  generalize Statement.summarizeBody f.initialFlow f.body = r at hbody
  cases r with
  | error fault =>
      cases hbody
      rfl
  | ok flow =>
      cases hbody with
      | ok _ _ hshows =>
          change some (Except.ok after.actions) = some (Except.ok flow.actions)
          rw [hshows.actions]

end Function

/-- Scopes and groups are closed again on every way out of an expression, a statement or a function,
so that compiling and analyzing never break off. -/
theorem scopes_balanced (t : SlotTable) (l : Ledger) (e : Expr) (s : Statement) (f : Function) :
    (∃ result, e.emit.run t = some (result, t) ∧ (t.Dense → e.compile t.slots = result)) ∧
    (∃ result, s.emit.run t = some (result, s.tableAfter result t) ∧
      (t.Dense → s.compile t.slots = result.map fun code => (code, s.scopeAfter t.slots))) ∧
    (∃ result after, e.inspect.run l = some (result, after) ∧ after.table = l.table ∧
      after.groups.length = l.groups.length ∧ (l.table.Dense → l.Bounded → after.Bounded) ∧
      ∀ taints, l.Displays taints → l.Evaluated after result (e.reads taints)) ∧
    (∃ result after, s.inspect.run l = some (result, after) ∧
      after.table = s.tableAfter result l.table ∧ after.groups = l.groups ∧
      (l.table.Dense → l.Bounded → after.table.Dense ∧ after.Bounded) ∧
      ∀ flow, l.Shows flow →
        after.Tracked result (s.summarize flow >>= fun after => pure ((), after))) ∧
    f.emit = some f.compile ∧ f.inspect = some f.summarize ∧ f.ledger.table.Dense ∧
      f.ledger.Bounded := by
  refine ⟨?_, s.balanced t, ?_, ?_, f.emit_eq_compile, f.inspect_eq_summarize,
    f.shows_initialFlow.taints.dense, fun _ _ => rfl⟩
  · obtain ⟨result, hrun, hresult⟩ := e.keeps_emit t
    refine ⟨result, hrun, fun hdense => (hresult hdense).trans ?_⟩
    cases result <;> rfl
  · obtain ⟨result, after, hrun, hsteady, -, hlength, hevaluated⟩ := e.evaluates_inspect l
    exact ⟨result, after, hrun, hsteady.table, hlength, hsteady.bounded, hevaluated⟩
  · obtain ⟨result, after, hrun, htable, hgroups, hbounded, htracked⟩ := s.inspected l
    refine ⟨result, after, hrun, htable, hgroups, fun hdense h => ⟨?_, hbounded hdense h⟩, htracked⟩
    rw [htable]
    exact s.dense_tableAfter result hdense

/-- A fault two scopes deep, where each has a variable of its own. -/
theorem scopes_balanced_nested_fault :
    let t := SlotTable.empty.add "x"
    let l := Ledger.empty.add "x" .empty
    let s : Statement := .choice [(.when (.bool true), [.save "a" .nothing,
      .forEach (.array []) "i" [.save "b" .nothing, .ret (some (.saved "missing"))]])]
    t.Dense ∧ l.Bounded ∧
      s.emit.run t = some (.error (.unknownVariable "missing"), t) ∧
      ∃ after, s.inspect.run l = some (.error (.unknownVariable "missing"), after) ∧
        after.table = t ∧ after.groups = l.groups ∧ after.Bounded := by
  intro t l s
  have hdense : t.Dense := SlotTable.dense_empty.add "x"
  have hbounded : l.Bounded := (Ledger.Extends.add _ _ _).bounded SlotTable.dense_empty fun _ _ => rfl
  have hempty : Ledger.empty.Shows ⟨Scope.empty, .empty, []⟩ :=
    ⟨⟨SlotTable.dense_empty, rfl, rfl⟩, rfl, rfl⟩
  obtain ⟨-, ⟨result, hrun, hcompile⟩, -,
      ⟨found, after, hfound, htable, hgroups, hafter, htracked⟩, -⟩ :=
    scopes_balanced t l .nothing s ⟨[], [s]⟩
  have hresult : result = .error (.unknownVariable "missing") := by
    have h := hcompile hdense
    cases result with
    | ok code => cases h
    | error fault =>
        cases h
        rfl
  have hsame : found = .error (.unknownVariable "missing") := by
    have h := htracked _ (hempty.add "x" .empty)
    cases h
    rfl
  subst hresult hsame
  exact ⟨hdense, hbounded, hrun, after, hfound, htable, hgroups,
    (hafter hdense hbounded).2⟩

end StoredProcedure
