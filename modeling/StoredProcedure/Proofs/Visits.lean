import StoredProcedure.Analysis.Program
import StoredProcedure.Proofs.LockNeed
import StoredProcedure.Proofs.ReadBefore

namespace StoredProcedure

/-- A place where a summary evaluates values. -/
inductive Visit where
  /-- Values that are returned, kept in a variable or passed on. -/
  | evaluate (values : List Expr)
  /-- A condition or the source of a loop. -/
  | guard (value : Expr)
  /-- The keys and values of a change of a store. -/
  | write (store : String) (values : List Expr)

def Guard.visits : Guard → List Visit
  | .when condition => [.guard condition]
  | .otherwise | .lastly => []

namespace Statement

mutual
/-- The visits of a statement, in the order in which a summary makes them. -/
def visits : Statement → List Visit
  | .ret value => [.evaluate value.toList]
  | .save _ value => [.evaluate [value]]
  | .update _ level edit => [.evaluate (level ++ edit.inputs)]
  | .choice branches => visitsBranches branches
  | .forEach source _ body => .guard source :: visitsBody body
  | .call _ args => [.evaluate args]
  | .noop => []
  | .setKey store key value => [.write store (key ++ [value])]
  | .deleteKey store key => [.write store key]
  | .pushAtKey store key values => [.write store (key ++ values)]
termination_by structural s => s

def visitsBody : List Statement → List Visit
  | [] => []
  | s :: rest => s.visits ++ visitsBody rest
termination_by structural body => body

def visitsBranches : List (Guard × List Statement) → List Visit
  | [] => []
  | (guard, body) :: rest => guard.visits ++ visitsBody body ++ visitsBranches rest
termination_by structural branches => branches
end

end Statement

/-- A visit with the actions that were recorded during it. -/
structure Visited where
  visit : Visit
  actions : List Action

/-- A summary comes from one flow to another by the visits of a log. -/
inductive Flow.Logs : Flow → List Visited → Flow → Prop
  | done (flow : Flow) : Logs flow [] flow
  /-- Between visits, scopes are opened and closed and variables get their dependences. -/
  | rescope {flow after : Flow} {log : List Visited} (taints : Taints)
      (hrest : Logs { flow with taints } log after) : Logs flow log after
  | evaluate {flow after : Flow} {log : List Visited} {values : List Expr} {reads : Reads}
      (hreads : Expr.readsList flow.taints values = .ok reads)
      (hrest : Logs (flow.read reads) log after) :
      Logs flow (⟨.evaluate values, reads.actions⟩ :: log) after
  | guard {flow after : Flow} {log : List Visited} {value : Expr} {reads : Reads}
      (hreads : value.reads flow.taints = .ok reads) (hrest : Logs (flow.guard reads) log after) :
      Logs flow (⟨.guard value, reads.actions⟩ :: log) after
  | write {flow after : Flow} {log : List Visited} {store : String} {values : List Expr}
      {reads : Reads} (hreads : Expr.readsList flow.taints values = .ok reads)
      (hrest : Logs (flow.write store reads) log after) :
      Logs flow
        (⟨.write store values, reads.actions ++ [.mutate store (reads.taint ∪ flow.path)]⟩ :: log)
        after

theorem Expr.exists_get_of_readsList {taints : Taints} {values : List Expr} {reads : Reads}
    (h : readsList taints values = .ok reads) {action : Action} (haction : action ∈ reads.actions) :
    ∃ store ∈ reads.taint, action = .get store := by
  obtain rfl := Except.ok.inj (h.symm.trans (readsList_of_shape rfl values h))
  obtain ⟨source, hsource, hget⟩ := List.mem_filterMap.mp haction
  cases source with
  | store name =>
      refine ⟨name, ?_, (Option.some.inj hget).symm⟩
      exact Taints.mem_dependences.mpr ⟨_, hsource, NameSet.mem_singleton.mpr rfl⟩
  | saved name => cases hget

theorem Expr.exists_get_of_reads {taints : Taints} {value : Expr} {reads : Reads}
    (h : value.reads taints = .ok reads) {action : Action} (haction : action ∈ reads.actions) :
    ∃ store ∈ reads.taint, action = .get store :=
  exists_get_of_readsList ((readsList_singleton taints value).trans h) haction

namespace Visited

/-- The change of a store at a position of the actions of a log: it is the last action of a visit,
and it depends on the stores of `path`, on those read during this visit and on those read during the
guards that were visited before. -/
def WriteAt (path : NameSet) (log : List Visited) (j : Nat) (store : String)
    (dependsOn : NameSet) : Prop :=
  ∃ before values gets rest,
    log = before ++ ⟨.write store values, gets ++ [.mutate store dependsOn]⟩ :: rest ∧
    j = (before.flatMap actions).length + gets.length ∧
    (∀ other ∈ path, other ∈ dependsOn) ∧
    (∀ other, .get other ∈ gets → other ∈ dependsOn) ∧
    ∀ value recorded, ⟨.guard value, recorded⟩ ∈ before →
      ∀ other, .get other ∈ recorded → other ∈ dependsOn

variable {path more : NameSet} {log : List Visited} {j : Nat} {store : String} {dependsOn : NameSet}

theorem WriteAt.cons {visit : Visit} {recorded : List Action}
    (h : WriteAt more log (j - recorded.length) store dependsOn) (hj : recorded.length ≤ j)
    (hpath : ∀ other ∈ path, other ∈ more)
    (hguard : ∀ value, visit = .guard value → ∀ other, .get other ∈ recorded → other ∈ more) :
    WriteAt path (⟨visit, recorded⟩ :: log) j store dependsOn := by
  obtain ⟨before, values, gets, rest, rfl, hpos, hmore, hown, hguards⟩ := h
  refine ⟨⟨visit, recorded⟩ :: before, values, gets, rest, rfl, ?_, ?_, hown, ?_⟩
  · simp only [List.flatMap_cons, List.length_append]
    omega
  · intro other hother
    exact hmore other (hpath other hother)
  · intro value actions hmem other hother
    rcases List.mem_cons.mp hmem with heq | hmem
    · cases heq
      exact hmore other (hguard value rfl other hother)
    · exact hguards value actions hmem other hother

end Visited

namespace Flow

variable {flow middle after : Flow} {log more : List Visited}

theorem Logs.trans (h : Logs flow log middle) (hmore : Logs middle more after) :
    Logs flow (log ++ more) after := by
  induction h with
  | done flow => exact hmore
  | rescope taints _ ih => exact .rescope taints (ih hmore)
  | evaluate hreads _ ih => exact .evaluate hreads (ih hmore)
  | guard hreads _ ih => exact .guard hreads (ih hmore)
  | write hreads _ ih => exact .write hreads (ih hmore)

theorem Logs.actions_eq (h : Logs flow log after) :
    after.actions = flow.actions ++ log.flatMap Visited.actions := by
  induction h with
  | done flow => exact (List.append_nil _).symm
  | rescope taints _ ih => exact ih
  | evaluate hreads _ ih | guard hreads _ ih =>
      rw [ih, List.flatMap_cons, ← List.append_assoc]
      rfl
  | write hreads _ ih =>
      rw [ih, List.flatMap_cons, ← List.append_assoc, ← List.append_assoc]
      rfl

/-- Every change of a store is made by a visit of the log, at its end. -/
theorem Logs.writeAt (h : Logs flow log after) {j : Nat} {store : String} {dependsOn : NameSet}
    (hj : (log.flatMap Visited.actions)[j]? = some (.mutate store dependsOn)) :
    Visited.WriteAt flow.path log j store dependsOn := by
  have hlater : ∀ {recorded : List Action} {j : Nat} {rest : List Action},
      (∀ action ∈ recorded, ∃ other, action = .get other) →
      (recorded ++ rest)[j]? = some (.mutate store dependsOn) →
      recorded.length ≤ j ∧ rest[j - recorded.length]? = some (.mutate store dependsOn) := by
    intro recorded j rest hgets hj
    rcases Nat.lt_or_ge j recorded.length with hlt | hge
    · rw [List.getElem?_append_left hlt] at hj
      obtain ⟨other, hother⟩ := hgets _ (List.mem_of_getElem? hj)
      cases hother
    · rw [List.getElem?_append_right hge] at hj
      exact ⟨hge, hj⟩
  induction h generalizing j with
  | done flow => cases hj
  | rescope taints _ ih => exact ih hj
  | evaluate hreads _ ih =>
      obtain ⟨hle, hj⟩ := hlater
        (fun action haction => (Expr.exists_get_of_readsList hreads haction).imp fun _ h => h.2) hj
      apply (ih hj).cons hle
      · exact fun other hother => hother
      · rintro value ⟨⟩
  | guard hreads _ ih =>
      have hgets : ∀ action ∈ _, _ := fun _ => Expr.exists_get_of_reads hreads
      obtain ⟨hle, hj⟩ :=
        hlater (fun action haction => (hgets action haction).imp fun _ h => h.2) hj
      apply (ih hj).cons hle
      · exact fun other hother => NameSet.mem_union.mpr (.inl hother)
      · intro value _ other hother
        obtain ⟨_, hmem, ⟨⟩⟩ := hgets _ hother
        exact NameSet.mem_union.mpr (.inr hmem)
  | @write flow _ log changed values reads hreads hrest ih =>
      have hgets : ∀ action ∈ _, _ := fun _ => Expr.exists_get_of_readsList hreads
      rw [List.flatMap_cons, List.append_assoc] at hj
      obtain ⟨hle, hlast⟩ := hlater
        (fun action haction => (hgets action haction).imp fun _ h => h.2) hj
      rcases Nat.eq_or_lt_of_le hle with rfl | hlt
      · rw [Nat.sub_self] at hlast
        cases hlast
        refine ⟨[], values, reads.actions, log, rfl, (Nat.zero_add _).symm, ?_, ?_, nofun⟩
        · exact fun other hother => NameSet.mem_union.mpr (.inr hother)
        · intro other hother
          obtain ⟨_, hmem, ⟨⟩⟩ := hgets _ hother
          exact NameSet.mem_union.mpr (.inl hmem)
      · have hlength :
            (reads.actions ++ [Action.mutate changed (reads.taint ∪ flow.path)]).length ≤ j := by
          rw [List.length_append, List.length_singleton]
          omega
        rw [← List.append_assoc, List.getElem?_append_right hlength] at hj
        apply (ih hj).cons hlength
        · exact fun other hother => hother
        · rintro value ⟨⟩

end Flow

open StoredProcedure.Flow (Logs)

theorem Guard.exists_logs {guard : Guard} {flow after : Flow}
    (h : Statement.summarizeGuard flow guard = .ok after) :
    ∃ log, Logs flow log after ∧ log.map Visited.visit = guard.visits := by
  cases guard with
  | when condition =>
      simp only [Statement.summarizeGuard, bind_eq_ok, pure_eq_ok] at h
      obtain ⟨reads, hreads, rfl⟩ := h
      exact ⟨_, .guard hreads (.done _), rfl⟩
  | otherwise | lastly =>
      obtain rfl := Except.ok.inj h
      exact ⟨[], .done flow, rfl⟩

namespace Statement

mutual
theorem exists_logs : (s : Statement) → (flow after : Flow) → s.summarize flow = .ok after →
    ∃ log, Logs flow log after ∧ log.map Visited.visit = s.visits
  | .ret value, flow, after => by
      intro h
      simp only [summarize, bind_eq_ok, pure_eq_ok] at h
      obtain ⟨reads, hreads, rfl⟩ := h
      rw [← Expr.readsList_toList] at hreads
      exact ⟨_, .evaluate hreads (.done _), rfl⟩
  | .save name value, flow, after => by
      intro h
      simp only [summarize, bind_eq_ok, pure_eq_ok] at h
      obtain ⟨reads, hreads, rfl⟩ := h
      rw [← Expr.readsList_singleton] at hreads
      exact ⟨_, .evaluate hreads (.rescope _ (.done _)), rfl⟩
  | .update (.globalObject _) _ _, flow, after => by
      intro h
      cases h
  | .update (.saved name) level edit, flow, after => by
      intro h
      simp only [summarize, summarizeUpdate, bind_eq_ok] at h
      obtain ⟨_, -, h⟩ := h
      have hchange : ∃ reads, Expr.readsList flow.taints (level ++ edit.inputs) = .ok reads ∧
          flow.change name (edit.isWhole level) reads = after := by
        cases edit with
        | push values | set value =>
            simpa only [bind_eq_ok, pure_eq_ok] using h
        | deleteField =>
            simp only [bind_eq_ok, pure_eq_ok] at h
            obtain ⟨_, -, h⟩ := h
            exact h
      obtain ⟨reads, hreads, rfl⟩ := hchange
      exact ⟨_, .evaluate hreads (.rescope _ (.done _)), rfl⟩
  | .choice branches, flow, after => by
      intro h
      simp only [summarize, bind_eq_ok] at h
      obtain ⟨_, -, h⟩ := h
      exact exists_logsBranches branches flow after h
  | .forEach source item body, flow, after => by
      intro h
      simp only [summarize, bind_eq_ok, pure_eq_ok] at h
      obtain ⟨reads, hreads, inner, hbody, rfl⟩ := h
      obtain ⟨log, hlog, hvisits⟩ := exists_logsBody body _ inner hbody
      have hleave : Logs inner [] inner.leave := .rescope _ (.done _)
      refine ⟨_, .guard hreads (.rescope _ (hlog.trans hleave)), ?_⟩
      rw [List.append_nil, List.map_cons, hvisits, visits]
  | .call _ args, flow, after => by
      intro h
      simp only [summarize, bind_eq_ok, pure_eq_ok] at h
      obtain ⟨reads, hreads, rfl⟩ := h
      exact ⟨_, .evaluate hreads (.done _), rfl⟩
  | .noop, flow, after => by
      intro h
      obtain rfl := Except.ok.inj h
      exact ⟨[], .done flow, rfl⟩
  | .setKey store _ _, flow, after | .deleteKey store _, flow, after
  | .pushAtKey store _ _, flow, after => by
      intro h
      simp only [summarize, bind_eq_ok, pure_eq_ok] at h
      obtain ⟨_, -, reads, hreads, rfl⟩ := h
      exact ⟨_, .write hreads (.done _), rfl⟩
termination_by structural s => s

theorem exists_logsBody : (body : List Statement) → (flow after : Flow) →
    summarizeBody flow body = .ok after →
    ∃ log, Logs flow log after ∧ log.map Visited.visit = visitsBody body
  | [], flow, after => by
      intro h
      obtain rfl := Except.ok.inj h
      exact ⟨[], .done flow, rfl⟩
  | s :: rest, flow, after => by
      intro h
      simp only [summarizeBody, bind_eq_ok] at h
      obtain ⟨middle, hfirst, hrest⟩ := h
      obtain ⟨log, hlog, hvisits⟩ := exists_logs s flow middle hfirst
      obtain ⟨more, hmore, hothers⟩ := exists_logsBody rest middle after hrest
      refine ⟨log ++ more, hlog.trans hmore, ?_⟩
      rw [List.map_append, hvisits, hothers, visitsBody]
termination_by structural body => body

theorem exists_logsBranches : (branches : List (Guard × List Statement)) →
    (flow after : Flow) →
    summarizeBranches flow branches = .ok after →
    ∃ log, Logs flow log after ∧ log.map Visited.visit = visitsBranches branches
  | [], flow, after => by
      intro h
      obtain rfl := Except.ok.inj h
      exact ⟨[], .done flow, rfl⟩
  | (guard, body) :: rest, flow, after => by
      intro h
      simp only [summarizeBranches, bind_eq_ok] at h
      obtain ⟨start, hguard, inner, hbody, hrest⟩ := h
      obtain ⟨test, htest, hvisits⟩ := guard.exists_logs hguard
      obtain ⟨log, hlog, hinner⟩ := exists_logsBody body _ inner hbody
      obtain ⟨more, hmore, hothers⟩ := exists_logsBranches rest _ after hrest
      have henter : Logs start (log ++ more) after := .rescope _ (hlog.trans (.rescope _ hmore))
      refine ⟨test ++ (log ++ more), htest.trans henter, ?_⟩
      rw [List.map_append, List.map_append, hvisits, hinner, hothers, visitsBranches,
        List.append_assoc]
termination_by structural branches => branches
end

end Statement

namespace Function

/-- What changes of stores are said to depend on has two bounds. A change depends on nothing but
stores that were read before it, so there are locks only on stores that the function reads. And it
depends on every store that was read during its own visit or during any guard visited before. -/
theorem dependences_bounded {f : Function} {actions : List Action}
    (h : f.summarize = .ok actions) :
    (∀ j store dependsOn, actions[j]? = some (.mutate store dependsOn) →
      ∀ other ∈ dependsOn, .get other ∈ actions.take j) ∧
    (∃ analysis, f.analyze = .ok analysis ∧ analysis.actions = actions ∧
      ∀ store kind, analysis.locks.get? store = some kind → .get store ∈ actions) ∧
    ∃ log after, f.initialFlow.Logs log after ∧
      log.map Visited.visit = Statement.visitsBody f.body ∧
      log.flatMap Visited.actions = actions ∧
      ∀ j store dependsOn, actions[j]? = some (.mutate store dependsOn) →
        ∃ before values gets rest,
          log = before ++ ⟨.write store values, gets ++ [.mutate store dependsOn]⟩ :: rest ∧
          j = (before.flatMap Visited.actions).length + gets.length ∧
          (∀ other, .get other ∈ gets → other ∈ dependsOn) ∧
          ∀ value recorded, ⟨.guard value, recorded⟩ ∈ before →
            ∀ other, .get other ∈ recorded → other ∈ dependsOn := by
  refine ⟨fun j store dependsOn hj other hother => ?_, ⟨⟨actions, .ofActions actions⟩, ?_, rfl, ?_⟩,
    ?_⟩
  · exact get_mem_take_of_recorded h ⟨_, hj, hother⟩
  · rw [analyze, h]
    rfl
  · intro store kind hkind
    obtain ⟨i, hi⟩ := LockMap.holds_read_ofActions.mp ⟨kind, hkind⟩
    exact List.mem_of_mem_take (get_mem_take_of_recorded h hi)
  · simp only [summarize, bind_eq_ok, pure_eq_ok] at h
    obtain ⟨after, hbody, rfl⟩ := h
    obtain ⟨log, hlog, hvisits⟩ := Statement.exists_logsBody f.body _ after hbody
    have hactions : log.flatMap Visited.actions = after.actions := hlog.actions_eq.symm
    refine ⟨log, after, hlog, hvisits, hactions, fun j store dependsOn hj => ?_⟩
    rw [← hactions] at hj
    obtain ⟨before, values, gets, rest, hlog, hpos, -, hown, hguards⟩ := hlog.writeAt hj
    exact ⟨before, values, gets, rest, hlog, hpos, hown, hguards⟩

/-- A condition reads a store for the key of another; stores are changed in a later arm, in what is
run last and behind a loop. -/
def restock : Function where
  inputs := []
  body :=
    [.choice
      [(.when (.keyExists "orders" (.keyOfObject "index" [.string "k"])), []),
        (.otherwise, [.setKey "stock" [.string "k"] (.int 0)]),
        (.lastly, [.pushAtKey "log" [.string "k"] [.wholeObject "users"]])],
      .forEach (.keysOfObject "queue") "row" [],
      .deleteKey "stock" [.string "k"]]

theorem dependences_bounded_restock :
    ∃ actions log after dependsOn, restock.summarize = .ok actions ∧
      restock.initialFlow.Logs log after ∧ log.flatMap Visited.actions = actions ∧
      actions[6]? = some (.mutate "stock" dependsOn) ∧
      dependsOn.names = ["index", "orders", "queue"] ∧
      (∀ other ∈ dependsOn, .get other ∈ actions.take 6) ∧
      ∃ before values gets rest,
        log = before ++ ⟨.write "stock" values, gets ++ [.mutate "stock" dependsOn]⟩ :: rest ∧
        ∀ value recorded, ⟨.guard value, recorded⟩ ∈ before →
          ∀ other, .get other ∈ recorded → other ∈ dependsOn := by
  obtain ⟨actions, hactions⟩ : ∃ actions, restock.summarize = .ok actions := ⟨_, rfl⟩
  obtain ⟨hupper, -, log, after, hlog, -, hflat, hlower⟩ := dependences_bounded hactions
  obtain rfl := Except.ok.inj hactions
  refine ⟨_, log, after, _, hactions, hlog, hflat, rfl, rfl, hupper 6 _ _ rfl, ?_⟩
  obtain ⟨before, values, gets, rest, hsplit, -, -, hguards⟩ := hlower 6 _ _ rfl
  exact ⟨before, values, gets, rest, hsplit, hguards⟩

end Function

end StoredProcedure
