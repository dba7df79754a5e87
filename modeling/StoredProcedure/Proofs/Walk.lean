import StoredProcedure.Proofs.CodeScope
import StoredProcedure.Proofs.Track

namespace StoredProcedure

namespace Action

/-- The stores that an action is said to depend on. -/
def dependsOn : Action → NameSet
  | .get _ => .empty
  | .mutate _ dependsOn => dependsOn

/-- An action without what it depends on. -/
def bare : Action → Action
  | .get store => .get store
  | .mutate store _ => .mutate store .empty

/-- The action with the number `k` is said to depend on a store. -/
def Recorded (actions : List Action) (k : Nat) (store : String) : Prop :=
  ∃ action, actions[k]? = some action ∧ store ∈ action.dependsOn

theorem recorded_append {actions more : List Action} {k : Nat} {store : String} :
    Recorded (actions ++ more) k store ↔
      Recorded actions k store ∨
        (actions.length ≤ k ∧ Recorded more (k - actions.length) store) := by
  rw [Recorded]
  rcases Nat.lt_or_ge k actions.length with hlt | hge
  · rw [List.getElem?_append_left hlt]
    simp [Recorded, Nat.not_le.mpr hlt]
  · rw [List.getElem?_append_right hge]
    simp [Recorded, hge]

theorem recorded_singleton {action : Action} {k : Nat} {store : String} :
    Recorded [action] k store ↔ k = 0 ∧ store ∈ action.dependsOn := by
  cases k with
  | zero => simp [Recorded]
  | succ k => simp [Recorded]

end Action

/-- Goes through something on a track. -/
abbrev Walk := Track → List Action × Track

namespace Walk

def andThen (first next : Walk) : Walk := fun t =>
  ((first t).1 ++ (next (first t).2).1, (next (first t).2).2)

/-- Evaluates values and changes the track. -/
def read (values : List Expr) (change : Track → Track) : Walk := fun t =>
  (Source.gets (Expr.sourcesList values), change t)

/-- Changes a store. -/
def write (store : String) (values : List Expr) : Walk := fun t =>
  (Source.gets (Expr.sourcesList values) ++ [.mutate store (t.written values)], t)

def enter : Walk := read [] Track.enter

def leave : Walk := read [] Track.leave

/-- The start of a round of a loop: the source decides that it is run, and the item depends on what
the source depends on. -/
def round (source : Expr) (item : String) : Walk :=
  read [source] fun t => (t.guard source).enter.declare item source

/-- Always the same actions are recorded, and all that is known after the walk is carried. -/
structure Carries (shape after : Scope Unit) (walk : Walk) : Prop where
  track : Track.Carries shape after fun t => (walk t).2
  bare : ∃ actions, ∀ t, (walk t).1.map Action.bare = actions
  recorded : ∀ k, Track.Carried shape fun t store => Action.Recorded (walk t).1 k store

variable {shape after final : Scope Unit}

theorem Carries.andThen {first next : Walk} (hfirst : Carries shape after first)
    (hnext : Carries after final next) : Carries shape final (first.andThen next) := by
  obtain ⟨actions, hactions⟩ := hfirst.bare
  obtain ⟨more, hmore⟩ := hnext.bare
  refine ⟨hfirst.track.comp hnext.track, ⟨actions ++ more, fun t => ?_⟩, fun k => ?_⟩
  · rw [Walk.andThen, List.map_append, hactions, hmore]
  · have hlength : ∀ t, (first t).1.length = actions.length := by
      intro t
      rw [← hactions t, List.length_map]
    have hrest := ((hnext.recorded (k - actions.length)).comp hfirst.track).and (actions.length ≤ k)
    refine ((hfirst.recorded k).or hrest).congr fun t _ store => ?_
    rw [Walk.andThen, Action.recorded_append, hlength t]

theorem not_recorded_gets {sources : List Source} {k : Nat} {store : String} :
    ¬ Action.Recorded (Source.gets sources) k store := by
  rintro ⟨action, haction, hstore⟩
  obtain ⟨source, -, hsource⟩ := List.mem_filterMap.mp (List.mem_of_getElem? haction)
  cases source with
  | store name =>
      obtain rfl := Option.some.inj hsource
      exact NameSet.not_mem_empty store hstore
  | saved name => cases hsource

theorem carries_read {change : Track → Track} (values : List Expr)
    (h : Track.Carries shape after change) : Carries shape after (read values change) := by
  refine ⟨h, ⟨(Source.gets (Expr.sourcesList values)).map Action.bare, fun _ => rfl⟩, fun k => ?_⟩
  refine (Track.carried_stores shape fun _ => False).congr fun t _ store => ?_
  exact iff_of_false not_recorded_gets id

theorem carries_enter (shape : Scope Unit) : Carries shape shape.enter enter :=
  carries_read [] (Track.carries_enter shape)

theorem carries_leave (shape : Scope Unit) : Carries shape shape.leave leave :=
  carries_read [] (Track.carries_leave shape)

theorem carries_round (shape : Scope Unit) (source : Expr) (item : String) :
    Carries shape (shape.enter.add item ()) (round source item) :=
  carries_read [source] (((Track.carries_guard shape source).comp (Track.carries_enter shape)).comp
    (Track.carries_declare shape.enter item source))

theorem carries_write (shape : Scope Unit) (store : String) (values : List Expr) :
    Carries shape shape (write store values) := by
  refine ⟨Track.carries_id shape,
    ⟨(Source.gets (Expr.sourcesList values)).map Action.bare ++ [.mutate store .empty],
      fun t => ?_⟩, fun k => ?_⟩
  · exact List.map_append
  · refine ((Track.carried_written shape values).and
      (k = (Source.gets (Expr.sourcesList values)).length)).congr fun t _ other => ?_
    rw [write, Action.recorded_append, or_iff_right not_recorded_gets, Action.recorded_singleton,
      ← and_assoc]
    exact and_congr_left' ⟨fun h => by omega, fun h => by omega⟩

end Walk

/-- What the guard of a branch does before its body. -/
def Guard.visit : Guard → Walk
  | .when condition => .read [condition] (·.guard condition)
  | .otherwise | .lastly => .read [] id

namespace Statement

mutual
/-- The walk through a statement, every part of it being visited once. -/
def visit : Statement → Walk
  | .ret value => .read value.toList id
  | .save name value => .read [value] (·.declare name value)
  | .update (.globalObject _) _ _ => .read [] id
  | .update (.saved name) level edit =>
      .read (level ++ edit.inputs) (·.change name (edit.isWhole level) (level ++ edit.inputs))
  | .choice branches => visitBranches branches
  | .forEach source item body =>
      ((Walk.round source item).andThen (visitBody body)).andThen .leave
  | .call _ args => .read args id
  | .noop => .read [] id
  | .setKey store key value => .write store (key ++ [value])
  | .deleteKey store key => .write store key
  | .pushAtKey store key values => .write store (key ++ values)
termination_by structural s => s

def visitBody : List Statement → Walk
  | [] => .read [] id
  | s :: rest => s.visit.andThen (visitBody rest)
termination_by structural body => body

def visitBranches : List (Guard × List Statement) → Walk
  | [] => .read [] id
  | (guard, body) :: rest =>
      (((guard.visit.andThen .enter).andThen (visitBody body)).andThen .leave).andThen
        (visitBranches rest)
termination_by structural branches => branches
end

/-- The scope after statements. -/
def scopeAfterBody (shape : Scope Unit) (body : List Statement) : Scope Unit :=
  body.foldl (fun shape s => s.scopeAfter shape) shape

theorem leave_scopeAfterBody (shape : Scope Unit) (body : List Statement) :
    (scopeAfterBody shape body).leave = shape.leave := by
  induction body generalizing shape with
  | nil => rfl
  | cons s rest ih =>
      rw [scopeAfterBody, List.foldl_cons]
      refine (ih _).trans ?_
      rw [Scope.leave, Scope.leave, outer_scopeAfter]

end Statement

theorem Guard.carries_visit (shape : Scope Unit) (guard : Guard) :
    Walk.Carries shape shape guard.visit := by
  cases guard with
  | when condition => exact Walk.carries_read _ (Track.carries_guard shape condition)
  | otherwise => exact Walk.carries_read _ (Track.carries_id shape)
  | lastly => exact Walk.carries_read _ (Track.carries_id shape)

namespace Statement

mutual
theorem carries_visit : (s : Statement) → (shape : Scope Unit) →
    Walk.Carries shape (s.scopeAfter shape) s.visit
  | .ret _, shape | .update (.globalObject _) _ _, shape | .call _ _, shape | .noop, shape =>
      Walk.carries_read _ (Track.carries_id shape)
  | .save name value, shape => Walk.carries_read _ (Track.carries_declare shape name value)
  | .update (.saved name) level edit, shape =>
      Walk.carries_read _ (Track.carries_change shape name _ _)
  | .choice branches, shape => carries_visitBranches branches shape
  | .forEach source item body, shape => by
      have hbody := carries_visitBody body (shape.enter.add item ())
      have hleave := Walk.carries_leave (scopeAfterBody (shape.enter.add item ()) body)
      rw [leave_scopeAfterBody] at hleave
      exact ((Walk.carries_round shape source item).andThen hbody).andThen hleave
  | .setKey store _ _, shape | .deleteKey store _, shape | .pushAtKey store _ _, shape =>
      Walk.carries_write shape store _
termination_by structural s => s

theorem carries_visitBody : (body : List Statement) → (shape : Scope Unit) →
    Walk.Carries shape (scopeAfterBody shape body) (visitBody body)
  | [], shape => Walk.carries_read _ (Track.carries_id shape)
  | s :: rest, shape => (carries_visit s shape).andThen (carries_visitBody rest _)
termination_by structural body => body

theorem carries_visitBranches : (branches : List (Guard × List Statement)) →
    (shape : Scope Unit) → Walk.Carries shape shape (visitBranches branches)
  | [], shape => Walk.carries_read _ (Track.carries_id shape)
  | (guard, body) :: rest, shape => by
      have hguard := (guard.carries_visit shape).andThen (Walk.carries_enter shape)
      have hbody := hguard.andThen (carries_visitBody body shape.enter)
      have hleave := Walk.carries_leave (scopeAfterBody shape.enter body)
      rw [leave_scopeAfterBody] at hleave
      exact (hbody.andThen hleave).andThen (carries_visitBranches rest shape)
termination_by structural branches => branches
end

end Statement

namespace Flow

def track (flow : Flow) : Track :=
  ⟨flow.taints, flow.path⟩

/-- Goes on after a walk. -/
def extend (flow : Flow) (walked : List Action × Track) : Flow :=
  ⟨walked.2.taints, walked.2.path, flow.actions ++ walked.1⟩

theorem extend_extend (flow : Flow) (first next : Walk) :
    (flow.extend (first flow.track)).extend (next (flow.extend (first flow.track)).track) =
      flow.extend (first.andThen next flow.track) := by
  rw [extend, extend, extend, List.append_assoc]
  rfl

end Flow

namespace Walk

/-- A summary that is a walk wherever it succeeds for the names in scope. -/
def Follows (walk : Walk) (shape : Scope Unit) (summary : Flow → Except Fault Flow) : Prop :=
  ∀ flow after : Flow, flow.track.shape = shape → summary flow = .ok after →
    ∀ other : Flow, other.track.shape = shape →
      summary other = .ok (other.extend (walk other.track))

variable {shape after : Scope Unit}

theorem Follows.andThen {first next : Walk} {summary more : Flow → Except Fault Flow}
    (hcarries : first.Carries shape after) (hfirst : first.Follows shape summary)
    (hnext : next.Follows after more) :
    (first.andThen next).Follows shape fun flow => summary flow >>= more := by
  intro flow final hflow hsummary other hother
  obtain ⟨middle, hmiddle, hmore⟩ := bind_eq_ok.mp hsummary
  have hstart := hfirst flow middle hflow hmiddle flow hflow
  obtain rfl := Except.ok.inj (hmiddle.symm.trans hstart)
  have hrest := hnext (flow.extend (first flow.track)) final (hcarries.track.shape_eq _ hflow) hmore
    (other.extend (first other.track)) (hcarries.track.shape_eq _ hother)
  show summary other >>= more = _
  rw [hfirst flow _ hflow hmiddle other hother, ← Flow.extend_extend, ← hrest]
  rfl

theorem follows_read {values : List Expr} {change : Track → Track} (summary : Flow → Reads → Flow)
    (h : ∀ flow : Flow,
      summary flow (.ofSources flow.taints (Expr.sourcesList values)) =
        flow.extend (read values change flow.track)) :
    (read values change).Follows shape fun flow => do
      return summary flow (← Expr.readsList flow.taints values) := by
  intro flow after hflow hsummary other hother
  obtain ⟨reads, hreads, -⟩ := bind_eq_ok.mp hsummary
  have hshape : other.taints.shape = flow.taints.shape := hother.trans hflow.symm
  show (Expr.readsList other.taints values >>= _) = _
  rw [Expr.readsList_of_shape hshape values hreads, ← h other]
  rfl

theorem Follows.check {α : Type} {walk : Walk} {summary : Flow → Except Fault Flow}
    {check : Flow → Except Fault α} (hwalk : walk.Follows shape summary)
    (hcheck : ∀ flow other : Flow, flow.track.shape = shape → other.track.shape = shape →
      ∀ result, check flow = .ok result → ∃ again, check other = .ok again) :
    walk.Follows shape fun flow => check flow >>= fun _ => summary flow := by
  intro flow after hflow hsummary other hother
  obtain ⟨result, hresult, hrest⟩ := bind_eq_ok.mp hsummary
  obtain ⟨again, hagain⟩ := hcheck flow other hflow hother result hresult
  show check other >>= _ = _
  rw [hagain]
  exact hwalk flow after hflow hrest other hother

theorem follows_pure {change : Track → Track} {summary : Flow → Flow}
    (h : ∀ flow : Flow,
      summary flow = ⟨(change flow.track).taints, (change flow.track).path, flow.actions⟩) :
    (read [] change).Follows shape fun flow => pure (summary flow) := by
  intro flow after hflow hsummary other hother
  have hnil : other.actions ++ Source.gets (Expr.sourcesList []) = other.actions :=
    List.append_nil other.actions
  show pure (summary other) = _
  rw [h other, Flow.extend, read, hnil]
  rfl

theorem follows_enter : enter.Follows shape fun flow => pure flow.enter :=
  follows_pure fun _ => rfl

theorem follows_leave : leave.Follows shape fun flow => pure flow.leave :=
  follows_pure fun _ => rfl

theorem follows_round (source : Expr) (item : String) :
    (round source item).Follows shape fun flow => do
      let reads ← Expr.readsList flow.taints [source]
      return (flow.guard reads).enter.declare item reads.taint :=
  follows_read (fun flow reads => (flow.guard reads).enter.declare item reads.taint) fun _ => rfl

end Walk

theorem Expr.readsList_singleton (taints : Taints) (e : Expr) :
    readsList taints [e] = e.reads taints := by
  rw [readsList]
  cases e.reads taints with
  | error fault => rfl
  | ok reads =>
      have hnone : reads ++ Reads.none = reads :=
        congrArg (Reads.mk · reads.taint) (List.append_nil reads.actions)
      exact congrArg Except.ok hnone

theorem Expr.readsList_toList (taints : Taints) (o : Option Expr) :
    readsList taints o.toList = readsOption taints o := by
  cases o with
  | none => rfl
  | some e => exact readsList_singleton taints e

theorem Guard.follows_visit (shape : Scope Unit) (guard : Guard) :
    guard.visit.Follows shape fun flow => Statement.summarizeGuard flow guard := by
  cases guard with
  | when condition =>
      simp only [Statement.summarizeGuard, ← Expr.readsList_singleton]
      exact Walk.follows_read _ fun _ => rfl
  | otherwise => exact Walk.follows_pure fun _ => rfl
  | lastly => exact Walk.follows_pure fun _ => rfl

namespace Statement

theorem follows_write (shape : Scope Unit) (store : String) (values : List Expr) :
    (Walk.write store values).Follows shape fun flow => do
      return flow.write store (← Expr.readsList flow.taints values) := by
  intro flow after hflow hsummary other hother
  obtain ⟨reads, hreads, -⟩ := bind_eq_ok.mp hsummary
  have hshape : other.taints.shape = flow.taints.shape := hother.trans hflow.symm
  show (Expr.readsList other.taints values >>= _) = _
  rw [Expr.readsList_of_shape hshape values hreads]
  refine congrArg Except.ok ?_
  rw [Flow.write, List.append_assoc]
  rfl

theorem follows_update (shape : Scope Unit) (name : String) (level : List Expr) (edit : Edit) :
    (visit (.update (.saved name) level edit)).Follows shape fun flow =>
      summarizeUpdate flow name level edit := by
  have hread : (visit (.update (.saved name) level edit)).Follows shape fun flow => do
      return flow.change name (edit.isWhole level)
        (← Expr.readsList flow.taints (level ++ edit.inputs)) :=
    Walk.follows_read _ fun _ => rfl
  refine Walk.Follows.check ?_ fun flow other hflow hother taint htaint =>
    Taints.resolve_of_shape (hother.trans hflow.symm) htaint
  cases edit with
  | push values => exact hread
  | set value => exact hread
  | deleteField => exact hread.check fun _ _ _ _ result hresult => ⟨result, hresult⟩

mutual
/-- A summary of a statement walks through it. -/
theorem follows_visit : (s : Statement) → (shape : Scope Unit) →
    s.visit.Follows shape fun flow => s.summarize flow
  | .ret value, shape => by
      simp only [summarize, ← Expr.readsList_toList]
      exact Walk.follows_read _ fun _ => rfl
  | .save name value, shape => by
      simp only [summarize, ← Expr.readsList_singleton]
      exact Walk.follows_read (fun flow reads => (flow.read reads).declare name reads.taint)
        fun _ => rfl
  | .update (.globalObject _) _ _, shape => by
      intro flow after _ h
      cases h
  | .update (.saved name) level edit, shape => follows_update shape name level edit
  | .choice branches, shape =>
      (follows_visitBranches branches shape).check fun _ _ _ _ result hresult => ⟨result, hresult⟩
  | .forEach source item body, shape => by
      have hround := Walk.carries_round shape source item
      have hbody := (Walk.follows_round source item).andThen hround (follows_visitBody body _)
      have hleave := hbody.andThen (hround.andThen (carries_visitBody body _)) Walk.follows_leave
      simpa only [summarize, visit, ← Expr.readsList_singleton, bind_assoc, pure_bind] using hleave
  | .call _ _, _ => Walk.follows_read _ fun _ => rfl
  | .noop, _ => Walk.follows_pure fun _ => rfl
  | .setKey store key value, shape =>
      (follows_write shape store (key ++ [value])).check
        fun _ _ _ _ result hresult => ⟨result, hresult⟩
  | .deleteKey store key, shape =>
      (follows_write shape store key).check fun _ _ _ _ result hresult => ⟨result, hresult⟩
  | .pushAtKey store key values, shape =>
      (follows_write shape store (key ++ values)).check
        fun _ _ _ _ result hresult => ⟨result, hresult⟩
termination_by structural s => s

theorem follows_visitBody : (body : List Statement) → (shape : Scope Unit) →
    (visitBody body).Follows shape fun flow => summarizeBody flow body
  | [], _ => Walk.follows_pure fun _ => rfl
  | s :: rest, shape =>
      (follows_visit s shape).andThen (carries_visit s shape) (follows_visitBody rest _)
termination_by structural body => body

theorem follows_visitBranches : (branches : List (Guard × List Statement)) →
    (shape : Scope Unit) →
    (visitBranches branches).Follows shape fun flow => summarizeBranches flow branches
  | [], _ => Walk.follows_pure fun _ => rfl
  | (guard, body) :: rest, shape => by
      have hguard := (guard.carries_visit shape).andThen (Walk.carries_enter shape)
      have henter := (guard.follows_visit shape).andThen (guard.carries_visit shape)
        Walk.follows_enter
      have hbody := henter.andThen hguard (follows_visitBody body shape.enter)
      have hcarries := hguard.andThen (carries_visitBody body shape.enter)
      have hleave := hbody.andThen hcarries Walk.follows_leave
      have hclose := Walk.carries_leave (scopeAfterBody shape.enter body)
      rw [leave_scopeAfterBody] at hclose
      have hrest := hleave.andThen (hcarries.andThen hclose) (follows_visitBranches rest shape)
      simpa only [summarizeBranches, visitBranches, bind_assoc, pure_bind] using hrest
termination_by structural branches => branches
end

end Statement

end StoredProcedure
