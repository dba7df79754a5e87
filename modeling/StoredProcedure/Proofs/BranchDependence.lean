import StoredProcedure.Proofs.Sweep

namespace StoredProcedure

namespace Statement

mutual
/-- What a statement does to dependences. Paths end at a `return`, and they end at a loop: what the
rounds of a loop depend on is another question. -/
def course : Statement → Course
  | .ret _ => .cut (.step .pass)
  | .save name value => .step (.declare name value)
  | .update (.saved name) level edit =>
      .step (.change name (edit.isWhole level) (level ++ edit.inputs))
  | .update (.globalObject _) _ _ | .call _ _ | .noop => .step .pass
  | .choice branches => .andThen (courseArms branches) (courseLast branches)
  | .forEach source item body =>
      .cut (.andThen (.step (.guard source))
        (.block (.andThen (.step (.declare item source)) (courseBody body))))
  | .setKey store key value => .write store (key ++ [value])
  | .deleteKey store key => .write store key
  | .pushAtKey store key values => .write store (key ++ values)
termination_by structural s => s

def courseBody : List Statement → Course
  | [] => .step .pass
  | s :: rest => .andThen s.course (courseBody rest)
termination_by structural body => body

/-- One arm is taken, or none. A condition is evaluated before its arm is taken or left out. -/
def courseArms : List (Guard × List Statement) → Course
  | [] => .step .pass
  | (.when condition, body) :: rest =>
      .andThen (.step (.guard condition)) (.either (.block (courseBody body)) (courseArms rest))
  | (.otherwise, body) :: _ => .block (courseBody body)
  | (.lastly, _) :: _ => .step .pass
termination_by structural branches => branches

def courseLast : List (Guard × List Statement) → Course
  | [] => .step .pass
  | (.when _, _) :: rest | (.otherwise, _) :: rest => courseLast rest
  | (.lastly, body) :: _ => .block (courseBody body)
termination_by structural branches => branches
end

theorem scopeAfter_courseArms (branches : List (Guard × List Statement)) (shape : Scope Unit) :
    (courseArms branches).scopeAfter shape = shape := by
  match branches with
  | [] | (.when _, _) :: _ | (.otherwise, _) :: _ | (.lastly, _) :: _ => rfl

mutual
theorem wellScoped_course : (s : Statement) → s.course.WellScoped
  | .ret _ | .save _ _ | .update (.saved _) _ _ | .update (.globalObject _) _ _ | .call _ _ | .noop
  | .setKey _ _ _ | .deleteKey _ _ | .pushAtKey _ _ _ => trivial
  | .choice branches => ⟨wellScoped_courseArms branches, wellScoped_courseLast branches⟩
  | .forEach _ _ body => ⟨trivial, trivial, wellScoped_courseBody body⟩
termination_by structural s => s

theorem wellScoped_courseBody : (body : List Statement) → (courseBody body).WellScoped
  | [] => trivial
  | s :: rest => ⟨wellScoped_course s, wellScoped_courseBody rest⟩
termination_by structural body => body

theorem wellScoped_courseArms :
    (branches : List (Guard × List Statement)) → (courseArms branches).WellScoped
  | [] | (.lastly, _) :: _ => trivial
  | (.when _, body) :: rest =>
      ⟨trivial, wellScoped_courseBody body, wellScoped_courseArms rest,
        fun shape => ⟨rfl, scopeAfter_courseArms rest shape⟩⟩
  | (.otherwise, body) :: _ => wellScoped_courseBody body
termination_by structural branches => branches

theorem wellScoped_courseLast :
    (branches : List (Guard × List Statement)) → (courseLast branches).WellScoped
  | [] => trivial
  | (.when _, _) :: rest | (.otherwise, _) :: rest => wellScoped_courseLast rest
  | (.lastly, body) :: _ => wellScoped_courseBody body
termination_by structural branches => branches
end

end Statement

/-- The stores that are changed by actions, each with what the change depends on. -/
def Action.changes : List Action → List (String × NameSet) :=
  List.filterMap fun
    | .get _ => none
    | .mutate store dependsOn => some (store, dependsOn)

theorem Action.changes_append (actions more : List Action) :
    changes (actions ++ more) = changes actions ++ changes more :=
  List.filterMap_append

theorem Action.changes_gets (sources : List Source) : changes (Source.gets sources) = [] := by
  induction sources with
  | nil => rfl
  | cons source rest ih =>
      cases source with
      | store name => exact ih
      | saved name => exact ih

namespace Walk

/-- A walk sweeps a course. -/
def Sweeps (walk : Walk) (c : Course) : Prop :=
  ∀ t, (Action.changes (walk t).1, (walk t).2) = c.sweep t

variable {walk next : Walk} {c d : Course}

theorem Sweeps.congr (h : walk.Sweeps c) (hsame : ∀ t, d.sweep t = c.sweep t) : walk.Sweeps d :=
  fun t => (h t).trans (hsame t).symm

theorem Sweeps.andThen (h : walk.Sweeps c) (hnext : next.Sweeps d) :
    (walk.andThen next).Sweeps (c.andThen d) := by
  intro t
  rw [Course.sweep, ← h t, ← hnext, Walk.andThen, Action.changes_append]

theorem sweeps_read (values : List Expr) (s : Step) : (read values s.run).Sweeps (.step s) := by
  intro t
  rw [read, Action.changes_gets, Course.sweep]

theorem sweeps_pass (values : List Expr) : (read values id).Sweeps (.step .pass) :=
  sweeps_read values .pass

theorem sweeps_write (store : String) (values : List Expr) :
    (write store values).Sweeps (.write store values) := by
  intro t
  rw [write, Action.changes_append, Action.changes_gets]
  rfl

theorem Sweeps.branch {guard : Walk} {a : Course} (hguard : guard.Sweeps a) (h : walk.Sweeps c)
    (hnext : next.Sweeps d) :
    ((((guard.andThen enter).andThen walk).andThen leave).andThen next).Sweeps
      (.andThen (.andThen a (.block c)) d) := by
  refine Sweeps.andThen (fun t => ?_) hnext
  rw [Course.sweep, ← hguard t, Course.sweep, ← h]
  refine Prod.ext ?_ rfl
  show Action.changes ((guard t).1 ++ [] ++ (walk (guard t).2.enter).1 ++ []) = _
  rw [List.append_nil, List.append_nil, Action.changes_append]

theorem Sweeps.loop (h : walk.Sweeps c) (source : Expr) (item : String) :
    (((round source item).andThen walk).andThen leave).Sweeps
      (.andThen (.step (.guard source)) (.block (.andThen (.step (.declare item source)) c))) := by
  intro t
  let start := (t.guard source).enter.declare item source
  have hswept : Course.sweep (.andThen (.step (.guard source))
      (.block (.andThen (.step (.declare item source)) c))) t =
        ((c.sweep start).1, (c.sweep start).2.leave) := rfl
  rw [hswept, ← h start]
  refine Prod.ext ?_ rfl
  show Action.changes (Source.gets (Expr.sourcesList [source]) ++ (walk start).1 ++ []) = _
  rw [List.append_nil, Action.changes_append, Action.changes_gets, List.nil_append]

end Walk

theorem Choice.courseArms_of_shapeFrom {index : Nat} {branches : List Branch} {shape : Shape}
    (h : shapeFrom index true branches = .ok shape) :
    Statement.courseArms branches = .step .pass := by
  match branches with
  | [] | (.lastly, _) :: _ => rfl
  | (.when _, _) :: _ => cases h
  | (.otherwise, _) :: _ =>
      rw [shapeFrom] at h
      split at h <;> cases h

theorem Choice.shapeFrom_of_when {index : Nat} {otherwiseSeen : Bool} {condition : Expr}
    {body : List Statement} {rest : List Branch} {shape : Shape}
    (h : shapeFrom index otherwiseSeen ((.when condition, body) :: rest) = .ok shape) :
    ∃ tail, shapeFrom (index + 1) false rest = .ok tail := by
  rw [shapeFrom] at h
  split at h
  · cases h
  · obtain ⟨tail, htail, -⟩ := bind_eq_ok.mp h
    exact ⟨tail, htail⟩

theorem Choice.shapeFrom_of_otherwise {index : Nat} {otherwiseSeen : Bool} {body : List Statement}
    {rest : List Branch} {shape : Shape}
    (h : shapeFrom index otherwiseSeen ((.otherwise, body) :: rest) = .ok shape) :
    ∃ tail, shapeFrom (index + 1) true rest = .ok tail := by
  rw [shapeFrom] at h
  split at h
  · cases h
  · split at h
    · cases h
    · obtain ⟨tail, htail, -⟩ := bind_eq_ok.mp h
      exact ⟨tail, htail⟩

theorem Choice.eq_nil_of_shapeFrom {index : Nat} {otherwiseSeen : Bool} {body : List Statement}
    {rest : List Branch} {shape : Shape}
    (h : shapeFrom index otherwiseSeen ((.lastly, body) :: rest) = .ok shape) : rest = [] := by
  rw [shapeFrom] at h
  split at h
  · cases h
  · split at h
    · exact List.isEmpty_iff.mp ‹_›
    · cases h

namespace Statement

mutual
theorem sweeps_course : (s : Statement) → (flow after : Flow) → s.summarize flow = .ok after →
    s.visit.Sweeps s.course
  | .ret _, _, _, _ | .call _ _, _, _, _ | .noop, _, _, _ => Walk.sweeps_pass _
  | .update (.globalObject _) _ _, _, _, h => nomatch h
  | .save name value, _, _, _ => Walk.sweeps_read _ (.declare name value)
  | .update (.saved name) level edit, _, _, _ => Walk.sweeps_read _ (.change name _ _)
  | .choice branches, flow, after, h => by
      obtain ⟨shape, hshape, hbranches⟩ := bind_eq_ok.mp h
      exact sweeps_branches branches 0 false shape flow after hshape hbranches
  | .forEach source item body, flow, after, h => by
      simp only [summarize, bind_eq_ok] at h
      obtain ⟨reads, -, last, hlast, -⟩ := h
      exact (sweeps_courseBody body _ last hlast).loop source item
  | .setKey store _ _, _, _, _ | .deleteKey store _, _, _, _ | .pushAtKey store _ _, _, _, _ =>
      Walk.sweeps_write store _
termination_by structural s => s

theorem sweeps_courseBody : (body : List Statement) → (flow after : Flow) →
    summarizeBody flow body = .ok after → (visitBody body).Sweeps (courseBody body)
  | [], _, _, _ => Walk.sweeps_pass _
  | s :: rest, flow, after, h => by
      obtain ⟨middle, hmiddle, hrest⟩ := bind_eq_ok.mp h
      have hfirst := sweeps_course s flow middle hmiddle
      exact hfirst.andThen (sweeps_courseBody rest middle after hrest)
termination_by structural body => body

theorem sweeps_branches : (branches : List (Guard × List Statement)) → (index : Nat) →
    (otherwiseSeen : Bool) → (shape : Choice.Shape) → (flow after : Flow) →
    Choice.shapeFrom index otherwiseSeen branches = .ok shape →
    summarizeBranches flow branches = .ok after →
    (visitBranches branches).Sweeps (.andThen (courseArms branches) (courseLast branches))
  | [], _, _, _, _, _, _, _ => (Walk.sweeps_pass []).congr fun _ => rfl
  | (.when condition, body) :: rest, index, otherwiseSeen, shape, flow, after, hshape, h => by
      simp only [summarizeBranches, bind_eq_ok] at h
      obtain ⟨start, -, last, hlast, hrest⟩ := h
      obtain ⟨tail, htail⟩ := Choice.shapeFrom_of_when hshape
      have hguard := Walk.sweeps_read [condition] (.guard condition)
      have hbranches := sweeps_branches rest (index + 1) false tail _ after htail hrest
      refine (hguard.branch (sweeps_courseBody body _ last hlast) hbranches).congr fun t => ?_
      simp only [courseArms, courseLast, Course.sweep, List.append_assoc]
  | (.otherwise, body) :: rest, index, otherwiseSeen, shape, flow, after, hshape, h => by
      simp only [summarizeBranches, bind_eq_ok] at h
      obtain ⟨start, -, last, hlast, hrest⟩ := h
      obtain ⟨tail, htail⟩ := Choice.shapeFrom_of_otherwise hshape
      have hbranches := sweeps_branches rest (index + 1) true tail _ after htail hrest
      rw [Choice.courseArms_of_shapeFrom htail] at hbranches
      refine ((Walk.sweeps_pass []).branch (sweeps_courseBody body _ last hlast) hbranches).congr
        fun t => ?_
      simp only [courseArms, courseLast, Course.sweep, List.nil_append, Step.run]
  | (.lastly, body) :: rest, index, otherwiseSeen, shape, flow, after, hshape, h => by
      obtain rfl := Choice.eq_nil_of_shapeFrom hshape
      simp only [summarizeBranches, bind_eq_ok] at h
      obtain ⟨start, -, last, hlast, -⟩ := h
      refine ((Walk.sweeps_pass []).branch (sweeps_courseBody body _ last hlast)
        (Walk.sweeps_pass [])).congr fun t => ?_
      simp only [courseArms, courseLast, Course.sweep, List.nil_append, List.append_nil, Step.run]
termination_by structural branches => branches
end

end Statement

namespace Function

def course (f : Function) : Course :=
  Statement.courseBody f.body

/-- The paths through a function. -/
def paths (f : Function) : List Path :=
  f.course.paths 0 f.initialFlow.track

/-- The writes for all paths through a function at once. -/
def merged (f : Function) : List Write :=
  (f.course.merged 0 (some f.initialFlow.track)).1

/-- No branch replaces a variable from outside the branch. -/
def spares (f : Function) : Bool :=
  f.course.spares f.initialFlow.track.shape

variable {f : Function} {actions : List Action}

theorem changes_of_summarize (h : f.summarize = .ok actions) :
    Action.changes actions = (f.course.sweep f.initialFlow.track).1 := by
  obtain ⟨after, hafter, hactions⟩ := bind_eq_ok.mp h
  have hwalk := Statement.follows_visitBody f.body _ _ after rfl hafter f.initialFlow rfl
  have hsweep := Statement.sweeps_courseBody f.body _ after hafter f.initialFlow.track
  obtain rfl := Except.ok.inj (hafter.symm.trans hwalk)
  obtain rfl := Except.ok.inj hactions
  exact congrArg Prod.fst hsweep

theorem exists_recorded_of_summarize (h : f.summarize = .ok actions) {path : Path}
    (hpath : path ∈ f.paths) {w : Write} (hw : w ∈ path.writes) :
    ∃ dependsOn, (Action.changes actions)[w.number]? = some (w.store, dependsOn) := by
  have hstore := f.course.store_of_mem_paths [] f.initialFlow.track path hpath w hw
  rw [List.nil_append, ← f.course.map_fst_sweep f.initialFlow.track, ← changes_of_summarize h,
    List.getElem?_map] at hstore
  obtain ⟨⟨store, dependsOn⟩, hget, rfl⟩ := Option.map_eq_some_iff.mp hstore
  exact ⟨dependsOn, hget⟩

/-- Every write on a path is recorded. All that it depends on is recorded on every path exactly if
what is recorded includes what is found for all paths at once. This is so if no branch replaces a
variable from outside the branch. -/
theorem covered_iff_of_summarize (h : f.summarize = .ok actions) :
    (∀ path ∈ f.paths, ∀ w ∈ path.writes, ∃ dependsOn,
      (Action.changes actions)[w.number]? = some (w.store, dependsOn)) ∧
    ((∀ path ∈ f.paths, ∀ w ∈ path.writes, w.Covered (Action.changes actions)) ↔
      ∀ w ∈ f.merged, ∀ dependsOn, (Action.changes actions)[w.number]? = some (w.store, dependsOn) →
        ∀ name ∈ w.dependences, name ∈ dependsOn) ∧
    (f.spares = true →
      ∀ path ∈ f.paths, ∀ w ∈ path.writes, w.Covered (Action.changes actions)) := by
  have hwell : f.course.WellScoped := Statement.wellScoped_courseBody f.body
  refine ⟨fun path hpath w hw => exists_recorded_of_summarize h hpath hw, ?_, ?_⟩
  · rw [paths, Course.forall_covered_iff_merged hwell]
    refine forall₂_congr fun w hw => ⟨fun hcovered dependsOn hget name hname => ?_,
      fun hincluded name hname => ?_⟩
    · obtain ⟨other, hother, hmem⟩ := hcovered name hname
      obtain ⟨-, rfl⟩ := Prod.mk.inj (Option.some.inj (hget.symm.trans hother))
      exact hmem
    · obtain ⟨path, hpath, other, hother, hnumber, hstore, -⟩ :=
        (f.course.depends_merged_iff_paths hwell).mp ⟨w, hw, rfl, rfl, hname⟩
      obtain ⟨dependsOn, hget⟩ := exists_recorded_of_summarize h hpath hother
      rw [hnumber, hstore] at hget
      exact ⟨dependsOn, hget, hincluded dependsOn hget name hname⟩
  · intro hspares path hpath w hw
    rw [changes_of_summarize h]
    exact f.course.covered_sweep hwell [] _ _ rfl (fun _ _ hhas => hhas) hspares path hpath w hw

/-- A branch adds to a variable from outside, and replaces one of its own. -/
def adding : Function where
  inputs := []
  body :=
    [.save "x" (.array []),
      .choice
        [(.when (.keyExists "a" (.string "k")),
          [.save "y" (.keyOfObject "b" [.string "k"]),
            .update (.saved "x") [] (.push [.saved "y"]),
            .update (.saved "y") [] (.set (.int 0))])],
      .setKey "out" [.string "k"] (.saved "x")]

theorem covered_iff_of_summarize_adding :
    adding.summarize =
        .ok [.get "a", .get "b", .mutate "out" (.ofList ["a", "b"])] ∧
      ∀ path ∈ adding.paths, ∀ w ∈ path.writes, w.Covered [("out", .ofList ["a", "b"])] := by
  have h : adding.summarize =
      .ok [.get "a", .get "b", .mutate "out" (.ofList ["a", "b"])] := rfl
  exact ⟨h, (covered_iff_of_summarize h).2.2 rfl⟩

/-- A branch replaces a variable from outside. -/
def shedding : Function where
  inputs := []
  body :=
    [.save "x" (.keyOfObject "a" [.string "k"]),
      .choice [(.when (.bool false), [.update (.saved "x") [] (.set (.int 0))])],
      .setKey "out" [.string "k"] (.saved "x")]

/-- The path that leaves out the branch writes what depends on a store, and this is not recorded. -/
theorem shedding_not_covered :
    shedding.summarize = .ok [.get "a", .mutate "out" .empty] ∧
      ∃ path ∈ shedding.paths, ∃ w ∈ path.writes, ¬ w.Covered [("out", .empty)] := by
  refine ⟨rfl, _, .tail _ (.head _), ⟨0, "out", .singleton "a"⟩, .head _, fun hcovered => ?_⟩
  obtain ⟨dependsOn, hget, hmem⟩ := hcovered "a" (NameSet.mem_singleton.mpr rfl)
  cases hget
  exact NameSet.not_mem_empty "a" hmem

end Function

end StoredProcedure
