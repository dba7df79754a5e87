import StoredProcedure.Proofs.Walk

namespace StoredProcedure

namespace Statement

/-- Walks the body of a loop for a number of rounds, each time with the item bound anew. -/
def summarizeRounds (body : List Statement) (item : String) (taint : NameSet) :
    Nat → Flow → Except Fault Flow
  | 0, flow => .ok flow
  | n + 1, flow => do
      let after ← summarizeBody (flow.enter.declare item taint) body
      summarizeRounds body item taint n after.leave

/-- Wherever the body is walked with these names in scope, the action with the number `k` is
recorded with all the stores that the place holds at the start. -/
def Reaches (body : List Statement) (names : Scope Unit) (place : Place) (k : Nat) : Prop :=
  ∀ start final : Flow, start.track.shape = names → summarizeBody start body = .ok final →
    ∀ store, start.track.Has store place →
      Action.Recorded (final.actions.drop start.actions.length) k store

variable {body : List Statement} {names : Scope Unit}

theorem drop_actions_extend (flow : Flow) (walked : List Action × Track) :
    (flow.extend walked).actions.drop flow.actions.length = walked.1 :=
  List.drop_left

theorem summarizeBody_eq_visitBody {start final : Flow} (hstart : start.track.shape = names)
    (h : summarizeBody start body = .ok final) (other : Flow) (hother : other.track.shape = names) :
    summarizeBody other body = .ok (other.extend (visitBody body other.track)) :=
  follows_visitBody body names start final hstart h other hother

theorem summarizeRounds_eq_ok {item : String} {taint : NameSet}
    (hbody : ∀ start : Flow, start.track.shape = names.enter.add item () →
      ∃ final, summarizeBody start body = .ok final) (n : Nat) :
    ∀ flow : Flow, flow.track.shape = names →
      ∃ after, summarizeRounds body item taint n flow = .ok after ∧ after.track.shape = names := by
  induction n with
  | zero =>
      intro flow hflow
      exact ⟨flow, rfl, hflow⟩
  | succ n ih =>
      intro flow hflow
      have hstart : (flow.enter.declare item taint).track.shape = names.enter.add item () := by
        rw [← hflow]
        rfl
      obtain ⟨final, hfinal⟩ := hbody _ hstart
      have hwalk := summarizeBody_eq_visitBody hstart hfinal _ hstart
      have hleave : ((flow.enter.declare item taint).extend
          (visitBody body (flow.enter.declare item taint).track)).leave.track.shape = names := by
        have hafter := (carries_visitBody body _).track.shape_eq _ hstart
        have hshape := (Track.carries_leave _).shape_eq _ hafter
        rw [leave_scopeAfterBody] at hshape
        exact hshape
      obtain ⟨after, hafter, hnames⟩ := ih _ hleave
      refine ⟨after, ?_, hnames⟩
      rw [summarizeRounds, hwalk]
      exact hafter

/-- What a walk records beyond another walk of the same body comes from places that reach it. -/
theorem recorded_iff_of_reaches {first start : Flow} {after final : Flow}
    (hfirst : first.track.shape = names) (hstart : start.track.shape = names)
    (hafter : summarizeBody first body = .ok after)
    (hfinal : summarizeBody start body = .ok final) :
    (∀ k store, Action.Recorded (final.actions.drop start.actions.length) k store →
      Action.Recorded (after.actions.drop first.actions.length) k store) ↔
    ∀ place k, Reaches body names place k → ∀ store, start.track.Has store place →
      Action.Recorded (after.actions.drop first.actions.length) k store := by
  constructor
  · intro hcovered place k hreaches store hhas
    exact hcovered k store (hreaches start final hstart hfinal store hhas)
  · intro hplaces k store hrecorded
    obtain ⟨stores, places, hlaw⟩ := (carries_visitBody body names).recorded k
    have hwalk := summarizeBody_eq_visitBody hfirst hafter
    have hreaches : ∀ place, places place → Reaches body names place k := by
      intro place hplace other last hother hlast store hhas
      rw [hwalk other hother] at hlast
      obtain rfl := Except.ok.inj hlast
      rw [drop_actions_extend]
      exact (hlaw other.track hother store).mpr (.inr ⟨place, hplace, hhas⟩)
    rw [hwalk start hstart] at hfinal
    obtain rfl := Except.ok.inj hfinal
    rw [drop_actions_extend] at hrecorded
    rcases (hlaw start.track hstart store).mp hrecorded with hstore | ⟨place, hplace, hhas⟩
    · rw [hwalk first hfirst] at hafter
      obtain rfl := Except.ok.inj hafter
      rw [drop_actions_extend]
      exact (hlaw first.track hfirst store).mpr (.inl hstore)
    · exact hplaces place k (hreaches place hplace) store hhas

/-- A loop that is accepted is accepted for any number of rounds, and every round records the same
actions. What a round records is recorded by the one walk of the summary exactly if each place that
reaches an action holds at the start of the round only stores that the walk has recorded for it. -/
theorem covered_iff_of_forEach {flow result : Flow} {source : Expr} {item : String}
    (h : summarize flow (.forEach source item body) = .ok result) :
    ∃ (reads : Reads) (first : List Action), source.reads flow.taints = .ok reads ∧
      result.actions = flow.actions ++ reads.actions ++ first ∧
      ∀ n : Nat, ∃ (before final : Flow) (round : List Action),
        summarizeRounds body item reads.taint n (flow.guard reads) = .ok before ∧
        summarizeBody (before.enter.declare item reads.taint) body = .ok final ∧
        final.actions = before.actions ++ round ∧ round.map Action.bare = first.map Action.bare ∧
        ((∀ k store, Action.Recorded round k store → Action.Recorded first k store) ↔
          ∀ place k, Reaches body (flow.track.shape.enter.add item ()) place k →
            ∀ store, (before.enter.declare item reads.taint).track.Has store place →
              Action.Recorded first k store) := by
  simp only [summarize, bind_eq_ok, pure_eq_ok] at h
  obtain ⟨reads, hreads, after, hafter, rfl⟩ := h
  have hnames : ∀ start : Flow, start.track.shape = flow.track.shape →
      (start.enter.declare item reads.taint).track.shape = flow.track.shape.enter.add item () := by
    intro start hstart
    rw [← hstart]
    rfl
  have hwalk := summarizeBody_eq_visitBody (hnames (flow.guard reads) rfl) hafter
  have hfirst := hwalk _ (hnames (flow.guard reads) rfl)
  rw [hfirst] at hafter
  obtain rfl := Except.ok.inj hafter
  refine ⟨reads, _, hreads, rfl, fun n => ?_⟩
  obtain ⟨before, hbefore, hshape⟩ := summarizeRounds_eq_ok
    (fun start hstart => ⟨_, hwalk start hstart⟩) n (flow.guard reads) rfl
  have hround := hwalk _ (hnames before hshape)
  refine ⟨before, _, _, hbefore, hround, rfl, ?_, ?_⟩
  · obtain ⟨actions, hactions⟩ := (carries_visitBody body (flow.track.shape.enter.add item ())).bare
    rw [hactions, hactions]
  · have hcovered := recorded_iff_of_reaches (hnames (flow.guard reads) rfl) (hnames before hshape)
      hfirst hround
    rwa [drop_actions_extend, drop_actions_extend] at hcovered

/-- A body that writes what a variable from outside the loop holds, and then puts a stored value
into this variable. -/
def carryOver : List Statement :=
  [.setKey "out" [.string "k"] (.saved "x"),
    .update (.saved "x") [] (.set (.keyOfObject "a" [.string "k"]))]

/-- The flow before the loop, where the variable depends on nothing. -/
def beforeCarryOver : Flow := ⟨Scope.empty.add "x" .empty, .empty, []⟩

theorem covered_iff_of_forEach_carryOver :
    ∃ before, summarizeRounds carryOver "row" .empty 1 beforeCarryOver = .ok before ∧
      ∃ place k store, Reaches carryOver (beforeCarryOver.track.shape.enter.add "row" ()) place k ∧
        (before.enter.declare "row" .empty).track.Has store place ∧
        ¬ Action.Recorded [.mutate "out" .empty, .get "a"] k store := by
  have h : summarize beforeCarryOver (.forEach (.array [.int 1, .int 2]) "row" carryOver) =
      .ok ⟨Scope.empty.add "x" (.singleton "a"), .empty, [.mutate "out" .empty, .get "a"]⟩ := rfl
  obtain ⟨reads, first, hreads, hactions, hrounds⟩ := covered_iff_of_forEach h
  obtain rfl := Except.ok.inj hreads
  obtain rfl : [.mutate "out" .empty, .get "a"] = first := hactions
  obtain ⟨before, final, round, hbefore, hfinal, hround, -, hiff⟩ := hrounds 1
  obtain rfl := Except.ok.inj hbefore
  obtain rfl := Except.ok.inj hfinal
  obtain rfl : [.mutate "out" (.singleton "a"), .get "a"] = round :=
    (List.cons.inj (List.cons.inj hround).2).2
  refine ⟨_, rfl, ?_⟩
  have hnot : ¬ Action.Recorded [.mutate "out" .empty, .get "a"] 0 "a" := by
    rintro ⟨action, haction, hmem⟩
    cases haction
    exact NameSet.not_mem_empty "a" hmem
  by_contra hnone
  refine hnot (hiff.mpr ?_ 0 "a" ⟨_, rfl, NameSet.mem_singleton.mpr rfl⟩)
  intro place k hreaches store hhas
  by_contra hrecorded
  exact hnone ⟨place, k, store, hreaches, hhas, hrecorded⟩

/-- The write of the second round depends on a store of which the one walk knows nothing. -/
theorem carryOver_second_round :
    ∃ before final : Flow,
      summarizeRounds carryOver "row" .empty 1 beforeCarryOver = .ok before ∧
        before.actions = [.mutate "out" .empty, .get "a"] ∧
        summarizeBody (before.enter.declare "row" .empty) carryOver = .ok final ∧
        final.actions = before.actions ++ [.mutate "out" (.singleton "a"), .get "a"] :=
  ⟨_, _, rfl, rfl, rfl, rfl⟩

end Statement

end StoredProcedure
