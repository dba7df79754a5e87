import StoredProcedure.Proofs.TrackJoin
import StoredProcedure.Proofs.Walk

/-!
The course of a function: what its statements do to dependences, and where execution can go on in
more than one way. A course can be followed along single paths, on each of which one arm of a choice
at most is taken. It can be followed along all paths at once, with a join where they meet. Both find
the same dependences for every write.
-/

namespace StoredProcedure

/-- A change of dependences. -/
inductive Step where
  | pass
  | guard (value : Expr)
  | declare (name : String) (value : Expr)
  | change (name : String) (whole : Bool) (values : List Expr)

namespace Step

def run : Step → Track → Track
  | .pass, t => t
  | .guard value, t => t.guard value
  | .declare name value, t => t.declare name value
  | .change name whole values, t => t.change name whole values

def scopeAfter (shape : Scope Unit) : Step → Scope Unit
  | .pass | .guard _ | .change _ _ _ => shape
  | .declare name _ => shape.add name ()

theorem carries_run (shape : Scope Unit) (step : Step) :
    Track.Carries shape (step.scopeAfter shape) step.run := by
  cases step with
  | pass => exact Track.carries_id shape
  | guard value => exact Track.carries_guard shape value
  | declare name value => exact Track.carries_declare shape name value
  | change name whole values => exact Track.carries_change shape name whole values

end Step

/-- Code as far as dependences go. Execution does not get beyond a `cut`. -/
inductive Course where
  | step (s : Step)
  | write (store : String) (values : List Expr)
  | andThen (first next : Course)
  | either (left right : Course)
  | block (inner : Course)
  | cut (beyond : Course)

/-- A write that is executed: its number among the writes of the code, the store that it changes,
and the stores on which this change depends. -/
structure Write where
  number : Nat
  store : String
  dependences : NameSet

/-- What is executed on a path, and the track at its end if execution goes on from there. -/
structure Path where
  writes : List Write
  exit : Option Track

namespace Path

/-- Goes on along each of the paths from the end of a path. -/
def extend (p : Path) (next : Track → List Path) : List Path :=
  match p.exit with
  | none => [p]
  | some t => (next t).map fun q => ⟨p.writes ++ q.writes, q.exit⟩

def leave (p : Path) : Path :=
  { p with exit := p.exit.map Track.leave }

theorem mem_extend {p q : Path} {next : Track → List Path} :
    q ∈ p.extend next ↔ (p.exit = none ∧ q = p) ∨
      ∃ t, p.exit = some t ∧ ∃ r ∈ next t, q = ⟨p.writes ++ r.writes, r.exit⟩ := by
  rw [extend]
  cases p.exit with
  | none => simp
  | some t => simp [eq_comm]

end Path

/-- The write with a number, of some store, depends on the store `name`. -/
def Write.Depends (writes : List Write) (number : Nat) (store name : String) : Prop :=
  ∃ w ∈ writes, w.number = number ∧ w.store = store ∧ name ∈ w.dependences

theorem Write.depends_append {writes more : List Write} {number : Nat} {store name : String} :
    Depends (writes ++ more) number store name ↔
      Depends writes number store name ∨ Depends more number store name := by
  simp only [Depends, List.mem_append, or_and_right, exists_or]

theorem getElem?_append_of_eq_some {α : Type} {l more : List α} {k : Nat} {x : α}
    (h : l[k]? = some x) : (l ++ more)[k]? = some x := by
  rw [List.getElem?_append_left (List.getElem?_eq_some_iff.mp h).1, h]

namespace Course

/-- The stores that are written, in the order of the code. -/
def stores : Course → List String
  | .step _ => []
  | .write store _ => [store]
  | .andThen first next => first.stores ++ next.stores
  | .either left right => left.stores ++ right.stores
  | .block inner => inner.stores
  | .cut beyond => beyond.stores

def size (c : Course) : Nat :=
  c.stores.length

/-- The paths from a track, if the writes before have smaller numbers than `number`. -/
def paths : Course → Nat → Track → List Path
  | .step s, _, t => [⟨[], some (s.run t)⟩]
  | .write store values, number, t => [⟨[⟨number, store, t.written values⟩], some t⟩]
  | .andThen first next, number, t =>
      (first.paths number t).flatMap fun p => p.extend (next.paths (number + first.size))
  | .either left right, number, t => left.paths number t ++ right.paths (number + left.size) t
  | .block inner, number, t => (inner.paths number t.enter).map Path.leave
  | .cut _, _, _ => [⟨[], none⟩]

/-- All paths at once, joined where they meet. There is no track where no path leads. -/
def merged : Course → Nat → Option Track → List Write × Option Track
  | .step s, _, joined => ([], joined.map s.run)
  | .write store values, number, joined =>
      (joined.toList.map fun t => ⟨number, store, t.written values⟩, joined)
  | .andThen first next, number, joined =>
      let before := first.merged number joined
      let after := next.merged (number + first.size) before.2
      (before.1 ++ after.1, after.2)
  | .either left right, number, joined =>
      let one := left.merged number joined
      let other := right.merged (number + left.size) joined
      (one.1 ++ other.1, Track.joinOption one.2 other.2)
  | .block inner, number, joined =>
      let after := inner.merged number (joined.map Track.enter)
      (after.1, after.2.map Track.leave)
  | .cut _, _, _ => ([], none)

def scopeAfter (shape : Scope Unit) : Course → Scope Unit
  | .step s => s.scopeAfter shape
  | .write _ _ | .either _ _ | .block _ => shape
  | .andThen first next => next.scopeAfter (first.scopeAfter shape)
  | .cut beyond => beyond.scopeAfter shape

/-- Ways to go on that meet again have not declared variables. -/
def WellScoped : Course → Prop
  | .step _ | .write _ _ => True
  | .andThen first next => first.WellScoped ∧ next.WellScoped
  | .either left right => left.WellScoped ∧ right.WellScoped ∧
      ∀ shape, left.scopeAfter shape = shape ∧ right.scopeAfter shape = shape
  | .block inner => inner.WellScoped
  | .cut beyond => beyond.WellScoped

theorem outer_scopeAfter (c : Course) : ∀ shape, (c.scopeAfter shape).outer = shape.outer := by
  induction c with
  | step s =>
      intro shape
      cases s <;> rfl
  | andThen first next ihfirst ihnext =>
      intro shape
      rw [scopeAfter, ihnext, ihfirst]
  | cut beyond ih => exact ih
  | write store values => exact fun _ => rfl
  | either left right _ _ => exact fun _ => rfl
  | block inner _ => exact fun _ => rfl

theorem leave_scopeAfter_enter (c : Course) (shape : Scope Unit) :
    (c.scopeAfter shape.enter).leave = shape := by
  rw [Scope.leave, outer_scopeAfter]
  rfl

theorem exists_mem_paths (c : Course) : ∀ number t, ∃ p, p ∈ c.paths number t := by
  induction c with
  | step s => exact fun _ _ => ⟨_, List.mem_singleton_self _⟩
  | write store values => exact fun _ _ => ⟨_, List.mem_singleton_self _⟩
  | andThen first next ihfirst ihnext =>
      intro number t
      obtain ⟨p, hp⟩ := ihfirst number t
      have hextend : ∃ q, q ∈ p.extend (next.paths (number + first.size)) := by
        rw [Path.extend]
        split
        · exact ⟨p, List.mem_singleton_self p⟩
        · next u _ =>
            obtain ⟨q, hq⟩ := ihnext (number + first.size) u
            exact ⟨_, List.mem_map_of_mem hq⟩
      obtain ⟨q, hq⟩ := hextend
      exact ⟨q, List.mem_flatMap.mpr ⟨p, hp, hq⟩⟩
  | either left right ihleft _ =>
      intro number t
      obtain ⟨p, hp⟩ := ihleft number t
      exact ⟨p, List.mem_append_left _ hp⟩
  | block inner ih =>
      intro number t
      obtain ⟨p, hp⟩ := ih number t.enter
      exact ⟨p.leave, List.mem_map_of_mem hp⟩
  | cut beyond _ => exact fun _ _ => ⟨_, List.mem_singleton_self _⟩

section Merged

variable {first next : Course} {number : Nat} {t u : Track}

theorem exists_exit_andThen :
    (∃ q ∈ (first.andThen next).paths number t, q.exit = some u) ↔
      ∃ v, (∃ p ∈ first.paths number t, p.exit = some v) ∧
        ∃ r ∈ next.paths (number + first.size) v, r.exit = some u := by
  simp only [paths, List.mem_flatMap, Path.mem_extend]
  constructor
  · rintro ⟨q, ⟨p, hp, ⟨hnone, rfl⟩ | ⟨v, hv, r, hr, rfl⟩⟩, hexit⟩
    · rw [hnone] at hexit
      cases hexit
    · exact ⟨v, ⟨p, hp, hv⟩, r, hr, hexit⟩
  · rintro ⟨v, ⟨p, hp, hv⟩, r, hr, hexit⟩
    exact ⟨_, ⟨p, hp, .inr ⟨v, hv, r, hr, rfl⟩⟩, hexit⟩

theorem exists_depends_andThen {k : Nat} {store name : String} :
    (∃ q ∈ (first.andThen next).paths number t, Write.Depends q.writes k store name) ↔
      (∃ p ∈ first.paths number t, Write.Depends p.writes k store name) ∨
        ∃ v, (∃ p ∈ first.paths number t, p.exit = some v) ∧
          ∃ r ∈ next.paths (number + first.size) v, Write.Depends r.writes k store name := by
  simp only [paths, List.mem_flatMap, Path.mem_extend]
  constructor
  · rintro ⟨q, ⟨p, hp, ⟨-, rfl⟩ | ⟨v, hv, r, hr, rfl⟩⟩, hdepends⟩
    · exact .inl ⟨q, hp, hdepends⟩
    · rcases Write.depends_append.mp hdepends with hfirst | hnext
      · exact .inl ⟨p, hp, hfirst⟩
      · exact .inr ⟨v, ⟨p, hp, hv⟩, r, hr, hnext⟩
  · rintro (⟨p, hp, hdepends⟩ | ⟨v, ⟨p, hp, hv⟩, r, hr, hdepends⟩)
    · cases hexit : p.exit with
      | none => exact ⟨p, ⟨p, hp, .inl ⟨hexit, rfl⟩⟩, hdepends⟩
      | some v =>
          obtain ⟨r, hr⟩ := exists_mem_paths next (number + first.size) v
          exact ⟨_, ⟨p, hp, .inr ⟨v, hexit, r, hr, rfl⟩⟩, Write.depends_append.mpr (.inl hdepends)⟩
    · exact ⟨_, ⟨p, hp, .inr ⟨v, hv, r, hr, rfl⟩⟩, Write.depends_append.mpr (.inr hdepends)⟩

theorem exists_exit_block {inner : Course} :
    (∃ q ∈ (block inner).paths number t, q.exit = some u) ↔
      ∃ v, (∃ p ∈ inner.paths number t.enter, p.exit = some v) ∧ u = v.leave := by
  simp only [paths, List.mem_map]
  constructor
  · rintro ⟨q, ⟨p, hp, rfl⟩, hexit⟩
    obtain ⟨v, hv, rfl⟩ := Option.map_eq_some_iff.mp hexit
    exact ⟨v, ⟨p, hp, hv⟩, rfl⟩
  · rintro ⟨v, ⟨p, hp, hv⟩, rfl⟩
    exact ⟨p.leave, ⟨p, hp, rfl⟩, Option.map_eq_some_iff.mpr ⟨v, hv, rfl⟩⟩

/-- All paths at once end in the join of the ends of the paths. -/
theorem joins_merged (c : Course) (hc : c.WellScoped) :
    ∀ (shape : Scope Unit) (number : Nat) (among : Track → Prop) (joined : Option Track),
      Track.Joins shape among joined →
        Track.Joins (c.scopeAfter shape)
          (fun u => ∃ t, among t ∧ ∃ p ∈ c.paths number t, p.exit = some u)
          (c.merged number joined).2 := by
  induction c with
  | step s =>
      intro shape number among joined h
      refine (h.map (s.carries_run shape)).congr fun u => ?_
      simp [paths, eq_comm]
  | write store values =>
      intro shape number among joined h
      refine h.congr fun u => ?_
      simp [paths]
  | andThen first next ihfirst ihnext =>
      intro shape number among joined h
      have hfirst := ihfirst hc.1 shape number among joined h
      refine (ihnext hc.2 _ (number + first.size) _ _ hfirst).congr fun u => ?_
      simp only [exists_exit_andThen]
      constructor
      · rintro ⟨t, ht, v, hv, hnext⟩
        exact ⟨v, ⟨t, ht, hv⟩, hnext⟩
      · rintro ⟨v, ⟨t, ht, hv⟩, hnext⟩
        exact ⟨t, ht, v, hv, hnext⟩
  | either left right ihleft ihright =>
      intro shape number among joined h
      obtain ⟨hleft, hright, hshape⟩ := hc
      have hone := ihleft hleft shape number among joined h
      have hother := ihright hright shape (number + left.size) among joined h
      -- Neither side has declared a variable, so the two ends can be joined slot by slot.
      rw [(hshape shape).1] at hone
      rw [(hshape shape).2] at hother
      refine (hone.or hother).congr fun u => ?_
      simp only [paths, List.mem_append, or_and_right, exists_or, and_or_left]
  | block inner ih =>
      intro shape number among joined h
      have hinner := ih hc shape.enter number _ _ (h.map (Track.carries_enter shape))
      have hleave := hinner.map (Track.carries_leave _)
      rw [leave_scopeAfter_enter] at hleave
      refine hleave.congr fun u => ?_
      simp only [exists_exit_block]
      constructor
      · rintro ⟨t, ht, v, hv, rfl⟩
        exact ⟨v, ⟨t.enter, ⟨t, ht, rfl⟩, hv⟩, rfl⟩
      · rintro ⟨v, ⟨_, ⟨t, ht, rfl⟩, hv⟩, rfl⟩
        exact ⟨t, ht, v, hv, rfl⟩
  | cut beyond _ =>
      intro shape number among joined h u
      simp [paths]

theorem shape_exit (c : Course) (hc : c.WellScoped) {p : Path} (hp : p ∈ c.paths number t)
    (hexit : p.exit = some u) : u.shape = c.scopeAfter t.shape :=
  (joins_merged c hc t.shape number _ _ (Track.joins_self t)).shape_eq ⟨t, rfl, p, hp, hexit⟩

/-- A write depends on a store for all paths at once exactly if it does on one of the paths. -/
theorem depends_merged (c : Course) (hc : c.WellScoped) {k : Nat} {store name : String} :
    ∀ (shape : Scope Unit) (number : Nat) (among : Track → Prop) (joined : Option Track),
      Track.Joins shape among joined →
        (Write.Depends (c.merged number joined).1 k store name ↔
          ∃ t, among t ∧ ∃ p ∈ c.paths number t, Write.Depends p.writes k store name) := by
  induction c with
  | step s =>
      intro shape number among joined h
      simp [merged, paths, Write.Depends]
  | write other values =>
      intro shape number among joined h
      have hwritten := h.exists_iff ((Track.carried_written shape values).and
        (number = k ∧ other = store)) name
      simpa [merged, paths, Write.Depends, and_assoc] using hwritten
  | andThen first next ihfirst ihnext =>
      intro shape number among joined h
      have hjoins := joins_merged first hc.1 shape number among joined h
      rw [merged, Write.depends_append, ihfirst hc.1 shape number among joined h,
        ihnext hc.2 _ _ _ _ hjoins]
      simp only [exists_depends_andThen, and_or_left, exists_or]
      refine or_congr_right ⟨?_, ?_⟩
      · rintro ⟨v, ⟨t, ht, hv⟩, hnext⟩
        exact ⟨t, ht, v, hv, hnext⟩
      · rintro ⟨t, ht, v, hv, hnext⟩
        exact ⟨v, ⟨t, ht, hv⟩, hnext⟩
  | either left right ihleft ihright =>
      intro shape number among joined h
      rw [merged, Write.depends_append, ihleft hc.1 shape number among joined h,
        ihright hc.2.1 shape _ among joined h]
      simp only [paths, List.mem_append, or_and_right, exists_or, and_or_left]
  | block inner ih =>
      intro shape number among joined h
      rw [merged, ih hc shape.enter number _ _ (h.map (Track.carries_enter shape))]
      simp only [paths, List.mem_map]
      constructor
      · rintro ⟨_, ⟨t, ht, rfl⟩, p, hp, hdepends⟩
        exact ⟨t, ht, p.leave, ⟨p, hp, rfl⟩, hdepends⟩
      · rintro ⟨t, ht, _, ⟨p, hp, rfl⟩, hdepends⟩
        exact ⟨t.enter, ⟨t, ht, rfl⟩, p, hp, hdepends⟩
  | cut beyond _ =>
      intro shape number among joined h
      simp [merged, paths, Write.Depends]

theorem depends_merged_iff_paths (c : Course) (hc : c.WellScoped) {k : Nat} {store name : String} :
    Write.Depends (c.merged number (some t)).1 k store name ↔
      ∃ p ∈ c.paths number t, Write.Depends p.writes k store name := by
  rw [c.depends_merged hc t.shape number _ _ (Track.joins_self t)]
  exact exists_eq_left

end Merged

theorem forall_writes_andThen {first next : Course} {number : Nat} {t : Track}
    {holds : Write → Prop}
    (hfirst : ∀ p ∈ first.paths number t, ∀ w ∈ p.writes, holds w)
    (hnext : ∀ p ∈ first.paths number t, ∀ v, p.exit = some v →
      ∀ r ∈ next.paths (number + first.size) v, ∀ w ∈ r.writes, holds w) :
    ∀ q ∈ (first.andThen next).paths number t, ∀ w ∈ q.writes, holds w := by
  intro q hq w hw
  obtain ⟨p, hp, hextend⟩ := List.mem_flatMap.mp hq
  rcases Path.mem_extend.mp hextend with ⟨-, rfl⟩ | ⟨v, hv, r, hr, rfl⟩
  · exact hfirst q hp w hw
  · rcases List.mem_append.mp hw with hw | hw
    · exact hfirst p hp w hw
    · exact hnext p hp v hv r hr w hw

theorem store_of_mem_paths (c : Course) :
    ∀ (before : List String) (t : Track), ∀ p ∈ c.paths before.length t, ∀ w ∈ p.writes,
      (before ++ c.stores)[w.number]? = some w.store := by
  induction c with
  | step s =>
      intro before t p hp w hw
      obtain rfl := List.mem_singleton.mp hp
      cases hw
  | write store values =>
      intro before t p hp w hw
      obtain rfl := List.mem_singleton.mp hp
      obtain rfl := List.mem_singleton.mp hw
      exact List.getElem?_concat_length
  | andThen first next ihfirst ihnext =>
      intro before t
      rw [stores, ← List.append_assoc]
      refine forall_writes_andThen (fun p hp w hw => ?_) fun p hp v hv r hr w hw => ?_
      · exact getElem?_append_of_eq_some (ihfirst before t p hp w hw)
      · rw [size, ← List.length_append] at hr
        exact ihnext (before ++ first.stores) v r hr w hw
  | either left right ihleft ihright =>
      intro before t p hp w hw
      rw [stores, ← List.append_assoc]
      rcases List.mem_append.mp hp with hp | hp
      · exact getElem?_append_of_eq_some (ihleft before t p hp w hw)
      · rw [size, ← List.length_append] at hp
        exact ihright (before ++ left.stores) t p hp w hw
  | block inner ih =>
      intro before t q hq w hw
      obtain ⟨p, hp, rfl⟩ := List.mem_map.mp hq
      exact ih before t.enter p hp w hw
  | cut beyond _ =>
      intro before t p hp w hw
      obtain rfl := List.mem_singleton.mp hp
      cases hw

end Course

end StoredProcedure
