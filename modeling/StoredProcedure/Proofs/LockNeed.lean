import Mathlib.Data.List.Induction
import StoredProcedure.Analysis.Lock
import StoredProcedure.Proofs.Walk

namespace StoredProcedure

namespace Action

/-- The action with the number `k` changes a store. -/
def Changed (actions : List Action) (k : Nat) (store : String) : Prop :=
  ∃ dependsOn, actions[k]? = some (.mutate store dependsOn)

/-- A change depends on a store, and that change or a later one changes the store. -/
def ChangedOnceRecorded (actions : List Action) (store : String) : Prop :=
  ∃ i j, i ≤ j ∧ Recorded actions i store ∧ Changed actions j store

def isChange : Action → Bool
  | .get _ => false
  | .mutate _ _ => true

/-- The same action, which may depend on more stores. -/
inductive Enlarged : Action → Action → Prop
  | get (store : String) : Enlarged (.get store) (.get store)
  | mutate (store : String) {dependsOn more : NameSet} (h : ∀ other ∈ dependsOn, other ∈ more) :
      Enlarged (.mutate store dependsOn) (.mutate store more)

variable {actions more : List Action} {action : Action} {store : String} {k : Nat}

theorem Recorded.lt (h : Recorded actions k store) : k < actions.length := by
  obtain ⟨action, haction, -⟩ := h
  exact (List.getElem?_eq_some_iff.mp haction).1

theorem Changed.lt (h : Changed actions k store) : k < actions.length := by
  obtain ⟨_, haction⟩ := h
  exact (List.getElem?_eq_some_iff.mp haction).1

theorem changed_append_iff :
    Changed (actions ++ more) k store ↔
      Changed actions k store ∨
        (actions.length ≤ k ∧ Changed more (k - actions.length) store) := by
  rw [Changed]
  rcases Nat.lt_or_ge k actions.length with hlt | hge
  · rw [List.getElem?_append_left hlt]
    simp [Changed, Nat.not_le.mpr hlt]
  · rw [List.getElem?_append_right hge]
    simp [Changed, hge]

theorem exists_recorded_snoc :
    (∃ i, Recorded (actions ++ [action]) i store) ↔
      (∃ i, Recorded actions i store) ∨ store ∈ action.dependsOn := by
  simp only [recorded_append, recorded_singleton, exists_or]
  apply or_congr_right
  constructor
  · rintro ⟨i, -, -, hstore⟩
    exact hstore
  · intro hstore
    exact ⟨actions.length, Nat.le_refl _, Nat.sub_self _, hstore⟩

theorem changedOnceRecorded_snoc :
    ChangedOnceRecorded (actions ++ [action]) store ↔
      ChangedOnceRecorded actions store ∨
        ((∃ dependsOn, action = .mutate store dependsOn) ∧
          ∃ i, Recorded (actions ++ [action]) i store) := by
  constructor
  · rintro ⟨i, j, hle, hrecorded, hchanged⟩
    rcases changed_append_iff.mp hchanged with hbefore | ⟨-, dependsOn, hlast⟩
    · left
      have hlt : j < actions.length := hbefore.lt
      refine ⟨i, j, hle, ?_, hbefore⟩
      rcases recorded_append.mp hrecorded with hfirst | ⟨hge, -⟩
      · exact hfirst
      · omega
    · right
      have hmem := List.mem_of_getElem? hlast
      exact ⟨⟨dependsOn, (List.mem_singleton.mp hmem).symm⟩, i, hrecorded⟩
  · rintro (⟨i, j, hle, hrecorded, hchanged⟩ | ⟨⟨dependsOn, rfl⟩, i, hrecorded⟩)
    · refine ⟨i, j, hle, recorded_append.mpr (.inl hrecorded), ?_⟩
      exact changed_append_iff.mpr (.inl hchanged)
    · have hlt := hrecorded.lt
      rw [List.length_append, List.length_singleton] at hlt
      refine ⟨i, actions.length, by omega, hrecorded, dependsOn, ?_⟩
      rw [List.getElem?_append_right (Nat.le_refl _), Nat.sub_self]
      rfl

theorem Recorded.append (h : Recorded actions k store) (more : List Action) :
    Recorded (actions ++ more) k store :=
  recorded_append.mpr (.inl h)

theorem Enlarged.dependsOn_subset {larger : Action} (h : Enlarged action larger) :
    ∀ other ∈ action.dependsOn, other ∈ larger.dependsOn := by
  cases h with
  | get store => exact fun _ hother => hother
  | mutate store hmore => exact hmore

theorem Recorded.enlarged (hrecorded : Recorded actions k store)
    (h : List.Forall₂ Enlarged actions more) : Recorded more k store := by
  obtain ⟨action, haction, hstore⟩ := hrecorded
  obtain ⟨hk, rfl⟩ := List.getElem?_eq_some_iff.mp haction
  have hkmore : k < more.length := h.length_eq ▸ hk
  refine ⟨more[k], List.getElem?_eq_getElem hkmore, ?_⟩
  exact (h.get hk hkmore).dependsOn_subset store hstore

theorem Changed.enlarged (hchanged : Changed actions k store)
    (h : List.Forall₂ Enlarged actions more) : Changed more k store := by
  obtain ⟨dependsOn, haction⟩ := hchanged
  obtain ⟨hk, hget⟩ := List.getElem?_eq_some_iff.mp haction
  have hkmore : k < more.length := h.length_eq ▸ hk
  have hlarger : Enlarged actions[k] more[k] := h.get hk hkmore
  rw [hget] at hlarger
  generalize hmore : more[k] = larger at hlarger
  cases hlarger with
  | mutate _ _ => exact ⟨_, by rw [List.getElem?_eq_getElem hkmore, hmore]⟩

end Action

namespace LockMap

/-- There is a lock on a store that is good for reading, as both kinds are, or for writing. -/
def Holds (locks : LockMap) (store : String) : LockKind → Prop
  | .read => ∃ kind, locks.get? store = some kind
  | .write => locks.get? store = some .write

end LockMap

namespace Locking

open StoredProcedure.Action (Recorded ChangedOnceRecorded)

variable {l : Locking} {store changed : String}

theorem mem_depended_foldl (names : List String) :
    store ∈ (names.foldl (depend changed) l).depended ↔ store ∈ l.depended ∨ store ∈ names := by
  induction names generalizing l with
  | nil => simp
  | cons name rest ih =>
      rw [List.foldl_cons, ih, depend, NameSet.mem_insert, List.mem_cons, or_assoc, or_left_comm]

theorem holds_read_foldl (names : List String) :
    (names.foldl (depend changed) l).locks.Holds store .read ↔
      l.locks.Holds store .read ∨ store ∈ names := by
  induction names generalizing l with
  | nil => simp
  | cons name rest ih =>
      rw [List.foldl_cons, ih, List.mem_cons]
      by_cases hname : store = name
      · simp [LockMap.Holds, depend, hname]
      · simp [LockMap.Holds, depend, hname]

theorem holds_write_foldl (names : List String) :
    (names.foldl (depend changed) l).locks.Holds store .write ↔
      l.locks.Holds store .write ∨ (store = changed ∧ store ∈ names) := by
  induction names generalizing l with
  | nil => simp
  | cons name rest ih =>
      rw [List.foldl_cons, ih, List.mem_cons]
      by_cases hname : store = name
      · subst hname
        by_cases hchanged : store = changed
        · simp [LockMap.Holds, depend, hchanged]
        · simp [LockMap.Holds, depend, hchanged]
      · simp [LockMap.Holds, depend, hname]

theorem change_depended : (l.change changed).depended = l.depended := by
  rw [change]
  split <;> rfl

theorem holds_read_change (hread : l.locks.Holds store .read ↔ store ∈ l.depended) :
    (l.change changed).locks.Holds store .read ↔ store ∈ l.depended := by
  rw [change]
  split
  · rename_i hmem
    by_cases hstore : store = changed
    · subst hstore
      simp [LockMap.Holds, hmem]
    · rw [← hread]
      simp [LockMap.Holds, hstore]
  · exact hread

theorem holds_write_change :
    (l.change changed).locks.Holds store .write ↔
      l.locks.Holds store .write ∨ (store = changed ∧ store ∈ l.depended) := by
  rw [change]
  split
  · rename_i hmem
    by_cases hstore : store = changed
    · subst hstore
      simp [LockMap.Holds, hmem]
    · simp [LockMap.Holds, hstore]
  · rename_i hmem
    constructor
    · exact .inl
    · rintro (hwrite | ⟨rfl, hdepended⟩)
      · exact hwrite
      · exact absurd hdepended hmem

/-- What is known on the way through the actions: the stores depended on, a lock on each of them and
on no other, and which of the locks are for writing. -/
structure Reflects (l : Locking) (actions : List Action) : Prop where
  depended : ∀ store, store ∈ l.depended ↔ ∃ i, Recorded actions i store
  read : ∀ store, l.locks.Holds store .read ↔ store ∈ l.depended
  write : ∀ store, l.locks.Holds store .write ↔ ChangedOnceRecorded actions store

theorem reflects_start : start.Reflects [] where
  depended store := by simp [start, Recorded]
  read store := by simp [start, LockMap.Holds]
  write store := by simp [start, LockMap.Holds, ChangedOnceRecorded, Recorded]

theorem Reflects.step {actions : List Action} (h : l.Reflects actions) (action : Action) :
    (l.step action).Reflects (actions ++ [action]) := by
  cases action with
  | get other =>
      refine ⟨fun store => ?_, h.read, fun store => ?_⟩
      · rw [Action.exists_recorded_snoc, Action.dependsOn,
          or_iff_left (NameSet.not_mem_empty store)]
        exact h.depended store
      · rw [Action.changedOnceRecorded_snoc, or_iff_left]
        · exact h.write store
        · rintro ⟨⟨_, hget⟩, -⟩
          cases hget
  | mutate changed dependsOn =>
      have hdepended : ∀ store, store ∈ (l.step (.mutate changed dependsOn)).depended ↔
          ∃ i, Recorded (actions ++ [.mutate changed dependsOn]) i store := by
        intro store
        rw [Locking.step, change_depended, mem_depended_foldl, h.depended,
          Action.exists_recorded_snoc]
        rfl
      refine ⟨hdepended, fun store => ?_, fun store => ?_⟩
      · rw [Locking.step, change_depended]
        apply holds_read_change
        rw [holds_read_foldl, h.read, mem_depended_foldl]
      · rw [Action.changedOnceRecorded_snoc, ← h.write, ← hdepended, Locking.step, change_depended,
          holds_write_change, holds_write_foldl]
        have hnames : store ∈ dependsOn.names →
            store ∈ (dependsOn.names.foldl (depend changed) l).depended :=
          fun hstore => (mem_depended_foldl _).mpr (.inr hstore)
        constructor
        · rintro ((hwrite | ⟨rfl, hstore⟩) | ⟨rfl, hstore⟩)
          · exact .inl hwrite
          · exact .inr ⟨⟨dependsOn, rfl⟩, hnames hstore⟩
          · exact .inr ⟨⟨dependsOn, rfl⟩, hstore⟩
        · rintro (hwrite | ⟨⟨_, haction⟩, hstore⟩)
          · exact .inl (.inl hwrite)
          · cases haction
            exact .inr ⟨rfl, hstore⟩

theorem reflects_foldl (actions : List Action) : (actions.foldl step start).Reflects actions := by
  induction actions using List.reverseRecOn with
  | nil => exact reflects_start
  | append_singleton actions action ih =>
      rw [List.foldl_append]
      exact ih.step action

end Locking

namespace LockMap

open StoredProcedure.Action (Recorded Changed ChangedOnceRecorded Enlarged)

variable {actions : List Action} {store : String}

theorem holds_read_ofActions :
    (ofActions actions).Holds store .read ↔ ∃ i, Recorded actions i store := by
  have h := Locking.reflects_foldl actions
  rw [ofActions, h.read, h.depended]

theorem holds_write_ofActions :
    (ofActions actions).Holds store .write ↔ ChangedOnceRecorded actions store :=
  (Locking.reflects_foldl actions).write store

theorem get?_eq_read_iff (locks : LockMap) :
    locks.get? store = some .read ↔ locks.Holds store .read ∧ ¬ locks.Holds store .write := by
  cases h : locks.get? store with
  | none => simp [Holds, h]
  | some kind => cases kind <;> simp [Holds, h]

/-- More actions, or actions that depend on more stores, need at least the same locks. -/
theorem holds_ofActions_mono {more : List Action}
    (hrecorded : ∀ i, Recorded actions i store → Recorded more i store)
    (hchanged : ∀ j, Changed actions j store → Changed more j store) {kind : LockKind}
    (h : (ofActions actions).Holds store kind) : (ofActions more).Holds store kind := by
  cases kind with
  | read =>
      rw [holds_read_ofActions] at h ⊢
      obtain ⟨i, hi⟩ := h
      exact ⟨i, hrecorded i hi⟩
  | write =>
      rw [holds_write_ofActions] at h ⊢
      obtain ⟨i, j, hle, hi, hj⟩ := h
      exact ⟨i, j, hle, hrecorded i hi, hchanged j hj⟩

theorem ofActions_filter_isChange (actions : List Action) :
    ofActions (actions.filter Action.isChange) = ofActions actions := by
  rw [ofActions, List.foldl_filter, ofActions]
  congr 1
  congr 1
  funext l action
  cases action with
  | get store => rfl
  | mutate store dependsOn => rfl

/-- The locks of actions: there is one exactly on each store that some change depends on, and it is
for writing exactly if the store is changed by such a change or after one. Reading never matters,
and neither more actions at the end nor more dependences take a lock away or weaken it. -/
theorem ofActions_exact (actions : List Action) :
    (∀ store, (∃ kind, (ofActions actions).get? store = some kind) ↔
      ∃ i, Recorded actions i store) ∧
    (∀ store, (ofActions actions).get? store = some .write ↔
      ∃ i j, i ≤ j ∧ Recorded actions i store ∧ Changed actions j store) ∧
    (∀ store, (ofActions actions).get? store = some .read ↔
      (∃ i, Recorded actions i store) ∧
        ¬ ∃ i j, i ≤ j ∧ Recorded actions i store ∧ Changed actions j store) ∧
    ofActions (actions.filter Action.isChange) = ofActions actions ∧
    (∀ more store kind, (ofActions actions).Holds store kind →
      (ofActions (actions ++ more)).Holds store kind) ∧
    ∀ larger, List.Forall₂ Enlarged actions larger → ∀ store kind,
      (ofActions actions).Holds store kind → (ofActions larger).Holds store kind := by
  refine ⟨fun store => holds_read_ofActions, fun store => holds_write_ofActions, fun store => ?_,
    ofActions_filter_isChange actions, fun more store kind h => ?_,
    fun larger hlarger store kind h => ?_⟩
  · rw [get?_eq_read_iff, holds_read_ofActions, holds_write_ofActions]
    rfl
  · exact holds_ofActions_mono (fun _ hi => hi.append more)
      (fun _ hj => Action.changed_append_iff.mpr (.inl hj)) h
  · exact holds_ofActions_mono (fun _ hi => hi.enlarged hlarger) (fun _ hj => hj.enlarged hlarger) h

/-- What was copied to `audit` came from `users`, which is changed later: the lock is for writing,
and stays so if the later change depends on `audit` too. Only then is there a lock on `audit`. -/
theorem ofActions_exact_copied :
    let copied := Action.mutate "audit" (.ofList ["users"])
    let actions := [copied, .get "audit", .mutate "users" .empty]
    let larger := [copied, .get "audit", .mutate "users" (.ofList ["audit"])]
    (ofActions actions).get? "users" = some .write ∧
      (¬ ∃ kind, (ofActions actions).get? "audit" = some kind) ∧
      (ofActions larger).Holds "users" .write ∧
      (ofActions larger).get? "audit" = some .read := by
  intro copied actions larger
  obtain ⟨hlock, hwrite, -, -, -, hlarger⟩ := ofActions_exact actions
  have husers : (ofActions actions).get? "users" = some .write :=
    (hwrite "users").mpr ⟨0, 2, by decide, ⟨copied, rfl, by decide⟩, .empty, rfl⟩
  refine ⟨husers, ?_, ?_, by decide⟩
  · rw [hlock]
    rintro ⟨i, action, haction, haudit⟩
    have hmem := List.mem_of_getElem? haction
    simp only [actions, List.mem_cons, List.not_mem_nil, or_false] at hmem
    rcases hmem with rfl | rfl | rfl <;> revert haudit <;> decide
  · apply hlarger larger _ "users" .write husers
    refine .cons (.mutate _ fun _ h => h) (.cons (.get _) (.cons (.mutate _ ?_) .nil))
    intro other hother
    exact absurd hother (NameSet.not_mem_empty other)

end LockMap

end StoredProcedure
