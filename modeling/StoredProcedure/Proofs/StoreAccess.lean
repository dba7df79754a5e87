import StoredProcedure.Proofs.Choice
import StoredProcedure.Proofs.Walk

namespace StoredProcedure

inductive Access where
  | read (store : String)
  | write (store : String)
deriving DecidableEq

/-- How an instruction accesses a store, if it does. -/
def Instruction.access? : Instruction → Option Access
  | .getAll store | .findOne store _ | .query store _ => some (.read store)
  | .updateOne store _ | .deleteOne store => some (.write store)
  | _ => none

/-- The accesses of code, in the order of its instructions. -/
def Code.accesses (code : Code) : List Access :=
  code.filterMap Instruction.access?

def Action.access : Action → Access
  | .get store => .read store
  | .mutate store _ => .write store

namespace Access

/-- The stores that are written, in order. -/
def writes : List Access → List String
  | [] => []
  | .read _ :: rest => writes rest
  | .write store :: rest => store :: writes rest

/-- The stores that are read after the first `k` writes and before the next one. -/
def readsAfter : Nat → List Access → List String
  | _, [] => []
  | 0, .read store :: rest => store :: readsAfter 0 rest
  | 0, .write _ :: _ => []
  | k + 1, .read _ :: rest => readsAfter (k + 1) rest
  | k + 1, .write _ :: rest => readsAfter k rest

/-- The same accesses, where reads that stand next to each other may have changed places. -/
inductive Reordered : List Access → List Access → Prop
  | nil : Reordered [] []
  | cons (access : Access) {xs ys : List Access} :
      Reordered xs ys → Reordered (access :: xs) (access :: ys)
  | swap (store other : String) (xs : List Access) :
      Reordered (.read store :: .read other :: xs) (.read other :: .read store :: xs)
  | trans {xs ys zs : List Access} : Reordered xs ys → Reordered ys zs → Reordered xs zs

variable {xs ys : List Access}

namespace Reordered

theorem refl (xs : List Access) : Reordered xs xs := by
  induction xs with
  | nil => exact nil
  | cons access rest ih => exact ih.cons access

theorem append_left (before : List Access) (h : Reordered xs ys) :
    Reordered (before ++ xs) (before ++ ys) := by
  induction before with
  | nil => exact h
  | cons access rest ih => exact ih.cons access

theorem append_right (h : Reordered xs ys) (after : List Access) :
    Reordered (xs ++ after) (ys ++ after) := by
  induction h with
  | nil => exact refl after
  | cons access _ ih => exact ih.cons access
  | swap store other xs => exact swap store other (xs ++ after)
  | trans _ _ ih more => exact ih.trans more

theorem append {us vs : List Access} (h : Reordered xs ys) (hmore : Reordered us vs) :
    Reordered (xs ++ us) (ys ++ vs) :=
  (h.append_right us).trans (append_left ys hmore)

theorem of_perm (h : xs.Perm ys) (hreads : ∀ access ∈ xs, ∃ store, access = .read store) :
    Reordered xs ys := by
  induction h with
  | nil => exact nil
  | cons access _ ih =>
      exact (ih fun other hother => hreads other (.tail access hother)).cons access
  | swap access other rest =>
      obtain ⟨store, rfl⟩ := hreads access (.tail _ (.head _))
      obtain ⟨store, rfl⟩ := hreads other (.head _)
      exact swap _ _ rest
  | trans hfirst _ ih more =>
      exact (ih hreads).trans (more fun access haccess => hreads access (hfirst.mem_iff.mpr haccess))

theorem perm (h : Reordered xs ys) : xs.Perm ys := by
  induction h with
  | nil => exact .nil
  | cons access _ ih => exact ih.cons access
  | swap store other rest => exact .swap _ _ _
  | trans _ _ ih more => exact ih.trans more

theorem writes_eq (h : Reordered xs ys) : writes xs = writes ys := by
  induction h with
  | nil => rfl
  | cons access _ ih => cases access <;> simp [writes, ih]
  | swap store other rest => rfl
  | trans _ _ ih more => exact ih.trans more

theorem perm_readsAfter (h : Reordered xs ys) (k : Nat) :
    (readsAfter k xs).Perm (readsAfter k ys) := by
  induction h generalizing k with
  | nil => exact .refl _
  | cons access _ ih =>
      cases access <;> cases k
      · exact (ih 0).cons _
      · exact ih _
      · exact .nil
      · exact ih _
  | swap store other rest =>
      cases k
      · exact .swap _ _ _
      · exact .refl _
  | trans _ _ ih more => exact (ih k).trans (more k)

end Reordered

end Access

/-- The reads of the stores among some sources. -/
def Source.accesses (sources : List Source) : List Access :=
  (gets sources).map Action.access

@[simp] theorem Source.accesses_append (sources others : List Source) :
    accesses (sources ++ others) = accesses sources ++ accesses others := by
  rw [accesses, gets, List.filterMap_append, List.map_append, accesses, accesses, gets]

theorem Source.exists_eq_read {sources : List Source} {access : Access}
    (h : access ∈ accesses sources) : ∃ store, access = .read store := by
  obtain ⟨action, haction, rfl⟩ := List.mem_map.mp h
  obtain ⟨source, -, hsource⟩ := List.mem_filterMap.mp haction
  cases source with
  | store name =>
      obtain rfl := Option.some.inj hsource
      exact ⟨name, rfl⟩
  | saved name => cases hsource

namespace Code

@[simp] theorem accesses_nil : accesses [] = [] := rfl

@[simp] theorem accesses_cons (instruction : Instruction) (code : Code) :
    accesses (instruction :: code) = instruction.access?.toList ++ code.accesses := by
  rw [accesses, List.filterMap_cons, accesses]
  cases instruction.access? <;> rfl

@[simp] theorem accesses_append (code more : Code) :
    (code ++ more).accesses = code.accesses ++ more.accesses :=
  List.filterMap_append

section Store

variable (store : String) (first rest value : Code)

theorem accesses_keyFilter : (keyFilter first).accesses = first.accesses := by
  simp [keyFilter, text, Instruction.access?]

theorem accesses_updateDocument (upsert : Bool) :
    (updateDocument store upsert first).accesses = first.accesses ++ [.write store] := by
  simp [updateDocument, accesses_keyFilter, Instruction.access?, Instruction.jumpForward]

theorem accesses_keyOfObject {count : Nat} (hrest : count = 0 → rest = []) :
    (keyOfObject store first count rest).accesses =
      first.accesses ++ .read store :: rest.accesses := by
  by_cases hcount : count = 0
  · simp [keyOfObject, accesses_keyFilter, Instruction.access?, Instruction.jumpForward, hcount,
      hrest hcount]
  · simp [keyOfObject, accesses_keyFilter, Instruction.access?, Instruction.jumpForward, hcount]

theorem accesses_keyExists : (keyExists store first).accesses = first.accesses ++ [.read store] := by
  simp [keyExists, accesses_keyFilter, Instruction.access?, Instruction.jumpForward]

theorem accesses_setKey {count : Nat} (hrest : count = 0 → rest = []) :
    (setKey store first count rest value).accesses =
      (rest ++ value ++ first).accesses ++ [.write store] := by
  by_cases hcount : count = 0
  · simp [setKey, text, accesses_updateDocument, Instruction.access?, hcount, hrest hcount]
  · simp [setKey, nestedPath, text, accesses_updateDocument, Instruction.access?, hcount]

theorem accesses_pushAtKey {count : Nat} (hrest : count = 0 → rest = []) :
    (pushAtKey store first count rest value).accesses =
      (rest ++ value ++ first).accesses ++ [.write store] := by
  by_cases hcount : count = 0
  · simp [pushAtKey, text, accesses_updateDocument, Instruction.access?, hcount, hrest hcount]
  · simp [pushAtKey, nestedPath, eachDocument, text, accesses_updateDocument, Instruction.access?,
      hcount]

theorem accesses_deleteKey {count : Nat} (hrest : count = 0 → rest = []) :
    (deleteKey store first count rest).accesses = (rest ++ first).accesses ++ [.write store] := by
  by_cases hcount : count = 0
  · simp [deleteKey, accesses_keyFilter, Instruction.access?, hcount, hrest hcount]
  · simp [deleteKey, nestedPath, text, accesses_keyFilter, Instruction.access?, hcount]

theorem accesses_loop (body : Code) (declared : Nat) :
    (loop body declared).accesses = body.accesses := by
  simp [loop, zero, Instruction.access?, Instruction.jumpBack]

end Store

/-- Code that reads the stores among some sources, each as often as it stands there, and writes
none. -/
def ReadsFrom (code : Code) (sources : List Source) : Prop :=
  code.accesses.Perm (Source.accesses sources)

variable {code more : Code} {sources others : List Source}

theorem readsFrom_nil : ReadsFrom [] [] :=
  .nil

theorem ReadsFrom.append (h : code.ReadsFrom sources) (hmore : more.ReadsFrom others) :
    (code ++ more).ReadsFrom (sources ++ others) := by
  rw [ReadsFrom, accesses_append, Source.accesses_append]
  exact List.Perm.append h hmore

theorem ReadsFrom.append_swapped (h : code.ReadsFrom sources) (hmore : more.ReadsFrom others) :
    (more ++ code).ReadsFrom (sources ++ others) := by
  refine List.Perm.trans ?_ (h.append hmore)
  rw [accesses_append, accesses_append]
  exact List.perm_append_comm

theorem ReadsFrom.reordered (h : code.ReadsFrom sources) :
    Access.Reordered code.accesses (Source.accesses sources) :=
  .of_perm h fun _ haccess => Source.exists_eq_read (h.mem_iff.mp haccess)

theorem ReadsFrom.append_plain (h : code.ReadsFrom sources) (hmore : more.accesses = []) :
    (code ++ more).ReadsFrom sources := by
  rwa [ReadsFrom, accesses_append, hmore, List.append_nil]

theorem ReadsFrom.cons_plain {instruction : Instruction} (h : code.ReadsFrom sources)
    (hfirst : instruction.access? = none) : ReadsFrom (instruction :: code) sources := by
  rwa [ReadsFrom, accesses_cons, hfirst]

theorem readsFrom_keyOfObject (store : String) {first rest : Code} {count : Nat}
    (hfirst : first.ReadsFrom sources) (hrest : rest.ReadsFrom others)
    (hcount : count = 0 → rest = []) :
    (keyOfObject store first count rest).ReadsFrom (sources ++ others ++ [.store store]) := by
  rw [ReadsFrom, accesses_keyOfObject store first rest hcount, Source.accesses_append,
    Source.accesses_append, List.append_assoc]
  exact List.Perm.append hfirst ((List.Perm.cons _ hrest).trans
    (List.perm_append_singleton _ _).symm)

theorem readsFrom_keyExists (store : String) {key : Code} (hkey : key.ReadsFrom sources) :
    (keyExists store key).ReadsFrom (sources ++ [.store store]) := by
  rw [ReadsFrom, accesses_keyExists, Source.accesses_append]
  exact List.Perm.append_right _ hkey

end Code

theorem Comparison.accesses_code (sign : Comparison) : sign.code.accesses = [] := by
  cases sign <;> rfl

theorem Arithmetic.accesses_instruction (sign : Arithmetic) :
    Code.accesses [sign.instruction] = [] := by
  cases sign <;> rfl

theorem Logic.accesses_instruction (sign : Logic) : Code.accesses [sign.instruction] = [] := by
  cases sign <;> rfl

namespace Expr

theorem eq_nil_of_compileList {slots : Slots} {es : List Expr} {code : Code}
    (h : compileList slots es = .ok code) (hes : es.length = 0) : code = [] := by
  obtain rfl := List.eq_nil_of_length_eq_zero hes
  exact (Except.ok.inj h).symm

mutual
theorem readsFrom_compile (slots : Slots) : (e : Expr) → {code : Code} →
    e.compile slots = .ok code → code.ReadsFrom e.sources
  | .bool _ | .int _ | .double _ | .string _ | .nothing => by
      intro h
      simp only [compile, Except.ok.injEq] at h
      subst h
      exact Code.readsFrom_nil.cons_plain rfl
  | .object fields => by
      intro h
      simp only [compile, bind_eq_ok, pure_eq_ok] at h
      obtain ⟨_, hfields, rfl⟩ := h
      exact (readsFrom_compileFields slots fields hfields).cons_plain rfl
  | .comparison sign left right => by
      intro h
      simp only [compile, bind_eq_ok, pure_eq_ok] at h
      obtain ⟨_, hleft, _, hright, rfl⟩ := h
      exact ((readsFrom_compile slots left hleft).append
        (readsFrom_compile slots right hright)).append_plain sign.accesses_code
  | .arithmetic sign left right => by
      intro h
      simp only [compile, bind_eq_ok, pure_eq_ok] at h
      obtain ⟨_, hleft, _, hright, rfl⟩ := h
      exact ((readsFrom_compile slots left hleft).append
        (readsFrom_compile slots right hright)).append_plain sign.accesses_instruction
  | .logic sign left right => by
      intro h
      simp only [compile, bind_eq_ok, pure_eq_ok] at h
      obtain ⟨_, hleft, _, hright, rfl⟩ := h
      exact ((readsFrom_compile slots left hleft).append
        (readsFrom_compile slots right hright)).append_plain sign.accesses_instruction
  | .negation value | .typeOf value | .hasType value _ | .keys value => by
      intro h
      simp only [compile, bind_eq_ok, pure_eq_ok] at h
      obtain ⟨_, hvalue, rfl⟩ := h
      exact (readsFrom_compile slots value hvalue).append_plain rfl
  | .saved name => by
      intro h
      simp only [compile, bind_eq_ok, pure_eq_ok] at h
      obtain ⟨slot, hslot, rfl⟩ := h
      exact .nil
  | .selection root level => by
      intro h
      simp only [compile, bind_eq_ok] at h
      obtain ⟨code, hroot, h⟩ := h
      have hreads := readsFrom_compile slots root hroot
      split at h
      · obtain rfl := pure_eq_ok.mp h
        obtain rfl := List.isEmpty_iff.mp ‹_›
        rwa [sources, sourcesList, List.append_nil]
      · simp only [bind_eq_ok, pure_eq_ok] at h
        obtain ⟨path, hlevel, rfl⟩ := h
        exact (hreads.append (readsFrom_compileList slots level hlevel)).append_plain rfl
  | .fieldExists value field => by
      intro h
      simp only [compile, bind_eq_ok, pure_eq_ok] at h
      obtain ⟨_, hvalue, _, hfield, rfl⟩ := h
      exact ((readsFrom_compile slots value hvalue).append
        (readsFrom_compile slots field hfield)).append_plain rfl
  | .array values => by
      intro h
      simp only [compile, bind_eq_ok, pure_eq_ok] at h
      obtain ⟨_, hvalues, rfl⟩ := h
      exact (readsFrom_compilePushes slots values hvalues).cons_plain rfl
  | .call function args => by
      intro h
      simp only [compile, bind_eq_ok, pure_eq_ok] at h
      obtain ⟨_, hargs, rfl⟩ := h
      exact (readsFrom_compileList slots args hargs).append_plain rfl
  | .role schema state => by
      intro h
      rw [compile] at h
      split at h
      · cases h
      · simp only [bind_eq_ok, pure_eq_ok] at h
        obtain ⟨_, hstate, rfl⟩ := h
        exact ((readsFrom_compileState slots state hstate).cons_plain rfl).append_plain rfl
  | .globalObject _ | .keyOfObject _ [] => by
      intro h
      cases h
  | .wholeObject store | .keysOfObject store => by
      intro h
      obtain rfl := Except.ok.inj h
      exact .refl _
  | .keyOfObject store (first :: rest) => by
      intro h
      simp only [compile, bind_eq_ok, pure_eq_ok] at h
      obtain ⟨_, hrest, _, hfirst, rfl⟩ := h
      exact Code.readsFrom_keyOfObject store (readsFrom_compile slots first hfirst)
        (readsFrom_compileList slots rest hrest) (eq_nil_of_compileList hrest)
  | .keyExists store key => by
      intro h
      simp only [compile, bind_eq_ok, pure_eq_ok] at h
      obtain ⟨_, hkey, rfl⟩ := h
      exact Code.readsFrom_keyExists store (readsFrom_compile slots key hkey)
termination_by structural e => e

theorem readsFrom_compileList (slots : Slots) : (es : List Expr) → {code : Code} →
    compileList slots es = .ok code → code.ReadsFrom (sourcesList es)
  | [] => by
      intro h
      obtain rfl := Except.ok.inj h
      exact Code.readsFrom_nil
  | e :: rest => by
      intro h
      simp only [compileList, bind_eq_ok, pure_eq_ok] at h
      obtain ⟨_, hfirst, _, hrest, rfl⟩ := h
      exact (readsFrom_compile slots e hfirst).append (readsFrom_compileList slots rest hrest)
termination_by structural es => es

theorem readsFrom_compilePushes (slots : Slots) : (es : List Expr) → {code : Code} →
    compilePushes slots es = .ok code → code.ReadsFrom (sourcesList es)
  | [] => by
      intro h
      obtain rfl := Except.ok.inj h
      exact Code.readsFrom_nil
  | e :: rest => by
      intro h
      simp only [compilePushes, bind_eq_ok, pure_eq_ok] at h
      obtain ⟨_, hfirst, _, hrest, rfl⟩ := h
      exact (readsFrom_compile slots e hfirst).append
        ((readsFrom_compilePushes slots rest hrest).cons_plain rfl)
termination_by structural es => es

theorem readsFrom_compileFields (slots : Slots) : (fields : List (Expr × Expr)) →
    {code : Code} → compileFields slots fields = .ok code → code.ReadsFrom (sourcesFields fields)
  | [] => by
      intro h
      obtain rfl := Except.ok.inj h
      exact Code.readsFrom_nil
  | (key, value) :: rest => by
      intro h
      simp only [compileFields, bind_eq_ok, pure_eq_ok] at h
      obtain ⟨_, hkey, _, hvalue, _, hrest, rfl⟩ := h
      exact ((readsFrom_compile slots key hkey).append
        (readsFrom_compile slots value hvalue)).append
        ((readsFrom_compileFields slots rest hrest).cons_plain rfl)
termination_by structural fields => fields

theorem readsFrom_compileState (slots : Slots) : (state : Option Expr) → {code : Code} →
    compileState slots state = .ok code → code.ReadsFrom (sourcesOption state)
  | none => by
      intro h
      obtain rfl := Except.ok.inj h
      exact Code.readsFrom_nil
  | some state => by
      intro h
      simp only [compileState, bind_eq_ok, pure_eq_ok] at h
      obtain ⟨_, hstate, rfl⟩ := h
      exact ((readsFrom_compile slots state hstate).cons_plain rfl).append_plain rfl
termination_by structural state => state
end

theorem sourcesList_append (es others : List Expr) :
    sourcesList (es ++ others) = sourcesList es ++ sourcesList others := by
  induction es with
  | nil => rfl
  | cons e rest ih => rw [List.cons_append, sourcesList, ih, sourcesList, List.append_assoc]

theorem readsFrom_compileAppends (slots : Slots) (slot : Nat) (es : List Expr) :
    ∀ code, compileAppends slots slot es = .ok code → code.ReadsFrom (sourcesList es) := by
  induction es with
  | nil =>
      intro code h
      obtain rfl := Except.ok.inj h
      exact Code.readsFrom_nil
  | cons e rest ih =>
      intro code h
      simp only [compileAppends, bind_eq_ok, pure_eq_ok] at h
      obtain ⟨_, hfirst, more, hmore, rfl⟩ := h
      exact (readsFrom_compile slots e hfirst).append ((ih more hmore).cons_plain rfl)

theorem readsFrom_compileArray {slots : Slots} {es : List Expr} {code : Code}
    (h : compileArray slots es = .ok code) : code.ReadsFrom (sourcesList es) := by
  simp only [compileArray, bind_eq_ok, pure_eq_ok] at h
  obtain ⟨pushes, hpushes, rfl⟩ := h
  exact (readsFrom_compilePushes slots es hpushes).cons_plain rfl

theorem sourcesList_singleton (e : Expr) : sourcesList [e] = e.sources :=
  List.append_nil _

end Expr

theorem Edit.readsFrom_compile {slots : Slots} {name : String} {slot : Nat} {level : List Expr}
    {edit : Edit} {code : Code} (h : edit.compile slots name slot level = .ok code) :
    code.ReadsFrom (Expr.sourcesList (level ++ edit.inputs)) := by
  rw [Expr.sourcesList_append]
  cases edit with
  | push values =>
      rw [compile] at h
      split at h
      · obtain rfl := List.isEmpty_iff.mp ‹_›
        exact Expr.readsFrom_compileAppends slots slot values code h
      · simp only [bind_eq_ok, pure_eq_ok] at h
        obtain ⟨path, hpath, items, hitems, rfl⟩ := h
        exact ((Expr.readsFrom_compileList slots level hpath).append
          (Expr.readsFrom_compileArray hitems)).append_plain rfl
  | deleteField =>
      simp only [compile, bind_eq_ok, pure_eq_ok] at h
      obtain ⟨_, _, path, hpath, rfl⟩ := h
      have hreads := (Expr.readsFrom_compileList slots level hpath).append Code.readsFrom_nil
      rw [List.append_nil] at hreads
      exact hreads.append_plain rfl
  | set value =>
      rw [inputs, Expr.sourcesList_singleton]
      rw [compile] at h
      split at h
      · obtain rfl := List.isEmpty_iff.mp ‹_›
        simp only [bind_eq_ok, pure_eq_ok] at h
        obtain ⟨result, hresult, rfl⟩ := h
        exact (Expr.readsFrom_compile slots value hresult).append_plain rfl
      · simp only [bind_eq_ok, pure_eq_ok] at h
        obtain ⟨path, hpath, result, hresult, rfl⟩ := h
        exact ((Expr.readsFrom_compileList slots level hpath).append
          (Expr.readsFrom_compile slots value hresult)).append_plain rfl

namespace Walk

/-- Wherever the walk starts, it records the accesses of the code, up to the order of reads. -/
def Agrees (walk : Walk) (code : Code) : Prop :=
  ∀ t, Access.Reordered code.accesses ((walk t).1.map Action.access)

variable {walk next : Walk} {code more : Code}

theorem Agrees.congr (h : walk.Agrees code) (hmore : more.accesses = code.accesses) :
    walk.Agrees more := by
  intro t
  rw [hmore]
  exact h t

theorem Agrees.andThen (h : walk.Agrees code) (hnext : next.Agrees more) :
    (walk.andThen next).Agrees (code ++ more) := by
  intro t
  rw [Code.accesses_append, Walk.andThen, List.map_append]
  exact (h t).append (hnext _)

theorem agrees_read {values : List Expr} (h : code.ReadsFrom (Expr.sourcesList values))
    (change : Track → Track) : (read values change).Agrees code :=
  fun _ => h.reordered

theorem agrees_plain (h : code.accesses = []) (change : Track → Track) :
    (read [] change).Agrees code := by
  apply agrees_read
  rw [Code.ReadsFrom, h]
  exact .nil

theorem agrees_write {store : String} {values : List Expr}
    (h : code.ReadsFrom (Expr.sourcesList values))
    (hmore : more.accesses = code.accesses ++ [.write store]) : (write store values).Agrees more := by
  intro t
  rw [hmore, write, List.map_append]
  exact h.reordered.append (.refl _)

end Walk

theorem Slots.accesses_truncation (slots : Slots) : slots.truncation.accesses = [] := by
  rw [truncation]
  split <;> rfl

theorem Guard.agrees_visit {slots : Slots} {guard : Guard} {body test : Code}
    (h : guard.compile slots body = .ok test) : guard.visit.Agrees test := by
  cases guard with
  | when condition =>
      simp only [compile, bind_eq_ok, pure_eq_ok] at h
      obtain ⟨code, hcode, rfl⟩ := h
      refine Walk.agrees_read ?_ _
      rw [Expr.sourcesList_singleton]
      exact (Expr.readsFrom_compile slots condition hcode).append_plain rfl
  | otherwise | lastly =>
      obtain rfl := Except.ok.inj h
      exact Walk.agrees_plain rfl _

namespace Statement

theorem agrees_branch {guard : Guard} {body : List Statement} {rest : List Branch}
    {test code more : Code} (hguard : guard.visit.Agrees test)
    (hbody : (visitBody body).Agrees code) (hrest : (visitBranches rest).Agrees more) :
    (visitBranches ((guard, body) :: rest)).Agrees (test ++ code ++ more) := by
  have henter : Walk.enter.Agrees [] := Walk.agrees_plain rfl _
  have hleave : Walk.leave.Agrees [] := Walk.agrees_plain rfl _
  refine ((((hguard.andThen henter).andThen hbody).andThen hleave).andThen hrest).congr ?_
  simp

mutual
/-- The walk through a statement records what its code accesses. -/
theorem agrees_visit : (s : Statement) → (slots : Slots) → {after : Slots} → {code : Code} →
    s.compile slots = .ok (code, after) → s.visit.Agrees code
  | .ret none, slots => by
      intro h
      simp only [compile, Except.ok.injEq, Prod.mk.injEq] at h
      obtain ⟨rfl, -⟩ := h
      exact Walk.agrees_plain rfl _
  | .ret (some value), slots => by
      intro h
      simp only [compile, bind_eq_ok, pure_eq_ok, Prod.mk.injEq] at h
      obtain ⟨_, hvalue, rfl, -⟩ := h
      have hreads := Expr.readsFrom_compile slots value hvalue
      rw [← Expr.sourcesList_singleton] at hreads
      exact Walk.agrees_read (hreads.append_plain rfl) _
  | .save name value, slots => by
      intro h
      simp only [compile, bind_eq_ok, pure_eq_ok, Prod.mk.injEq] at h
      obtain ⟨_, hvalue, rfl, -⟩ := h
      have hreads := Expr.readsFrom_compile slots value hvalue
      rw [← Expr.sourcesList_singleton] at hreads
      exact Walk.agrees_read (hreads.append_plain rfl) _
  | .update (.globalObject _) _ _, _ => by
      intro h
      cases h
  | .update (.saved name) level edit, slots => by
      intro h
      simp only [compile, bind_eq_ok, pure_eq_ok, Prod.mk.injEq] at h
      obtain ⟨slot, hslot, _, hedit, rfl, -⟩ := h
      exact Walk.agrees_read (Edit.readsFrom_compile hedit) _
  | .choice branches, slots => by
      intro h
      simp only [compile, bind_eq_ok, pure_eq_ok, Prod.mk.injEq] at h
      obtain ⟨shape, hshape, ⟨arms, last⟩, hbranches, rfl, -⟩ := h
      have hshaped := Choice.exists_shape_iff.mp ⟨shape, hshape⟩
      exact agrees_visitBranches branches slots (fun _ _ => hshaped.last_ends) hbranches
  | .forEach source item body, slots => by
      intro h
      simp only [compile, bind_eq_ok, pure_eq_ok, Prod.mk.injEq] at h
      obtain ⟨code, hsource, ⟨round, inner⟩, hbody, rfl, -⟩ := h
      have hreads := Expr.readsFrom_compile slots source hsource
      rw [← Expr.sourcesList_singleton] at hreads
      have hround : (Walk.round source item).Agrees code := Walk.agrees_read hreads _
      have hleave : Walk.leave.Agrees [] := Walk.agrees_plain rfl _
      refine ((hround.andThen (agrees_visitBody body _ hbody)).andThen hleave).congr ?_
      rw [Code.accesses_append, Code.accesses_loop, List.append_nil, Code.accesses_append]
  | .call function args, slots => by
      intro h
      simp only [compile, bind_eq_ok, pure_eq_ok, Prod.mk.injEq] at h
      obtain ⟨_, hargs, rfl, -⟩ := h
      exact Walk.agrees_read ((Expr.readsFrom_compileList slots args hargs).append_plain rfl) _
  | .noop, slots => by
      intro h
      simp only [compile, Except.ok.injEq, Prod.mk.injEq] at h
      obtain ⟨rfl, -⟩ := h
      exact Walk.agrees_plain rfl _
  | .setKey _ [] _, _ | .deleteKey _ [], _ | .pushAtKey _ [] _, _ => by
      intro h
      cases h
  | .setKey store (first :: rest) value, slots => by
      intro h
      simp only [compile, bind_eq_ok, pure_eq_ok, Prod.mk.injEq] at h
      obtain ⟨_, hrest, _, hvalue, _, hfirst, rfl, -⟩ := h
      refine Walk.agrees_write ?_ (Code.accesses_setKey _ _ _ _ (Expr.eq_nil_of_compileList hrest))
      have hinputs := (Expr.readsFrom_compileList slots rest hrest).append
        (Expr.readsFrom_compile slots value hvalue)
      rw [← Expr.sourcesList_singleton value, ← Expr.sourcesList_append] at hinputs
      exact (Expr.readsFrom_compile slots first hfirst).append_swapped hinputs
  | .deleteKey store (first :: rest), slots => by
      intro h
      simp only [compile, bind_eq_ok, pure_eq_ok, Prod.mk.injEq] at h
      obtain ⟨_, hrest, _, hfirst, rfl, -⟩ := h
      refine Walk.agrees_write ?_ (Code.accesses_deleteKey _ _ _ (Expr.eq_nil_of_compileList hrest))
      exact (Expr.readsFrom_compile slots first hfirst).append_swapped
        (Expr.readsFrom_compileList slots rest hrest)
  | .pushAtKey store (first :: rest) values, slots => by
      intro h
      simp only [compile, bind_eq_ok, pure_eq_ok, Prod.mk.injEq] at h
      obtain ⟨_, hrest, _, hvalues, _, hfirst, rfl, -⟩ := h
      refine Walk.agrees_write ?_ (Code.accesses_pushAtKey _ _ _ _ (Expr.eq_nil_of_compileList hrest))
      have hinputs := (Expr.readsFrom_compileList slots rest hrest).append
        (Expr.readsFrom_compileArray hvalues)
      rw [← Expr.sourcesList_append] at hinputs
      exact (Expr.readsFrom_compile slots first hfirst).append_swapped hinputs
termination_by structural s => s

theorem agrees_visitBody : (body : List Statement) → (slots : Slots) → {after : Slots} →
    {code : Code} → compileBody slots body = .ok (code, after) → (visitBody body).Agrees code
  | [], slots => by
      intro h
      simp only [compileBody, Except.ok.injEq, Prod.mk.injEq] at h
      obtain ⟨rfl, -⟩ := h
      exact Walk.agrees_plain rfl _
  | s :: rest, slots => by
      intro h
      simp only [compileBody, bind_eq_ok, pure_eq_ok, Prod.mk.injEq] at h
      obtain ⟨⟨first, middle⟩, hs, ⟨more, last⟩, hrest, rfl, -⟩ := h
      exact (agrees_visit s slots hs).andThen (agrees_visitBody rest middle hrest)
termination_by structural body => body

theorem agrees_visitBranches : (branches : List (Guard × List Statement)) → (slots : Slots) →
    {arms last : Code} →
    (∀ body rest, (.lastly, body) :: rest <:+ branches → rest = []) →
    compileBranches slots branches = .ok (arms, last) → (visitBranches branches).Agrees (arms ++ last)
  | [], slots => by
      intro _ h
      simp only [compileBranches, Except.ok.injEq, Prod.mk.injEq] at h
      obtain ⟨rfl, rfl⟩ := h
      exact Walk.agrees_plain rfl _
  | (.lastly, body) :: rest, slots => by
      intro hends h
      obtain rfl := hends body rest (List.suffix_refl _)
      simp only [compileBranches, bind_eq_ok, pure_eq_ok, Prod.mk.injEq] at h
      obtain ⟨⟨code, inner⟩, hbody, rfl, rfl⟩ := h
      have hguard : Guard.lastly.visit.Agrees [] := Walk.agrees_plain rfl _
      have hrest : (visitBranches []).Agrees [] := Walk.agrees_plain rfl _
      refine (agrees_branch hguard (agrees_visitBody body _ hbody) hrest).congr ?_
      simp [Slots.accesses_truncation]
  | (.when _, body) :: rest, slots | (.otherwise, body) :: rest, slots => by
      intro hends h
      simp only [compileBranches, bind_eq_ok, pure_eq_ok, Prod.mk.injEq] at h
      obtain ⟨⟨code, inner⟩, hbody, test, htest, ⟨more, final⟩, hrest, rfl, rfl⟩ := h
      have hbranches := agrees_visitBranches rest slots
        (fun body others hsuffix => hends body others (hsuffix.trans (List.suffix_cons _ _))) hrest
      refine (agrees_branch (Guard.agrees_visit htest) (agrees_visitBody body _ hbody)
        hbranches).congr ?_
      simp [Slots.accesses_truncation, Instruction.access?, Instruction.jumpForward]
termination_by structural branches => branches
end

end Statement

namespace Function

theorem accesses_prologue (slots : Slots) (inputs : List Input) :
    (prologue slots inputs).1.accesses = [] := by
  induction inputs generalizing slots with
  | nil => rfl
  | cons input rest ih =>
      rw [prologue, Code.accesses_append, ih]
      rfl

/-- The code of a function accesses the stores that its summary records. Both write the same stores
in the same order and read the same stores between the same writes, so each access is recorded
exactly once. -/
theorem accesses_recorded {f : Function} {code : Code} {actions : List Action}
    (hcode : f.compile = .ok code) (hactions : f.summarize = .ok actions) :
    Access.writes code.accesses = Access.writes (actions.map Action.access) ∧
      (∀ k, (Access.readsAfter k code.accesses).Perm
        (Access.readsAfter k (actions.map Action.access))) ∧
      code.accesses.Perm (actions.map Action.access) := by
  simp only [compile, bind_eq_ok, pure_eq_ok] at hcode
  obtain ⟨⟨body, after⟩, hbody, rfl⟩ := hcode
  obtain ⟨final, hfinal, hpure⟩ := bind_eq_ok.mp hactions
  have hwalk := Statement.follows_visitBody f.body _ _ final rfl hfinal f.initialFlow rfl
  obtain rfl := Except.ok.inj (hfinal.symm.trans hwalk)
  obtain rfl := pure_eq_ok.mp hpure
  have hagrees := Statement.agrees_visitBody f.body _ hbody f.initialFlow.track
  have haccesses : Code.accesses
      (.assertHeapLength f.inputs.length :: (prologue Scope.empty f.inputs).1 ++ body) =
      body.accesses := by
    rw [Code.accesses_append, Code.accesses_cons, accesses_prologue]
    rfl
  rw [haccesses]
  exact ⟨hagrees.writes_eq, hagrees.perm_readsAfter, hagrees.perm⟩

/-- Nested keys, for which the code reads the stores in another order than the summary. -/
def moveUser : Function where
  inputs := []
  body :=
    [.choice
      [(.when (.keyExists "users" (.string "k")),
        [.setKey "archive" [.keyOfObject "users" [.string "k", .keyOfObject "names" [.int 1]]]
          (.keysOfObject "log")]),
        (.lastly, [.deleteKey "users" [.string "k"]])]]

theorem accesses_recorded_moveUser :
    ∃ code actions, moveUser.compile = .ok code ∧ moveUser.summarize = .ok actions ∧
      Access.readsAfter 0 code.accesses = ["users", "log", "users", "names"] ∧
      Access.readsAfter 0 (actions.map Action.access) = ["users", "names", "users", "log"] ∧
      Access.writes code.accesses = Access.writes (actions.map Action.access) ∧
      (∀ k, (Access.readsAfter k code.accesses).Perm
        (Access.readsAfter k (actions.map Action.access))) ∧
      code.accesses.Perm (actions.map Action.access) := by
  refine ⟨_, _, rfl, rfl, rfl, rfl, ?_⟩
  exact @accesses_recorded moveUser _ _ rfl rfl

end Function

end StoredProcedure
