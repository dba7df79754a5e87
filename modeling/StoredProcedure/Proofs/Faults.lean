import StoredProcedure.Proofs.LoweredForm

namespace StoredProcedure

section Computation

variable {ε α β : Type} {P : ε → Prop}

/-- If the computation is refused, then with a fault of the property. -/
def FailsWithin (P : ε → Prop) (x : Except ε α) : Prop :=
  ∀ fault, x = .error fault → P fault

namespace FailsWithin

theorem ok (a : α) : FailsWithin P (.ok a) := by
  intro fault h
  cases h

theorem error {fault : ε} (h : P fault) : FailsWithin P (.error fault : Except ε α) := by
  intro other hother
  cases hother
  exact h

theorem bind {x : Except ε α} {f : α → Except ε β} (hx : FailsWithin P x)
    (hf : ∀ a, FailsWithin P (f a)) : FailsWithin P (x >>= f) := by
  intro fault h
  rcases bind_eq_error.mp h with hfault | ⟨a, -, hfault⟩
  · exact hx fault hfault
  · exact hf a fault hfault

theorem mono {Q : ε → Prop} {x : Except ε α} (hx : FailsWithin P x)
    (h : ∀ fault, P fault → Q fault) : FailsWithin Q x :=
  fun fault hfault => h fault (hx fault hfault)

theorem andReturn {x : Except ε α} (hx : FailsWithin P x) (f : α → β) :
    FailsWithin P (x >>= fun a => pure (f a)) :=
  hx.bind fun a => ok (f a)

/-- A list is treated item by item, the first first. -/
theorem list {γ : Type} {f : γ → Except ε α} {g : List γ → Except ε β} {stop : β}
    {join : γ → α → β → β} (hnil : g [] = .ok stop)
    (hcons : ∀ x rest, g (x :: rest) = f x >>= fun a => g rest >>= fun b => pure (join x a b))
    {xs : List γ} (h : ∀ x ∈ xs, FailsWithin P (f x)) : FailsWithin P (g xs) := by
  induction xs with
  | nil =>
      rw [hnil]
      exact ok stop
  | cons x rest ih =>
      obtain ⟨hx, hrest⟩ := List.forall_mem_cons.mp h
      rw [hcons]
      exact hx.bind fun a => (ih hrest).andReturn _

theorem fields {f : Expr → Except ε α} {g : List (Expr × Expr) → Except ε β} {stop : β}
    {join : α → α → β → β} (hnil : g [] = .ok stop)
    (hcons : ∀ key value rest, g ((key, value) :: rest) =
      f key >>= fun a => f value >>= fun b => g rest >>= fun c => pure (join a b c))
    {xs : List (Expr × Expr)} (h : ∀ e ∈ (Expr.object xs).children, FailsWithin P (f e)) :
    FailsWithin P (g xs) := by
  induction xs with
  | nil =>
      rw [hnil]
      exact ok stop
  | cons field rest ih =>
      rw [Expr.children_object_cons, List.forall_mem_cons, List.forall_mem_cons] at h
      obtain ⟨hkey, hvalue, hrest⟩ := h
      rw [hcons]
      exact hkey.bind fun a => hvalue.bind fun b => (ih hrest).andReturn _

end FailsWithin

end Computation

/-- Code generation finds the fault. -/
def Fault.Concrete (fault : Fault) : Prop :=
  fault.kind.stage = .codegen

theorem Fault.Concrete.kind_not_mem {fault : Fault} (h : fault.Concrete) :
    fault.kind ∉ [.unknownGlobal, .globalAsValue, .abstractNode, .parse] := by
  intro hmem
  simp only [List.mem_cons, List.not_mem_nil, or_false] at hmem
  rcases hmem with hkind | hkind | hkind | hkind <;> simp [Concrete, hkind, FaultKind.stage] at h

theorem Slots.failsWithin_resolve (slots : Slots) (name : String) :
    FailsWithin Fault.Concrete (slots.resolve name) := by
  rw [resolve]
  split
  · exact .ok _
  · exact .error rfl

theorem Taints.failsWithin_resolve (taints : Taints) (name : String) :
    FailsWithin Fault.Concrete (taints.resolve name) := by
  rw [resolve]
  split
  · exact .ok _
  · exact .error rfl

theorem Lowering.failsWithin_requireKey (store : String) (key : List Expr) :
    FailsWithin Fault.Concrete (requireKey store key) := by
  rw [requireKey]
  split
  · exact .error rfl
  · exact .ok _

theorem Lowering.failsWithin_requireField (name : String) (level : List Expr) :
    FailsWithin Fault.Concrete (requireField name level) := by
  rw [requireField]
  split
  · exact .error rfl
  · exact .ok _

theorem Choice.failsWithin_shapeFrom (index : Nat) (otherwiseSeen : Bool)
    (branches : List Branch) :
    FailsWithin (fun fault => fault.kind = .malformedBranch)
      (shapeFrom index otherwiseSeen branches) := by
  induction branches generalizing index otherwiseSeen with
  | nil =>
      rw [shapeFrom]
      split
      · exact .error rfl
      · exact .ok _
  | cons branch rest ih =>
      obtain ⟨guard, body⟩ := branch
      cases guard with
      | when condition =>
          rw [shapeFrom]
          split
          · exact .error rfl
          · exact (ih _ _).andReturn _
      | otherwise =>
          rw [shapeFrom]
          split
          · exact .error rfl
          · split
            · exact .error rfl
            · exact (ih _ _).andReturn _
      | lastly =>
          rw [shapeFrom]
          split
          · exact .error rfl
          · split
            · exact .ok _
            · exact .error rfl

theorem Choice.failsWithin_shape (branches : List Branch) :
    FailsWithin Fault.Concrete (shape branches) :=
  (failsWithin_shapeFrom 0 false branches).mono fun _ hkind => congrArg FaultKind.stage hkind

namespace Expr

section Compile

variable {slots : Slots}

theorem failsWithin_compileFields {P : Fault → Prop} {fields : List (Expr × Expr)}
    (h : ∀ e ∈ (object fields).children, FailsWithin P (e.compile slots)) :
    FailsWithin P (compileFields slots fields) :=
  .fields (g := compileFields slots) rfl (fun _ _ _ => rfl) h

theorem failsWithin_compileList {P : Fault → Prop} {es : List Expr}
    (h : ∀ e ∈ es, FailsWithin P (e.compile slots)) : FailsWithin P (compileList slots es) :=
  .list (g := compileList slots) rfl (fun _ _ => rfl) h

theorem failsWithin_compilePushes {P : Fault → Prop} {es : List Expr}
    (h : ∀ e ∈ es, FailsWithin P (e.compile slots)) : FailsWithin P (compilePushes slots es) :=
  .list (g := compilePushes slots) rfl (fun _ _ => rfl) h

theorem failsWithin_compile {e : Expr} (h : .globalObject ∉ e.kinds) :
    FailsWithin Fault.Concrete (e.compile slots) := by
  induction e using induction_on_children with
  | node e ih =>
      obtain ⟨hself, hkinds⟩ := globalObject_not_mem_kinds.mp h
      have hchildren : ∀ child ∈ e.children, FailsWithin Fault.Concrete (child.compile slots) :=
        fun child hchild => ih child hchild (hkinds child hchild)
      clear ih h hkinds
      cases e with
      | bool | int | double | string | nothing | wholeObject | keysOfObject => exact .ok _
      | globalObject name => cases hself
      | saved name => exact (slots.failsWithin_resolve name).andReturn _
      | object fields => exact (failsWithin_compileFields hchildren).andReturn _
      | array values => exact (failsWithin_compilePushes hchildren).andReturn _
      | call function args => exact (failsWithin_compileList hchildren).andReturn _
      | negation value | typeOf value | hasType value type | keys value | keyExists store value =>
          exact (hchildren value List.mem_cons_self).andReturn _
      | comparison sign left right | arithmetic sign left right | logic sign left right
      | fieldExists left right =>
          simp only [children, List.forall_mem_cons] at hchildren
          exact hchildren.1.bind fun _ => hchildren.2.1.andReturn _
      | selection root level =>
          simp only [children, List.forall_mem_cons] at hchildren
          refine hchildren.1.bind fun _ => ?_
          split
          · exact .ok _
          · exact (failsWithin_compileList hchildren.2).andReturn _
      | role schema state =>
          rw [compile]
          split
          · exact .error rfl
          · cases state with
            | none => exact .ok _
            | some state => exact ((hchildren state List.mem_cons_self).andReturn _).andReturn _
      | keyOfObject store key =>
          cases key with
          | nil => exact .error rfl
          | cons first rest =>
              simp only [children, List.forall_mem_cons] at hchildren
              exact (failsWithin_compileList hchildren.2).bind fun _ => hchildren.1.andReturn _

theorem forall_failsWithin_compile (slots : Slots) {es : List Expr}
    (h : .globalObject ∉ kindsList es) :
    ∀ e ∈ es, FailsWithin Fault.Concrete (e.compile slots) := by
  intro e he
  exact failsWithin_compile (globalObject_not_mem_kindsList.mp h e he)

theorem failsWithin_compileAll {es : List Expr} (h : .globalObject ∉ kindsList es) :
    FailsWithin Fault.Concrete (compileList slots es) :=
  failsWithin_compileList (forall_failsWithin_compile slots h)

end Compile

section Reads

variable {taints : Taints}

theorem failsWithin_readsFields {P : Fault → Prop} {fields : List (Expr × Expr)}
    (h : ∀ e ∈ (object fields).children, FailsWithin P (e.reads taints)) :
    FailsWithin P (readsFields taints fields) :=
  .fields (g := readsFields taints) rfl (fun _ _ _ => rfl) h

theorem failsWithin_readsList {P : Fault → Prop} {es : List Expr}
    (h : ∀ e ∈ es, FailsWithin P (e.reads taints)) : FailsWithin P (readsList taints es) :=
  .list (g := readsList taints) rfl (fun _ _ => rfl) h

theorem failsWithin_reads {e : Expr} (h : .globalObject ∉ e.kinds) :
    FailsWithin Fault.Concrete (e.reads taints) := by
  induction e using induction_on_children with
  | node e ih =>
      obtain ⟨hself, hkinds⟩ := globalObject_not_mem_kinds.mp h
      have hchildren : ∀ child ∈ e.children, FailsWithin Fault.Concrete (child.reads taints) :=
        fun child hchild => ih child hchild (hkinds child hchild)
      clear ih h hkinds
      cases e with
      | bool | int | double | string | nothing | wholeObject | keysOfObject => exact .ok _
      | globalObject name => cases hself
      | saved name => exact (taints.failsWithin_resolve name).andReturn _
      | object fields => exact failsWithin_readsFields hchildren
      | array values | call function values => exact failsWithin_readsList hchildren
      | keyOfObject store key => exact (failsWithin_readsList hchildren).andReturn _
      | negation value | typeOf value | hasType value type | keys value =>
          exact hchildren value List.mem_cons_self
      | keyExists store key => exact (hchildren key List.mem_cons_self).andReturn _
      | comparison sign left right | arithmetic sign left right | logic sign left right
      | fieldExists left right =>
          simp only [children, List.forall_mem_cons] at hchildren
          exact hchildren.1.bind fun _ => hchildren.2.1.andReturn _
      | selection root level =>
          simp only [children, List.forall_mem_cons] at hchildren
          exact hchildren.1.bind fun _ => (failsWithin_readsList hchildren.2).andReturn _
      | role schema state =>
          cases state with
          | none => exact .ok _
          | some state => exact hchildren state List.mem_cons_self

theorem failsWithin_readsAll {es : List Expr} (h : .globalObject ∉ kindsList es) :
    FailsWithin Fault.Concrete (readsList taints es) :=
  failsWithin_readsList fun e he => failsWithin_reads (globalObject_not_mem_kindsList.mp h e he)

theorem failsWithin_readsAppend {es more : List Expr} (hes : .globalObject ∉ kindsList es)
    (hmore : .globalObject ∉ kindsList more) :
    FailsWithin Fault.Concrete (readsList taints (es ++ more)) := by
  apply failsWithin_readsAll
  rw [globalObject_not_mem_kindsList, List.forall_mem_append]
  exact ⟨globalObject_not_mem_kindsList.mp hes, globalObject_not_mem_kindsList.mp hmore⟩

end Reads

end Expr

theorem Expr.failsWithin_compileAppends {slots : Slots} {slot : Nat} {P : Fault → Prop}
    {es : List Expr} (h : ∀ e ∈ es, FailsWithin P (e.compile slots)) :
    FailsWithin P (compileAppends slots slot es) :=
  .list (g := compileAppends slots slot) rfl (fun _ _ => rfl) h

theorem Edit.failsWithin_compile {slots : Slots} {name : String} {slot : Nat} {level : List Expr}
    {edit : Edit} (hlevel : .globalObject ∉ Expr.kindsList level)
    (hedit : .globalObject ∉ edit.kinds) :
    FailsWithin Fault.Concrete (edit.compile slots name slot level) := by
  have hpath : FailsWithin Fault.Concrete (Expr.compileList slots level) :=
    Expr.failsWithin_compileAll hlevel
  have hinputs : ∀ e ∈ edit.inputs, FailsWithin Fault.Concrete (e.compile slots) :=
    Expr.forall_failsWithin_compile slots (globalObject_not_mem_kinds.mp hedit)
  cases edit with
  | push values =>
      rw [compile]
      split
      · exact Expr.failsWithin_compileAppends hinputs
      · exact hpath.bind fun _ =>
          ((Expr.failsWithin_compilePushes hinputs).andReturn _).andReturn _
  | deleteField =>
      exact (Lowering.failsWithin_requireField name level).bind fun _ => hpath.andReturn _
  | set value =>
      have hvalue := hinputs value List.mem_cons_self
      rw [compile]
      split
      · exact hvalue.andReturn _
      · exact hpath.bind fun _ => hvalue.andReturn _

theorem Guard.failsWithin_compile {slots : Slots} {body : Code} {guard : Guard}
    (h : .globalObject ∉ guard.kinds) :
    FailsWithin Fault.Concrete (guard.compile slots body) := by
  cases guard with
  | when condition =>
      simp only [kinds, List.mem_cons, not_or] at h
      exact (Expr.failsWithin_compile h.2).andReturn _
  | otherwise | lastly => exact .ok _

namespace Statement

mutual
theorem failsWithin_compile : (s : Statement) → (slots : Slots) → .globalObject ∉ s.kinds →
    FailsWithin Fault.Concrete (s.compile slots)
  | .ret none, _, _ | .noop, _, _ => .ok _
  | .ret (some value), slots, h | .save _ value, slots, h => by
      simp only [kinds, Expr.kindsOption, List.mem_cons, not_or] at h
      exact (Expr.failsWithin_compile h.2).andReturn _
  | .update (.globalObject _) _ _, _, h => by simp [kinds, Target.kinds] at h
  | .update (.saved name) level edit, slots, h => by
      simp only [kinds, List.mem_append, List.mem_cons, not_or] at h
      exact (slots.failsWithin_resolve name).bind fun _ =>
        (Edit.failsWithin_compile h.1.2 h.2).andReturn _
  | .choice branches, slots, h => by
      simp only [kinds, List.mem_cons, not_or] at h
      exact (Choice.failsWithin_shape branches).bind fun _ =>
        (failsWithin_compileBranches branches slots h.2).andReturn _
  | .forEach source item body, slots, h => by
      simp only [kinds, List.mem_append, List.mem_cons, not_or] at h
      exact (Expr.failsWithin_compile h.1.2).bind fun _ =>
        (failsWithin_compileBody body _ h.2).andReturn _
  | .call function args, slots, h => by
      simp only [kinds, List.mem_cons, not_or] at h
      exact (Expr.failsWithin_compileAll h.2).andReturn _
  | .setKey _ [] _, _, _ | .deleteKey _ [], _, _ | .pushAtKey _ [] _, _, _ => .error rfl
  | .setKey store (first :: rest) value, slots, h => by
      simp only [kinds, Expr.kindsList, List.mem_append, List.mem_cons, not_or] at h
      obtain ⟨⟨-, hfirst, hrest⟩, hvalue⟩ := h
      exact (Expr.failsWithin_compileAll hrest).bind fun _ =>
        (Expr.failsWithin_compile hvalue).bind fun _ =>
          (Expr.failsWithin_compile hfirst).andReturn _
  | .deleteKey store (first :: rest), slots, h => by
      simp only [kinds, Expr.kindsList, List.mem_append, List.mem_cons, not_or] at h
      obtain ⟨-, hfirst, hrest⟩ := h
      exact (Expr.failsWithin_compileAll hrest).bind fun _ =>
        (Expr.failsWithin_compile hfirst).andReturn _
  | .pushAtKey store (first :: rest) values, slots, h => by
      simp only [kinds, Expr.kindsList, List.mem_append, List.mem_cons, not_or] at h
      obtain ⟨⟨-, hfirst, hrest⟩, hvalues⟩ := h
      have hpushes := Expr.failsWithin_compilePushes (Expr.forall_failsWithin_compile slots hvalues)
      exact (Expr.failsWithin_compileAll hrest).bind fun _ =>
        (hpushes.andReturn _).bind fun _ => (Expr.failsWithin_compile hfirst).andReturn _
termination_by structural s => s

theorem failsWithin_compileBody : (body : List Statement) → (slots : Slots) →
    .globalObject ∉ kindsList body → FailsWithin Fault.Concrete (compileBody slots body)
  | [], _, _ => .ok _
  | s :: rest, slots, h => by
      simp only [kindsList, List.mem_append, not_or] at h
      exact (failsWithin_compile s slots h.1).bind fun _ =>
        (failsWithin_compileBody rest _ h.2).andReturn _
termination_by structural body => body

theorem failsWithin_compileBranches : (branches : List (Guard × List Statement)) →
    (slots : Slots) → .globalObject ∉ kindsBranches branches →
    FailsWithin Fault.Concrete (compileBranches slots branches)
  | [], _, _ => .ok _
  | (guard, body) :: rest, slots, h => by
      simp only [kindsBranches, List.mem_append, not_or] at h
      have hbody := failsWithin_compileBody body slots.enter h.1.2
      have harm : ∀ code : Code, FailsWithin Fault.Concrete (do
          let test ← guard.compile slots code
          let (arms, last) ← compileBranches slots rest
          return (test ++ code ++ .jumpForward arms.length :: arms, last)) := fun code =>
        (Guard.failsWithin_compile h.1.1).bind fun _ =>
          (failsWithin_compileBranches rest slots h.2).andReturn _
      cases guard with
      | when condition => exact hbody.bind fun _ => harm _
      | otherwise => exact hbody.bind fun _ => harm _
      | lastly => exact hbody.andReturn _
termination_by structural branches => branches
end

theorem failsWithin_summarizeGuard {flow : Flow} {guard : Guard}
    (h : .globalObject ∉ guard.kinds) :
    FailsWithin Fault.Concrete (summarizeGuard flow guard) := by
  cases guard with
  | when condition =>
      simp only [Guard.kinds, List.mem_cons, not_or] at h
      exact (Expr.failsWithin_reads h.2).andReturn _
  | otherwise | lastly => exact .ok _

theorem failsWithin_summarizeUpdate {flow : Flow} {name : String} {level : List Expr} {edit : Edit}
    (hlevel : .globalObject ∉ Expr.kindsList level) (hedit : .globalObject ∉ edit.kinds) :
    FailsWithin Fault.Concrete (summarizeUpdate flow name level edit) := by
  have hreads : FailsWithin Fault.Concrete
      (Expr.readsList flow.taints (level ++ edit.inputs)) :=
    Expr.failsWithin_readsAppend hlevel (Edit.globalObject_not_mem_kinds.mp hedit)
  refine (flow.taints.failsWithin_resolve name).bind fun _ => ?_
  cases edit with
  | deleteField =>
      exact (Lowering.failsWithin_requireField name level).bind fun _ => hreads.andReturn _
  | push values | set value => exact hreads.andReturn _

mutual
theorem failsWithin_summarize : (s : Statement) → (flow : Flow) → .globalObject ∉ s.kinds →
    FailsWithin Fault.Concrete (s.summarize flow)
  | .noop, _, _ => .ok _
  | .ret none, _, _ => .ok _
  | .ret (some value), flow, h | .save _ value, flow, h => by
      simp only [kinds, Expr.kindsOption, List.mem_cons, not_or] at h
      exact (Expr.failsWithin_reads h.2).andReturn _
  | .update (.globalObject _) _ _, _, h => by simp [kinds, Target.kinds] at h
  | .update (.saved name) level edit, flow, h => by
      simp only [kinds, List.mem_append, List.mem_cons, not_or] at h
      exact failsWithin_summarizeUpdate h.1.2 h.2
  | .choice branches, flow, h => by
      simp only [kinds, List.mem_cons, not_or] at h
      exact (Choice.failsWithin_shape branches).bind fun _ =>
        failsWithin_summarizeBranches branches flow h.2
  | .forEach source item body, flow, h => by
      simp only [kinds, List.mem_append, List.mem_cons, not_or] at h
      exact (Expr.failsWithin_reads h.1.2).bind fun _ =>
        (failsWithin_summarizeBody body _ h.2).andReturn _
  | .call function args, flow, h => by
      simp only [kinds, List.mem_cons, not_or] at h
      exact (Expr.failsWithin_readsAll h.2).andReturn _
  | .setKey store key value, flow, h => by
      simp only [kinds, List.mem_append, List.mem_cons, not_or] at h
      have hvalue : .globalObject ∉ Expr.kindsList [value] := by
        simpa [Expr.kindsList] using h.2
      exact (Lowering.failsWithin_requireKey store key).bind fun _ =>
        (Expr.failsWithin_readsAppend h.1.2 hvalue).andReturn _
  | .deleteKey store key, flow, h => by
      simp only [kinds, List.mem_cons, not_or] at h
      exact (Lowering.failsWithin_requireKey store key).bind fun _ =>
        (Expr.failsWithin_readsAll h.2).andReturn _
  | .pushAtKey store key values, flow, h => by
      simp only [kinds, List.mem_append, List.mem_cons, not_or] at h
      exact (Lowering.failsWithin_requireKey store key).bind fun _ =>
        (Expr.failsWithin_readsAppend h.1.2 h.2).andReturn _
termination_by structural s => s

theorem failsWithin_summarizeBody : (body : List Statement) → (flow : Flow) →
    .globalObject ∉ kindsList body → FailsWithin Fault.Concrete (summarizeBody flow body)
  | [], _, _ => .ok _
  | s :: rest, flow, h => by
      simp only [kindsList, List.mem_append, not_or] at h
      exact (failsWithin_summarize s flow h.1).bind fun _ => failsWithin_summarizeBody rest _ h.2
termination_by structural body => body

theorem failsWithin_summarizeBranches : (branches : List (Guard × List Statement)) →
    (flow : Flow) → .globalObject ∉ kindsBranches branches →
    FailsWithin Fault.Concrete (summarizeBranches flow branches)
  | [], _, _ => .ok _
  | (guard, body) :: rest, flow, h => by
      simp only [kindsBranches, List.mem_append, not_or] at h
      exact (failsWithin_summarizeGuard h.1.1).bind fun _ =>
        (failsWithin_summarizeBody body _ h.1.2).bind fun _ =>
          failsWithin_summarizeBranches rest _ h.2
termination_by structural branches => branches
end

end Statement

namespace Function

variable {f : Function}

theorem failsWithin_compile (h : .globalObject ∉ Statement.kindsList f.body) :
    FailsWithin Fault.Concrete f.compile :=
  (Statement.failsWithin_compileBody f.body _ h).andReturn _

theorem failsWithin_analyze (h : .globalObject ∉ Statement.kindsList f.body) :
    FailsWithin Fault.Concrete f.analyze :=
  ((Statement.failsWithin_summarizeBody f.body _ h).andReturn _).andReturn _

end Function

end StoredProcedure
