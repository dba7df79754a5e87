import StoredProcedure.Proofs.ExprSimulation

namespace StoredProcedure

open Instruction (exec)

namespace Execution

theorem after_eq_some {e : Execution} {calls made : List Call} {completion : Completion} :
    e.after calls = some (completion, made) ↔
      ∃ more, e = some (completion, more) ∧ made = calls ++ more := by
  simp only [after, bind_eq_some, pure_eq_some]
  constructor
  · rintro ⟨⟨_, more⟩, he, hpair⟩
    obtain ⟨rfl, rfl⟩ := Prod.mk.inj hpair
    exact ⟨more, he, rfl⟩
  · rintro ⟨more, he, rfl⟩
    exact ⟨(completion, more), he, rfl⟩

theorem andThen_eq_some {first : Execution} {next : Env → Execution} {made : List Call}
    {completion : Completion} (h : first.andThen next = some (completion, made)) :
    (∃ value, first = some (.returned value, made) ∧ completion = .returned value) ∨
      ∃ env before more, first = some (.done env, before) ∧ next env = some (completion, more) ∧
        made = before ++ more := by
  simp only [andThen, bind_eq_some] at h
  obtain ⟨⟨_ | value, before⟩, hfirst, hnext⟩ := h
  · rename_i env
    obtain ⟨more, hmore, rfl⟩ := after_eq_some.mp hnext
    exact .inr ⟨env, before, more, hfirst, hmore, rfl⟩
  · obtain ⟨rfl, rfl⟩ := Prod.mk.inj (pure_eq_some.mp hnext)
    exact .inl ⟨value, hfirst, rfl⟩

end Execution

/-- Where the code of statements leads to. -/
def Completion.ending (stack : List Datum) (calls : List Call) : Completion → Ending
  | .done env => .behind ⟨stack, env.values, calls⟩
  | .returned value => .returned value calls

namespace Code

/-- From the values of an environment, code leads to what an execution leads to, on top of any stack
and after any calls. If the execution goes on, the scopes are then as `slots` says. -/
def Simulates (code : Code) (env : Env) (slots : Slots) (run : Execution) : Prop :=
  ∀ completion made, run = some (completion, made) →
    (∀ final, completion = .done final → final.shape = slots) ∧
      ∀ stack calls, code.Leads ⟨stack, env.values, calls⟩
        (completion.ending stack (calls ++ made))

theorem simulates_done {code : Code} {env final : Env} {made : List Call}
    (h : ∀ stack calls, code.Leads ⟨stack, env.values, calls⟩
      (.behind ⟨stack, final.values, calls ++ made⟩)) :
    code.Simulates env final.shape (some (.done final, made)) := by
  intro completion others hrun
  obtain ⟨rfl, rfl⟩ := Prod.mk.inj (Option.some.inj hrun)
  refine ⟨fun other hother => ?_, h⟩
  rw [Completion.done.inj hother]

theorem simulates_nil (env : Env) : Simulates [] env env.shape (some (.done env, [])) :=
  simulates_done fun stack calls => by
    rw [List.append_nil]
    exact leads_nil _

theorem Simulates.andThen {part more : Code} {env : Env} {slots after : Slots}
    {first : Execution} {next : Env → Execution} (hpart : part.Simulates env slots first)
    (hmore : ∀ middle : Env, middle.shape = slots → more.Simulates middle after (next middle)) :
    (part ++ more).Simulates env after (first.andThen next) := by
  intro completion made hrun
  rcases Execution.andThen_eq_some hrun with
    ⟨value, hfirst, rfl⟩ | ⟨middle, before, rest, hfirst, hnext, rfl⟩
  · refine ⟨nofun, fun stack calls => ?_⟩
    exact ((hpart _ _ hfirst).2 stack calls).append_returned more
  · obtain ⟨hshape, hleads⟩ := hpart _ _ hfirst
    obtain ⟨hafter, hrest⟩ := hmore middle (hshape middle rfl) _ _ hnext
    refine ⟨hafter, fun stack calls => ?_⟩
    rw [← List.append_assoc]
    exact (hleads stack calls).append (hrest stack (calls ++ before))

theorem leads_truncateHeap (env : Env) (stack : List Datum) (calls : List Call) :
    Leads [.truncateHeap env.declared] ⟨stack, env.values, calls⟩
      (.behind ⟨stack, env.leave.values, calls⟩) := by
  have hle : env.declared ≤ env.values.length := by
    rw [Scope.length_values]
    exact env.declared_le_nextSlot
  exact leads_single fun _ => by rw [exec, if_pos hle, Scope.values_leave]; rfl

theorem leads_truncation (env : Env) (stack : List Datum) (calls : List Call) :
    (Slots.truncation env.shape).Leads ⟨stack, env.values, calls⟩
      (.behind ⟨stack, env.leave.values, calls⟩) := by
  rw [Slots.truncation, Scope.declared_shape]
  split
  · rename_i hnone
    rw [Scope.values_leave, hnone, Nat.sub_zero, List.take_length]
    exact leads_nil _
  · exact leads_truncateHeap env stack calls

theorem Simulates.leave {body : Code} {env : Env} {inner slots : Slots} {run : Execution}
    (hbody : body.Simulates env inner run) (hslots : inner.leave = slots) :
    (body ++ inner.truncation).Simulates env slots run.leave := by
  refine hbody.andThen fun middle hmiddle => ?_
  subst hmiddle hslots
  rw [← Scope.shape_leave]
  refine simulates_done fun stack calls => ?_
  rw [List.append_nil]
  exact leads_truncation middle stack calls

theorem Simulates.leave_loop {body : Code} {env : Env} {inner slots : Slots} {run : Execution}
    (hbody : body.Simulates env inner run) (hslots : inner.leave = slots) :
    Simulates (body ++ [.truncateHeap inner.declared]) env slots run.leave := by
  refine hbody.andThen fun middle hmiddle => ?_
  subst hmiddle hslots
  rw [← Scope.shape_leave, Scope.declared_shape]
  refine simulates_done fun stack calls => ?_
  rw [List.append_nil]
  exact leads_truncateHeap middle stack calls

theorem leads_loopTest {items : List Datum} (h : items.length < 0x8000000000000000) (stack heap : List Datum)
    (calls : List Call) :
    Leads [.arrayLength, zero, .equal] ⟨.array items :: stack, heap, calls⟩
      (.behind ⟨.bool (decide (items.length = 0)) :: .array items :: stack, heap, calls⟩) := by
  obtain ⟨none, hzero, hnone⟩ : ∃ n : WordInt, zero = .instantiate (.int n) ∧ n.val = 0 :=
    ⟨_, rfl, rfl⟩
  obtain ⟨length, hlength⟩ : ∃ d, Datum.ofInt? items.length = some d :=
    ⟨_, by rw [Datum.ofInt?_count, dif_pos h]⟩
  rw [hzero]
  refine Leads.cons (n := ⟨length :: .array items :: stack, heap, calls⟩)
    (fun _ => by simp [exec, hlength]) ?_
  refine Leads.cons (n := ⟨.int none :: length :: .array items :: stack, heap, calls⟩)
    (fun _ => by simp [exec]) ?_
  exact leads_single fun _ => by simp [exec, Datum.same_ofInt?_count hnone hlength]

/-- A round of a loop, from its test to its end. -/
def round (body : Code) (declared : Nat) : Code :=
  [.arrayLength, zero, .equal] ++
    .skipIf (body.length + 4) :: .popArray :: .stackToHeap :: (body ++ [.truncateHeap declared])

theorem loop_eq (body : Code) (declared : Nat) :
    loop body declared =
      round body declared ++ .jumpBack (round body declared).length :: [.popStack] := by
  simp [loop, round]

theorem leads_loop_nil (body : Code) (declared : Nat) (stack heap : List Datum)
    (calls : List Call) :
    (loop body declared).Leads ⟨.array [] :: stack, heap, calls⟩
      (.behind ⟨stack, heap, calls⟩) := by
  have hexit : Leads (.skipIf (body.length + 4) :: ((.popArray :: .stackToHeap ::
      (body ++ [.truncateHeap declared, .jumpBack (round body declared).length])) ++ [.popStack]))
      ⟨.bool true :: .array [] :: stack, heap, calls⟩ (.behind ⟨stack, heap, calls⟩) := by
    refine Leads.over _ (n := ⟨.array [] :: stack, heap, calls⟩) (fun _ => ?_)
      (leads_single fun _ => by simp [exec])
    simp [exec]
  have hempty : ([] : List Datum).length < 0x8000000000000000 := by decide
  have h := (leads_loopTest hempty stack heap calls).append hexit
  rw [loop_eq]
  simpa [round] using h

theorem leads_round_cons {body : Code} {declared : Nat} {value : Datum} {rest : List Datum}
    (h : (value :: rest).length < 0x8000000000000000) {stack heap : List Datum} {calls : List Call}
    {ending : Ending}
    (hbody : Leads (body ++ [.truncateHeap declared])
      ⟨.array rest.reverse :: stack, heap ++ [value], calls⟩ ending) :
    (round body declared).Leads ⟨.array (value :: rest).reverse :: stack, heap, calls⟩ ending := by
  rw [← List.length_reverse] at h
  have htest := leads_loopTest h stack heap calls
  rw [List.reverse_cons] at htest ⊢
  refine htest.append ?_
  refine Leads.cons (n := ⟨.array (rest.reverse ++ [value]) :: stack, heap, calls⟩)
    (fun _ => by simp [exec]) ?_
  refine Leads.cons (n := ⟨value :: .array rest.reverse :: stack, heap, calls⟩)
    (fun _ => by simp [exec]) ?_
  exact Leads.cons (fun _ => by simp [exec]) hbody

/-- The rounds of a loop. The array on top holds what is left of the items, the next one last. -/
theorem leads_loop {body : Code} {inner slots : Slots} {item : String} {run : Env → Execution}
    (hbody : ∀ env : Env, env.shape = slots.enter.add item () → body.Simulates env inner (run env))
    (hslots : inner.leave = slots) (values : List Datum) :
    ∀ (env : Env) (completion : Completion) (made : List Call), env.shape = slots →
      values.length < 0x8000000000000000 → Env.rounds item run values env = some (completion, made) →
        (∀ final, completion = .done final → final.shape = slots) ∧
          ∀ stack calls, (loop body inner.declared).Leads
            ⟨.array values.reverse :: stack, env.values, calls⟩
            (completion.ending stack (calls ++ made)) := by
  induction values with
  | nil =>
      intro env completion made henv _ hrun
      obtain ⟨rfl, rfl⟩ := Prod.mk.inj (Option.some.inj hrun)
      refine ⟨fun final hfinal => Completion.done.inj hfinal ▸ henv, fun stack calls => ?_⟩
      rw [List.append_nil]
      exact leads_loop_nil body inner.declared stack env.values calls
  | cons value rest ih =>
      intro env completion made henv hlength hrun
      have hstart : (env.enter.add item value).shape = slots.enter.add item () := by
        rw [Scope.shape_add, Scope.shape_enter, henv]
      have hheap : (env.enter.add item value).values = env.values ++ [value] := by
        rw [Scope.values_add, Scope.values_enter]
      have hround := (hbody _ hstart).leave_loop hslots
      have hrest : rest.length < 0x8000000000000000 := Nat.lt_of_succ_lt hlength
      rw [Env.rounds] at hrun
      rcases Execution.andThen_eq_some hrun with
        ⟨result, hfirst, rfl⟩ | ⟨middle, before, more, hfirst, hnext, rfl⟩
      · obtain ⟨-, hleads⟩ := hround _ _ hfirst
        rw [hheap] at hleads
        refine ⟨nofun, fun stack calls => ?_⟩
        rw [loop_eq]
        exact (leads_round_cons hlength (hleads _ calls)).append_returned _
      · obtain ⟨hmiddle, hleads⟩ := hround _ _ hfirst
        obtain ⟨hfinal, hloop⟩ := ih middle completion more (hmiddle middle rfl) hrest hnext
        rw [hheap] at hleads
        refine ⟨hfinal, fun stack calls => ?_⟩
        have hagain := hloop stack (calls ++ before)
        rw [loop_eq] at hagain ⊢
        rw [← List.append_assoc]
        exact (leads_round_cons hlength (hleads _ calls)).again hagain

theorem Simulates.jumpOver {rest : Code} {env : Env} {slots : Slots} {run : Execution}
    (h : rest.Simulates env slots run) (part : Code) :
    Simulates (.jumpForward part.length :: (part ++ rest)) env slots run := by
  intro completion made hrun
  obtain ⟨hshape, hleads⟩ := h completion made hrun
  refine ⟨hshape, fun stack calls => ?_⟩
  exact Leads.over part (fun _ => rfl) (hleads stack calls)

theorem Simulates.after {part rest : Code} {env : Env} {slots : Slots} {run : Execution}
    {made : List Call}
    (hpart : ∀ stack calls ending, rest.Leads ⟨stack, env.values, calls ++ made⟩ ending →
      part.Leads ⟨stack, env.values, calls⟩ ending)
    (hrest : rest.Simulates env slots run) : part.Simulates env slots (run.after made) := by
  intro completion others hrun
  obtain ⟨more, hmore, rfl⟩ := Execution.after_eq_some.mp hrun
  obtain ⟨hshape, hleads⟩ := hrest completion more hmore
  refine ⟨hshape, fun stack calls => hpart stack calls _ ?_⟩
  rw [← List.append_assoc]
  exact hleads stack (calls ++ made)

end Code

section Guard

variable {env : Env} {condition : Expr} {test body : Code} {value : Datum} {made : List Call}

theorem Guard.leads_body (htest : (Guard.when condition).compile env.shape body = .ok test)
    (heval : condition.eval env = some (value, made)) (hvalue : value.bool? = some true)
    (stack : List Datum) (calls : List Call) :
    test.Leads ⟨stack, env.values, calls⟩ (.behind ⟨stack, env.values, calls ++ made⟩) := by
  simp only [Guard.compile, bind_eq_ok, pure_eq_ok] at htest
  obtain ⟨code, hcode, rfl⟩ := htest
  have hskip : Code.Leads [.skipIf (body.length + 1)]
      ⟨.bool false :: stack, env.values, calls ++ made⟩
      (.behind ⟨stack, env.values, calls ++ made⟩) :=
    Code.leads_single fun _ => by simp [exec]
  exact (Expr.leads_compile env condition hcode heval stack calls).append
    ((leads_negate hvalue).append hskip)

theorem Guard.leads_over (htest : (Guard.when condition).compile env.shape body = .ok test)
    (heval : condition.eval env = some (value, made)) (hvalue : value.bool? = some false)
    {jump : Instruction} {rest : Code} {stack : List Datum} {calls : List Call} {ending : Ending}
    (hrest : rest.Leads ⟨stack, env.values, calls ++ made⟩ ending) :
    (test ++ body ++ jump :: rest).Leads ⟨stack, env.values, calls⟩ ending := by
  simp only [Guard.compile, bind_eq_ok, pure_eq_ok] at htest
  obtain ⟨code, hcode, rfl⟩ := htest
  have hskip : Code.Leads (.skipIf (body.length + 1) :: ((body ++ [jump]) ++ rest))
      ⟨.bool true :: stack, env.values, calls ++ made⟩ ending :=
    Code.Leads.over _ (fun _ => by simp [exec]) hrest
  have h := (Expr.leads_compile env condition hcode heval stack calls).append
    ((leads_negate hvalue).append hskip)
  simpa using h

end Guard

theorem Expr.leads_compileAppends {name : String} {slot : Nat} (es : List Expr) :
    ∀ (env final : Env) (code : Code) (made : List Call), env.slot? name = some slot →
      compileAppends env.shape slot es = .ok code →
      evalAppends env name es = some (final, made) →
        final.shape = env.shape ∧ ∀ stack calls, code.Leads ⟨stack, env.values, calls⟩
          (.behind ⟨stack, final.values, calls ++ made⟩) := by
  induction es with
  | nil =>
      intro env final code made _ hcode heval
      obtain rfl := Except.ok.inj hcode
      obtain ⟨rfl, rfl⟩ := Prod.mk.inj (Option.some.inj heval)
      refine ⟨rfl, fun stack calls => ?_⟩
      rw [List.append_nil]
      exact Code.leads_nil _
  | cons e rest ih =>
      intro env final code made hslot hcode heval
      simp only [compileAppends, bind_eq_ok, pure_eq_ok] at hcode
      obtain ⟨first, hfirst, more, hmore, rfl⟩ := hcode
      simp only [evalAppends, bind_eq_some, pure_eq_some] at heval
      obtain ⟨⟨value, before⟩, hvalue, array, harray, items, hitems, ⟨last, after⟩, hlast, hpair⟩ :=
        heval
      obtain ⟨rfl, rfl⟩ := Prod.mk.inj hpair
      have hnext : (env.modify name fun _ => .array (items ++ [value])).slot? name = some slot := by
        rw [← Scope.slot?_shape, Scope.shape_modify, Scope.slot?_shape, hslot]
      rw [← Scope.shape_modify env name] at hmore
      obtain ⟨hshape, hrest⟩ := ih _ _ _ _ hnext hmore hlast
      refine ⟨by rw [hshape, Scope.shape_modify], fun stack calls => ?_⟩
      rw [Scope.values_modify _ hslot harray] at hrest
      rw [← Scope.getElem?_values hslot] at harray
      have h : Code.Leads (.stackToHeapArray slot :: more)
          ⟨value :: stack, env.values, calls ++ before⟩ _ :=
        Code.Leads.cons (fun _ => by simp [exec, harray, hitems]) (hrest stack (calls ++ before))
      rw [← List.append_assoc calls]
      exact (leads_compile env e hfirst hvalue stack calls).append h

theorem Edit.leads_compile {name : String} {slot : Nat} {env final : Env} {edit : Edit}
    {code : Code} {made : List Call} (hslot : env.slot? name = some slot)
    (hcode : edit.compile env.shape name slot [] = .ok code)
    (heval : edit.eval env name = some (final, made)) :
    final.shape = env.shape ∧ ∀ stack calls, code.Leads ⟨stack, env.values, calls⟩
      (.behind ⟨stack, final.values, calls ++ made⟩) := by
  cases edit with
  | push values => exact Expr.leads_compileAppends values _ _ _ _ hslot hcode heval
  | deleteField => cases heval
  | set value =>
      simp only [compile, List.isEmpty_nil, if_true, bind_eq_ok, pure_eq_ok] at hcode
      obtain ⟨valueCode, hvalueCode, rfl⟩ := hcode
      simp only [eval, bind_eq_some, pure_eq_some] at heval
      obtain ⟨⟨result, calls⟩, hresult, hpair⟩ := heval
      obtain ⟨rfl, rfl⟩ := Prod.mk.inj hpair
      obtain ⟨old, hold⟩ := Scope.exists_value? hslot
      refine ⟨Scope.shape_modify _ _ _, fun stack others => ?_⟩
      rw [Scope.values_modify _ hslot hold]
      exact (Expr.leads_compile env value hvalueCode hresult stack others).append
        (Code.leads_single fun _ => by simp [exec, Scope.slot?_lt hslot])

namespace Statement

mutual
/-- The code of a statement does what the statement does. -/
theorem simulates_compile : (s : Statement) → (env : Env) → {after : Slots} → {code : Code} →
    s.compile env.shape = .ok (code, after) → code.Simulates env after (s.eval env)
  | .ret none, env => by
      intro hcompile completion made hrun
      simp only [compile, Except.ok.injEq, Prod.mk.injEq] at hcompile
      obtain ⟨rfl, rfl⟩ := hcompile
      obtain ⟨rfl, rfl⟩ := Prod.mk.inj (Option.some.inj hrun)
      refine ⟨nofun, fun stack calls => ?_⟩
      rw [List.append_nil]
      exact Code.leads_return (n := ⟨stack, env.values, calls⟩) fun _ => rfl
  | .ret (some value), env => by
      intro hcompile completion made hrun
      simp only [compile, bind_eq_ok, pure_eq_ok] at hcompile
      obtain ⟨valueCode, hvalueCode, hpair⟩ := hcompile
      obtain ⟨rfl, rfl⟩ := Prod.mk.inj hpair
      simp only [eval, bind_eq_some, pure_eq_some] at hrun
      obtain ⟨⟨result, others⟩, hresult, hpair⟩ := hrun
      obtain ⟨rfl, rfl⟩ := Prod.mk.inj hpair
      refine ⟨nofun, fun stack calls => ?_⟩
      refine (Expr.leads_compile env value hvalueCode hresult stack calls).append ?_
      exact Code.leads_return (n := ⟨stack, env.values, calls ++ others⟩) fun _ => by simp [exec]
  | .save name value, env => by
      intro hcompile completion made hrun
      simp only [compile, bind_eq_ok, pure_eq_ok] at hcompile
      obtain ⟨valueCode, hvalueCode, hpair⟩ := hcompile
      obtain ⟨rfl, rfl⟩ := Prod.mk.inj hpair
      simp only [eval, bind_eq_some, pure_eq_some] at hrun
      obtain ⟨⟨result, others⟩, hresult, hpair⟩ := hrun
      obtain ⟨rfl, rfl⟩ := Prod.mk.inj hpair
      rw [← Scope.shape_add env name result]
      refine Code.simulates_done (fun stack calls => ?_) _ _ rfl
      refine (Expr.leads_compile env value hvalueCode hresult stack calls).append ?_
      exact Code.leads_single fun _ => by simp [exec]
  | .update (.globalObject name) level edit, env => by
      intro hcompile
      cases hcompile
  | .update (.saved name) level edit, env => by
      intro hcompile completion made hrun
      cases level with
      | cons _ _ => simp [eval] at hrun
      | nil =>
          simp only [compile, bind_eq_ok, pure_eq_ok, Slots.resolve_eq_ok, Scope.slot?_shape]
            at hcompile
          obtain ⟨slot, hslot, editCode, hedit, hpair⟩ := hcompile
          obtain ⟨rfl, rfl⟩ := Prod.mk.inj hpair
          simp only [eval, bind_eq_some, pure_eq_some] at hrun
          obtain ⟨⟨final, others⟩, hfinal, hpair⟩ := hrun
          obtain ⟨rfl, rfl⟩ := Prod.mk.inj hpair
          obtain ⟨hshape, hleads⟩ := Edit.leads_compile hslot hedit hfinal
          rw [← hshape]
          exact Code.simulates_done hleads _ _ rfl
  | .choice branches, env => by
      intro hcompile
      simp only [compile, bind_eq_ok, pure_eq_ok] at hcompile
      obtain ⟨_, _, ⟨arms, last⟩, hbranches, hpair⟩ := hcompile
      obtain ⟨rfl, rfl⟩ := Prod.mk.inj hpair
      exact (simulates_compileBranches branches hbranches env rfl).1
  | .forEach source item body, env => by
      intro hcompile completion made hrun
      simp only [compile, bind_eq_ok, pure_eq_ok] at hcompile
      obtain ⟨sourceCode, hsourceCode, ⟨bodyCode, inner⟩, hbody, hpair⟩ := hcompile
      obtain ⟨rfl, rfl⟩ := Prod.mk.inj hpair
      simp only [eval, bind_eq_some] at hrun
      obtain ⟨⟨array, before⟩, hsource, items, hitems, length, hlength, hrounds⟩ := hrun
      obtain ⟨more, hmore, rfl⟩ := Execution.after_eq_some.mp hrounds
      obtain rfl := Datum.eq_array_of_items? hitems
      have hcount : items.reverse.length < 0x8000000000000000 := by
        rw [List.length_reverse]
        exact Datum.lt_of_ofInt?_count hlength
      have hround : ∀ start : Env, start.shape = env.shape.enter.add item () →
          bodyCode.Simulates start inner (evalBody start body) := by
        intro start hstart
        exact simulates_compileBody body start (hstart ▸ hbody)
      obtain ⟨hshape, hloop⟩ := Code.leads_loop hround (leave_compileBody hbody) items.reverse
        env completion more rfl hcount hmore
      refine ⟨hshape, fun stack calls => ?_⟩
      -- The loop takes the last item first, so its rounds are those of the reversed array.
      rw [List.reverse_reverse] at hloop
      rw [← List.append_assoc]
      exact (Expr.leads_compile env source hsourceCode hsource stack calls).append
        (hloop stack (calls ++ before))
  | .call function args, env => by
      intro hcompile completion made hrun
      simp only [compile, bind_eq_ok, pure_eq_ok] at hcompile
      obtain ⟨argsCode, hargs, hpair⟩ := hcompile
      obtain ⟨rfl, rfl⟩ := Prod.mk.inj hpair
      simp only [eval, bind_eq_some, pure_eq_some] at hrun
      obtain ⟨⟨values, others⟩, hvalues, hpair⟩ := hrun
      obtain ⟨rfl, rfl⟩ := Prod.mk.inj hpair
      refine Code.simulates_done (fun stack calls => ?_) _ _ rfl
      obtain ⟨hlength, hlist⟩ := Expr.leads_compileList env args hargs hvalues stack calls
      have hpop : Code.Leads [.popStack]
          ⟨.null :: stack, env.values, calls ++ others ++ [⟨function, values⟩]⟩
          (.behind ⟨stack, env.values, calls ++ others ++ [⟨function, values⟩]⟩) :=
        Code.leads_single fun _ => by simp [exec]
      rw [← hlength, ← List.append_assoc calls]
      exact hlist.append ((leads_invoke function values).append hpop)
  | .noop, env => by
      intro hcompile
      simp only [compile, Except.ok.injEq, Prod.mk.injEq] at hcompile
      obtain ⟨rfl, rfl⟩ := hcompile
      refine Code.simulates_done fun stack calls => ?_
      rw [List.append_nil]
      exact Code.leads_single fun _ => rfl
  | .setKey _ _ _, env | .deleteKey _ _, env | .pushAtKey _ _ _, env => by
      intro _ completion made hrun
      simp [eval] at hrun
termination_by structural s => s

theorem simulates_compileBody : (body : List Statement) → (env : Env) → {after : Slots} →
    {code : Code} → compileBody env.shape body = .ok (code, after) →
    code.Simulates env after (evalBody env body)
  | [], env => by
      intro hcompile
      simp only [compileBody, Except.ok.injEq, Prod.mk.injEq] at hcompile
      obtain ⟨rfl, rfl⟩ := hcompile
      exact Code.simulates_nil env
  | s :: rest, env => by
      intro hcompile
      simp only [compileBody, bind_eq_ok, pure_eq_ok] at hcompile
      obtain ⟨⟨first, middle⟩, hfirst, ⟨more, final⟩, hmore, hpair⟩ := hcompile
      obtain ⟨rfl, rfl⟩ := Prod.mk.inj hpair
      refine (simulates_compile s env hfirst).andThen fun next hnext => ?_
      exact simulates_compileBody rest next (hnext ▸ hmore)
termination_by structural body => body

/-- From the start of the arms the choice is made; from the end of an arm only what is run last is
left to run. -/
theorem simulates_compileBranches : (branches : List (Guard × List Statement)) →
    {slots : Slots} → {arms last : Code} → compileBranches slots branches = .ok (arms, last) →
    ∀ env : Env, env.shape = slots →
      (arms ++ last).Simulates env slots (evalBranches env branches) ∧
        last.Simulates env slots (evalLast env branches)
  | [] => by
      intro hcompile env henv
      simp only [compileBranches, Except.ok.injEq, Prod.mk.injEq] at hcompile
      obtain ⟨rfl, rfl⟩ := hcompile
      subst henv
      have h : Code.Simulates [.noop] env env.shape (some (.done env, [])) := by
        refine Code.simulates_done fun stack calls => ?_
        rw [List.append_nil]
        exact Code.leads_single fun _ => rfl
      exact ⟨h, h⟩
  | (.lastly, body) :: _ => by
      intro hcompile env henv
      simp only [compileBranches, bind_eq_ok, pure_eq_ok] at hcompile
      obtain ⟨⟨code, inner⟩, hbody, hpair⟩ := hcompile
      obtain ⟨rfl, rfl⟩ := Prod.mk.inj hpair
      subst henv
      have h := (simulates_compileBody body env.enter hbody).leave (leave_compileBody hbody)
      exact ⟨h, h⟩
  | (.otherwise, body) :: rest => by
      intro hcompile env henv
      simp only [compileBranches, Guard.compile, bind_eq_ok, pure_eq_ok] at hcompile
      obtain ⟨⟨code, inner⟩, hbody, _, htest, ⟨others, final⟩, hrest, hpair⟩ := hcompile
      obtain ⟨rfl, rfl⟩ := Prod.mk.inj hpair
      obtain rfl := Except.ok.inj htest
      subst henv
      have harm := (simulates_compileBody body env.enter hbody).leave (leave_compileBody hbody)
      have hlast := simulates_compileBranches rest hrest
      refine ⟨?_, (hlast env rfl).2⟩
      rw [List.nil_append, List.append_assoc, List.cons_append]
      exact harm.andThen fun middle hmiddle => (hlast middle hmiddle).2.jumpOver others
  | (.when condition, body) :: rest => by
      intro hcompile env henv
      simp only [compileBranches, bind_eq_ok, pure_eq_ok] at hcompile
      obtain ⟨⟨code, inner⟩, hbody, test, htest, ⟨others, final⟩, hrest, hpair⟩ := hcompile
      obtain ⟨rfl, rfl⟩ := Prod.mk.inj hpair
      subst henv
      have harm := (simulates_compileBody body env.enter hbody).leave (leave_compileBody hbody)
      have hlast := simulates_compileBranches rest hrest
      refine ⟨?_, (hlast env rfl).2⟩
      intro completion made hrun
      simp only [evalBranches, bind_eq_some] at hrun
      obtain ⟨⟨value, before⟩, hvalue, holds, hholds, hchosen⟩ := hrun
      cases holds with
      | true =>
          have hbranch := harm.andThen fun middle hmiddle => (hlast middle hmiddle).2.jumpOver others
          refine Code.Simulates.after (fun stack calls ending h => ?_) hbranch _ _ hchosen
          rw [List.append_assoc, List.append_assoc]
          exact (Guard.leads_body htest hvalue hholds stack calls).append h
      | false =>
          refine Code.Simulates.after (fun stack calls ending h => ?_) (hlast env rfl).1 _ _ hchosen
          rw [List.append_assoc, List.cons_append]
          exact Guard.leads_over htest hvalue hholds h
termination_by structural branches => branches
end

end Statement

end StoredProcedure
