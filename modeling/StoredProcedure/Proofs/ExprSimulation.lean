import StoredProcedure.Proofs.CodeRun
import StoredProcedure.Proofs.CodeScope
import StoredProcedure.Proofs.Evaluation

namespace StoredProcedure

open Instruction (exec)

variable {heap stack : List Datum} {calls : List Call}

theorem not_decide_le (a b : Int) : (!decide (a ≤ b)) = decide (a > b) := by
  rw [Bool.eq_iff_iff]
  simp

theorem not_decide_lt (a b : Int) : (!decide (a < b)) = decide (a ≥ b) := by
  rw [Bool.eq_iff_iff]
  simp

theorem Comparison.leads_code {left right : Datum} {result : Bool} {sign : Comparison}
    (h : sign.holds left right = some result) :
    sign.code.Leads ⟨right :: left :: stack, heap, calls⟩
      (.behind ⟨.bool result :: stack, heap, calls⟩) := by
  cases sign with
  | equal =>
      obtain rfl := Option.some.inj h
      exact Code.leads_single fun _ => by simp [exec, Datum.same_comm]
  | notEqual =>
      obtain rfl := Option.some.inj h
      refine Code.Leads.cons (n := ⟨.bool (right.same left) :: stack, heap, calls⟩)
        (fun _ => by simp [exec]) ?_
      exact Code.leads_single fun _ => by simp [exec, Datum.same_comm]
  | less =>
      simp only [holds, bind_eq_some, pure_eq_some] at h
      obtain ⟨a, ha, b, hb, rfl⟩ := h
      exact Code.leads_single fun _ => by simp [exec, ha, hb]
  | greater =>
      simp only [holds, bind_eq_some, pure_eq_some] at h
      obtain ⟨a, ha, b, hb, rfl⟩ := h
      refine Code.Leads.cons (n := ⟨.bool (decide (a ≤ b)) :: stack, heap, calls⟩)
        (fun _ => by simp [exec, ha, hb]) ?_
      exact Code.leads_single fun _ => by simp [exec, not_decide_le]
  | lessEqual =>
      simp only [holds, bind_eq_some, pure_eq_some] at h
      obtain ⟨a, ha, b, hb, rfl⟩ := h
      exact Code.leads_single fun _ => by simp [exec, ha, hb]
  | greaterEqual =>
      simp only [holds, bind_eq_some, pure_eq_some] at h
      obtain ⟨a, ha, b, hb, rfl⟩ := h
      refine Code.Leads.cons (n := ⟨.bool (decide (a < b)) :: stack, heap, calls⟩)
        (fun _ => by simp [exec, ha, hb]) ?_
      exact Code.leads_single fun _ => by simp [exec, not_decide_lt]

theorem Logic.leads_instruction {left right : Datum} {a b : Bool} (sign : Logic)
    (ha : left.bool? = some a) (hb : right.bool? = some b) :
    Code.Leads [sign.instruction] ⟨right :: left :: stack, heap, calls⟩
      (.behind ⟨.bool (sign.apply a b) :: stack, heap, calls⟩) := by
  cases sign with
  | and => exact Code.leads_single fun _ => by simp [instruction, exec, ha, hb, apply]
  | or => exact Code.leads_single fun _ => by simp [instruction, exec, ha, hb, apply]

theorem leads_add {left right sum : Datum} (h : left.add right = some sum) :
    Code.Leads [.add] ⟨right :: left :: stack, heap, calls⟩
      (.behind ⟨sum :: stack, heap, calls⟩) := by
  simp only [Datum.add, bind_eq_some] at h
  obtain ⟨a, ha, b, hb, hsum⟩ := h
  exact Code.leads_single fun _ => by simp [exec, ha, hb, hsum]

theorem leads_negate {value : Datum} {b : Bool} (h : value.bool? = some b) :
    Code.Leads [.negate] ⟨value :: stack, heap, calls⟩
      (.behind ⟨.bool (!b) :: stack, heap, calls⟩) :=
  Code.leads_single fun _ => by simp [exec, h]

theorem Code.Leads.operands {left right : Code} {a b : Datum} {before after : List Call}
    (hleft : left.Leads ⟨stack, heap, calls⟩ (.behind ⟨a :: stack, heap, calls ++ before⟩))
    (hright : right.Leads ⟨a :: stack, heap, calls ++ before⟩
      (.behind ⟨b :: a :: stack, heap, calls ++ before ++ after⟩)) :
    (left ++ right).Leads ⟨stack, heap, calls⟩
      (.behind ⟨b :: a :: stack, heap, calls ++ (before ++ after)⟩) := by
  rw [← List.append_assoc calls]
  exact hleft.append hright

/-- The arguments of a call are on top of the stack, the last one first. -/
theorem leads_invoke (function : String) (args : List Datum) :
    Code.Leads [.invoke function args.length] ⟨args.reverse ++ stack, heap, calls⟩
      (.behind ⟨.null :: stack, heap, calls ++ [⟨function, args⟩]⟩) := by
  have htake : (args.reverse ++ stack).take args.length = args.reverse := by
    rw [← args.length_reverse, List.take_left]
  have hdrop : (args.reverse ++ stack).drop args.length = stack := by
    rw [← args.length_reverse, List.drop_left]
  exact Code.leads_single fun _ => by simp [exec, htake, hdrop]

namespace Expr

mutual
theorem leads_compile (env : Env) : (e : Expr) → {code : Code} → {value : Datum} →
    {made : List Call} → e.compile env.shape = .ok code → e.eval env = some (value, made) →
    ∀ (stack : List Datum) (calls : List Call),
      code.Leads ⟨stack, env.values, calls⟩
        (.behind ⟨value :: stack, env.values, calls ++ made⟩)
  | .bool _ | .int _ | .double _ | .string _ | .nothing => by
      intro hcompile heval stack calls
      simp only [compile, eval, Except.ok.injEq, Option.some.injEq, Prod.mk.injEq] at hcompile heval
      obtain ⟨rfl, rfl⟩ := heval
      subst hcompile
      exact Code.leads_single fun _ => by simp [exec]
  | .comparison sign left right => by
      intro hcompile heval stack calls
      simp only [compile, bind_eq_ok, pure_eq_ok] at hcompile
      obtain ⟨leftCode, hleft, rightCode, hright, rfl⟩ := hcompile
      simp only [eval, bind_eq_some, pure_eq_some] at heval
      obtain ⟨⟨a, before⟩, ha, ⟨b, after⟩, hb, result, hholds, hpair⟩ := heval
      obtain ⟨rfl, rfl⟩ := Prod.mk.inj hpair
      exact ((leads_compile env left hleft ha stack calls).operands
        (leads_compile env right hright hb _ _)).append (Comparison.leads_code hholds)
  | .arithmetic sign left right => by
      intro hcompile heval stack calls
      simp only [compile, bind_eq_ok, pure_eq_ok] at hcompile
      obtain ⟨leftCode, hleft, rightCode, hright, rfl⟩ := hcompile
      cases sign with
      | add =>
          simp only [eval, bind_eq_some, pure_eq_some] at heval
          obtain ⟨⟨a, before⟩, ha, ⟨b, after⟩, hb, sum, hsum, hpair⟩ := heval
          obtain ⟨rfl, rfl⟩ := Prod.mk.inj hpair
          exact ((leads_compile env left hleft ha stack calls).operands
            (leads_compile env right hright hb _ _)).append (leads_add hsum)
      | _ => simp [eval] at heval
  | .logic sign left right => by
      intro hcompile heval stack calls
      simp only [compile, bind_eq_ok, pure_eq_ok] at hcompile
      obtain ⟨leftCode, hleft, rightCode, hright, rfl⟩ := hcompile
      simp only [eval, bind_eq_some, pure_eq_some] at heval
      obtain ⟨⟨a, before⟩, ha, ⟨b, after⟩, hb, x, hx, y, hy, hpair⟩ := heval
      obtain ⟨rfl, rfl⟩ := Prod.mk.inj hpair
      exact ((leads_compile env left hleft ha stack calls).operands
        (leads_compile env right hright hb _ _)).append (sign.leads_instruction hx hy)
  | .negation operand => by
      intro hcompile heval stack calls
      simp only [compile, bind_eq_ok, pure_eq_ok] at hcompile
      obtain ⟨operandCode, hoperand, rfl⟩ := hcompile
      simp only [eval, bind_eq_some, pure_eq_some] at heval
      obtain ⟨⟨a, before⟩, ha, x, hx, hpair⟩ := heval
      obtain ⟨rfl, rfl⟩ := Prod.mk.inj hpair
      exact (leads_compile env operand hoperand ha stack calls).append (leads_negate hx)
  | .saved name => by
      intro hcompile heval stack calls
      simp only [compile, bind_eq_ok, pure_eq_ok, Slots.resolve_eq_ok, Scope.slot?_shape] at hcompile
      obtain ⟨slot, hslot, rfl⟩ := hcompile
      simp only [eval, bind_eq_some, pure_eq_some] at heval
      obtain ⟨a, ha, hpair⟩ := heval
      obtain ⟨rfl, rfl⟩ := Prod.mk.inj hpair
      rw [← Scope.getElem?_values hslot] at ha
      exact Code.leads_single fun _ => by simp [exec, ha]
  | .selection root level => by
      intro hcompile heval stack calls
      cases level with
      | nil =>
          simp only [compile, bind_eq_ok, List.isEmpty_nil, if_true, pure_eq_ok] at hcompile
          obtain ⟨rootCode, hroot, rfl⟩ := hcompile
          exact leads_compile env root hroot heval stack calls
      | cons _ _ => simp [eval] at heval
  | .array values => by
      intro hcompile heval stack calls
      simp only [compile, bind_eq_ok, pure_eq_ok] at hcompile
      obtain ⟨pushes, hpushes, rfl⟩ := hcompile
      simp only [eval, bind_eq_some, pure_eq_some] at heval
      obtain ⟨⟨items, before⟩, hitems, hpair⟩ := heval
      obtain ⟨rfl, rfl⟩ := Prod.mk.inj hpair
      refine Code.Leads.cons (fun _ => by rw [exec, Memory.push_mk]; rfl) ?_
      exact leads_compilePushes env values hpushes hitems [] stack calls
  | .call function args => by
      intro hcompile heval stack calls
      simp only [compile, bind_eq_ok, pure_eq_ok] at hcompile
      obtain ⟨argsCode, hargs, rfl⟩ := hcompile
      simp only [eval, bind_eq_some, pure_eq_some] at heval
      obtain ⟨⟨values, before⟩, hvalues, hpair⟩ := heval
      obtain ⟨rfl, rfl⟩ := Prod.mk.inj hpair
      obtain ⟨hlength, hlist⟩ := leads_compileList env args hargs hvalues stack calls
      have h := hlist.append (leads_invoke function values)
      rwa [hlength, List.append_assoc] at h
  | .object _ | .typeOf _ | .hasType _ _ | .fieldExists _ _ | .keys _ | .role _ _
  | .globalObject _ | .wholeObject _ | .keyOfObject _ _ | .keyExists _ _ | .keysOfObject _ => by
      intro _ heval
      simp [eval] at heval
termination_by structural e => e

theorem leads_compileList (env : Env) : (es : List Expr) → {code : Code} → {values : List Datum} →
    {made : List Call} → compileList env.shape es = .ok code →
    evalList env es = some (values, made) → ∀ (stack : List Datum) (calls : List Call),
      values.length = es.length ∧
        code.Leads ⟨stack, env.values, calls⟩
          (.behind ⟨values.reverse ++ stack, env.values, calls ++ made⟩)
  | [] => by
      intro hcompile heval stack calls
      simp only [compileList, evalList, Except.ok.injEq, Option.some.injEq, Prod.mk.injEq]
        at hcompile heval
      obtain ⟨rfl, rfl⟩ := heval
      subst hcompile
      refine ⟨rfl, ?_⟩
      rw [List.append_nil]
      exact Code.leads_nil _
  | e :: rest => by
      intro hcompile heval stack calls
      simp only [compileList, bind_eq_ok, pure_eq_ok] at hcompile
      obtain ⟨first, hfirst, more, hmore, rfl⟩ := hcompile
      simp only [evalList, bind_eq_some, pure_eq_some] at heval
      obtain ⟨⟨a, before⟩, ha, ⟨others, after⟩, hothers, hpair⟩ := heval
      obtain ⟨rfl, rfl⟩ := Prod.mk.inj hpair
      obtain ⟨hlength, hlist⟩ := leads_compileList env rest hmore hothers (a :: stack) (calls ++ before)
      refine ⟨by rw [List.length_cons, List.length_cons, hlength], ?_⟩
      have h := (leads_compile env e hfirst ha stack calls).append hlist
      rwa [List.reverse_cons, List.append_assoc, List.singleton_append, ← List.append_assoc calls]
termination_by structural es => es

theorem leads_compilePushes (env : Env) : (es : List Expr) → {code : Code} →
    {values : List Datum} → {made : List Call} → compilePushes env.shape es = .ok code →
    evalList env es = some (values, made) →
    ∀ (items : List Datum) (stack : List Datum) (calls : List Call),
      code.Leads ⟨.array items :: stack, env.values, calls⟩
        (.behind ⟨.array (items ++ values) :: stack, env.values, calls ++ made⟩)
  | [] => by
      intro hcompile heval items stack calls
      simp only [compilePushes, evalList, Except.ok.injEq, Option.some.injEq, Prod.mk.injEq]
        at hcompile heval
      obtain ⟨rfl, rfl⟩ := heval
      subst hcompile
      rw [List.append_nil, List.append_nil]
      exact Code.leads_nil _
  | e :: rest => by
      intro hcompile heval items stack calls
      simp only [compilePushes, bind_eq_ok, pure_eq_ok] at hcompile
      obtain ⟨first, hfirst, more, hmore, rfl⟩ := hcompile
      simp only [evalList, bind_eq_some, pure_eq_some] at heval
      obtain ⟨⟨a, before⟩, ha, ⟨others, after⟩, hothers, hpair⟩ := heval
      obtain ⟨rfl, rfl⟩ := Prod.mk.inj hpair
      have hrest := leads_compilePushes env rest hmore hothers (items ++ [a]) stack (calls ++ before)
      have hpush : Code.Leads (.arrayPush :: more)
          ⟨a :: .array items :: stack, env.values, calls ++ before⟩ _ :=
        Code.Leads.cons (fun _ => by simp [exec]) hrest
      have h := (leads_compile env e hfirst ha (.array items :: stack) calls).append hpush
      rwa [List.append_assoc, List.singleton_append, List.append_assoc calls] at h
termination_by structural es => es
end

end Expr

end StoredProcedure
