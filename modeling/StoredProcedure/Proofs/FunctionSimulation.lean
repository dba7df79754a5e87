import StoredProcedure.Proofs.StatementSimulation

namespace StoredProcedure

open Instruction (exec)

/-- The value that a function returned, if it did. -/
def Completion.value? : Completion → Option Datum
  | .done _ => none
  | .returned value => some value

namespace Function

theorem leads_inputCheck (input : Input) {slot : Nat} {m : Memory} (h : slot < m.heap.length) :
    (inputCheck input slot).Leads m (.behind m) := by
  refine Code.Leads.cons (n := m.push (.bool true)) (fun _ => by simp [exec, h]) ?_
  have hskip : Code.Leads (.skipIf 1 :: ([.raise "invalid input"] ++ [])) (m.push (.bool true))
      (.behind m) := Code.Leads.over _ (fun _ => rfl) (Code.leads_nil m)
  exact hskip

theorem leads_prologue (inputs : List Input) :
    ∀ (slots : Slots) (m : Memory), slots.nextSlot + inputs.length ≤ m.heap.length →
      (prologue slots inputs).1.Leads m (.behind m) := by
  induction inputs with
  | nil =>
      intro slots m _
      exact Code.leads_nil m
  | cons input rest ih =>
      intro slots m hlength
      rw [List.length_cons] at hlength
      have hslot : slots.nextSlot < m.heap.length := by omega
      have hrest : (slots.add input.name ()).nextSlot + rest.length ≤ m.heap.length := by
        rw [Scope.nextSlot_add]
        omega
      exact (leads_inputCheck input hslot).append (ih _ m hrest)

theorem shape_declareInputs (inputs : List Input) :
    ∀ (args : List Datum) (env : Env), args.length = inputs.length →
      let final := (inputs.zip args).foldl (fun env input => env.add input.1.name input.2) env
      final.shape = (prologue env.shape inputs).2 ∧ final.values = env.values ++ args := by
  induction inputs with
  | nil =>
      intro args env hlength
      obtain rfl := List.eq_nil_of_length_eq_zero hlength
      exact ⟨rfl, (List.append_nil _).symm⟩
  | cons input rest ih =>
      intro args env hlength
      cases args with
      | nil => cases hlength
      | cons value others =>
          obtain ⟨hshape, hvalues⟩ := ih others (env.add input.name value) (Nat.succ.inj hlength)
          refine ⟨hshape, ?_⟩
          rw [Scope.values_add, List.append_assoc] at hvalues
          exact hvalues

theorem shape_initialEnv {inputs : List Input} {args : List Datum}
    (h : args.length = inputs.length) :
    (initialEnv inputs args).shape = (prologue Scope.empty inputs).2 ∧
      (initialEnv inputs args).values = args :=
  shape_declareInputs inputs args Scope.empty h

/-- From the inputs, the code of a function leads to what the function does with them. -/
theorem leads_compile {f : Function} {code : Code} {args : List Datum} {completion : Completion}
    {made : List Call} (hcompile : f.compile = .ok code) (hargs : args.length = f.inputs.length)
    (heval : f.eval args = some (completion, made)) :
    code.Leads ⟨[], args, []⟩ (completion.ending [] made) := by
  obtain ⟨hshape, hvalues⟩ := shape_initialEnv hargs
  simp only [compile, bind_eq_ok, pure_eq_ok] at hcompile
  obtain ⟨⟨body, after⟩, hbody, rfl⟩ := hcompile
  have hchecks : (prologue Scope.empty f.inputs).1.Leads ⟨[], args, []⟩
      (.behind ⟨[], args, []⟩) := by
    refine leads_prologue f.inputs Scope.empty _ ?_
    rw [hargs]
    exact Nat.le_of_eq (Nat.zero_add _)
  rw [← hshape] at hbody
  have hrun := (Statement.simulates_compileBody f.body _ hbody _ _ heval).2 [] []
  rw [hvalues, List.nil_append] at hrun
  exact Code.Leads.cons (fun _ => by simp [exec, hargs]) (hchecks.append hrun)

/-- Whenever executing a function comes to an end, so does running its code, with the same returned
value and the same calls. If nothing is returned, no operand is left, and the variables of the
function are what is on the heap. -/
theorem exists_run_compile {f : Function} {code : Code} {args : List Datum}
    {completion : Completion} {made : List Call} (hcompile : f.compile = .ok code)
    (hargs : args.length = f.inputs.length) (heval : f.eval args = some (completion, made)) :
    ∃ (steps : Nat) (outcome : Outcome),
      Machine.run code steps (.start args) = some outcome ∧
        outcome.returned = completion.value? ∧ outcome.raised = none ∧
        outcome.memory.calls = made ∧
        ∀ env, completion = .done env → outcome.memory = ⟨[], env.values, made⟩ := by
  have hcontains : code.Contains 0 code := fun i _ => by rw [Nat.zero_add]
  obtain ⟨last, hsteps, hlast⟩ := leads_compile hcompile hargs heval code 0 hcontains
  cases completion with
  | done env =>
      obtain rfl : last = ⟨0 + code.length, [], env.values, made⟩ := hlast
      have hstop : Machine.step code ⟨0 + code.length, [], env.values, made⟩ =
          some (.stopped ⟨none, none, [], env.values, made⟩) := by
        rw [Machine.step, Nat.zero_add, List.getElem?_eq_none (Nat.le_refl _)]
      obtain ⟨steps, hrun⟩ := Machine.exists_run_of_steps hsteps hstop
      refine ⟨steps, _, hrun, rfl, rfl, rfl, fun other hother => ?_⟩
      rw [Completion.done.inj hother]
  | returned value =>
      obtain ⟨memory, hstop, hcalls⟩ := hlast
      obtain ⟨steps, hrun⟩ := Machine.exists_run_of_steps hsteps hstop
      refine ⟨steps, _, hrun, rfl, rfl, hcalls, fun env henv => ?_⟩
      cases henv

/-- Sums the rows above two and collects the others, from the last row on. The branch for the others
hides the total behind a variable of its own. -/
def sumOfLarge : Function where
  inputs := [⟨"rows", .null⟩]
  body :=
    [.save "total" (.int 0), .save "small" (.array []),
      .forEach (.saved "rows") "row"
        [.save "limit" (.int 2),
          .choice
            [(.when (.comparison .greater (.saved "row") (.saved "limit")),
                [.update (.saved "total") []
                  (.set (.arithmetic .add (.saved "total") (.saved "row")))]),
              (.otherwise,
                [.save "total" (.saved "row"),
                  .update (.saved "small") [] (.push [.saved "total"])]),
              (.lastly, [.call "seen" [.saved "row"]])]],
      .choice
        [(.when (.comparison .greater (.saved "total") (.int 6)), [.ret (some (.saved "small"))])],
      .ret (some (.saved "total"))]

theorem exists_run_compile_sumOfLarge :
    let row n : Datum := .int (.ofInt64 n)
    ∃ (code : Code) (steps : Nat) (outcome : Outcome),
      sumOfLarge.compile = .ok code ∧
        Machine.run code steps (.start [.array [row 4, row 1, row 3]]) = some outcome ∧
        outcome.returned = some (.array [row 1]) ∧
        outcome.memory.calls = [⟨"seen", [row 3]⟩, ⟨"seen", [row 1]⟩, ⟨"seen", [row 4]⟩] := by
  intro row
  obtain ⟨code, hcode⟩ : ∃ code, sumOfLarge.compile = .ok code := ⟨_, rfl⟩
  have heval : sumOfLarge.eval [.array [row 4, row 1, row 3]] =
      some (.returned (.array [row 1]),
        [⟨"seen", [row 3]⟩, ⟨"seen", [row 1]⟩, ⟨"seen", [row 4]⟩]) := rfl
  obtain ⟨steps, outcome, hrun, hreturned, -, hcalls, -⟩ := exists_run_compile hcode rfl heval
  exact ⟨code, steps, outcome, hcode, hrun, hreturned, hcalls⟩

end Function

end StoredProcedure
