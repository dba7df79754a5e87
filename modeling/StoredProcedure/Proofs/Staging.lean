import StoredProcedure.Proofs.ByteOrder
import StoredProcedure.Proofs.ClosedWorld
import StoredProcedure.Proofs.Faults

namespace StoredProcedure

namespace NameMap

variable {ε α β : Type} {m : NameMap α} {name : String} {value : α}

theorem get?_eq_some_iff : m.get? name = some value ↔ (name, value) ∈ m.entries := by
  have hentries : ∀ entries : List (String × α), (entries.map Prod.fst).Pairwise (· < ·) →
      (find? name entries = some value ↔ (name, value) ∈ entries) := by
    intro entries hascending
    induction entries with
    | nil => simp [find?]
    | cons entry rest ih =>
        obtain ⟨hleast, hrest⟩ := List.pairwise_cons.mp hascending
        rw [find?, List.mem_cons, ← ih hrest]
        split
        · rename_i hname
          constructor
          · intro h
            exact .inl (Prod.ext hname.symm (Option.some.inj h).symm)
          · rintro (h | h)
            · rw [← h]
            · have hmem := List.mem_map_of_mem (f := Prod.fst) ((ih hrest).mp h)
              exact absurd (hleast name hmem) (hname ▸ String.lt_irrefl name)
        · rename_i hname
          constructor
          · exact .inr
          · rintro (h | h)
            · exact absurd (congrArg Prod.fst h).symm hname
            · exact h
  exact hentries m.entries m.ascending

theorem exists_get?_iff : (∃ value, m.get? name = some value) ↔ name ∈ m.names := by
  simp only [get?_eq_some_iff, names, List.mem_map]
  constructor
  · rintro ⟨value, hvalue⟩
    exact ⟨(name, value), hvalue, rfl⟩
  · rintro ⟨entry, hentry, rfl⟩
    exact ⟨entry.2, hentry⟩

theorem traverseEntries_cons_eq_error {f : String → α → Except ε β} {entry : String × α}
    {rest : List (String × α)} {e : ε} :
    traverseEntries f (entry :: rest) = .error e ↔
      f entry.1 entry.2 = .error e ∨
        (∃ b, f entry.1 entry.2 = .ok b) ∧ traverseEntries f rest = .error e := by
  simp only [traverseEntries, bind_eq_error, pure_ne_error, and_false, exists_false, or_false,
    exists_and_right]

/-- A refused traversal is refused for the entry with the least name among those that are. -/
theorem exists_of_traverse_eq_error {f : String → α → Except ε β} {e : ε}
    (h : m.traverse f = .error e) :
    ∃ entry ∈ m.entries, f entry.1 entry.2 = .error e ∧
      ∀ other ∈ m.entries, (∃ e', f other.1 other.2 = .error e') → ¬ other.1 < entry.1 := by
  have hentries : ∀ entries : List (String × α), (entries.map Prod.fst).Pairwise (· < ·) →
      traverseEntries f entries = .error e →
      ∃ entry ∈ entries, f entry.1 entry.2 = .error e ∧
        ∀ other ∈ entries, (∃ e', f other.1 other.2 = .error e') → ¬ other.1 < entry.1 := by
    intro entries hascending h
    induction entries with
    | nil => cases h
    | cons first rest ih =>
        obtain ⟨hleast, hrest⟩ := List.pairwise_cons.mp hascending
        rcases traverseEntries_cons_eq_error.mp h with hfirst | ⟨⟨b, hfirst⟩, hfails⟩
        · refine ⟨first, List.mem_cons_self, hfirst, ?_⟩
          intro other hother _ hlt
          rcases List.mem_cons.mp hother with rfl | hother
          · exact String.lt_irrefl _ hlt
          · exact String.lt_asymm hlt (hleast _ (List.mem_map_of_mem hother))
        · obtain ⟨entry, hentry, herror, hothers⟩ := ih hrest hfails
          refine ⟨entry, List.mem_cons_of_mem _ hentry, herror, ?_⟩
          rw [List.forall_mem_cons]
          refine ⟨?_, hothers⟩
          rintro ⟨e', he'⟩
          rw [hfirst] at he'
          cases he'
  simp only [traverse, bind_eq_error, pure_ne_error, and_false, exists_false, or_false] at h
  exact hentries m.entries m.ascending h

end NameMap

/-- What becomes of a map whose values are treated one by one. Either a value is refused, and then
the failure is that of the least name with such a value, in the order of the bytes of names; or each
name has the result of its value. -/
inductive Piecewise {α β : Type} (treat : α → Except Fault β) (m : NameMap α) :
    Except Failure (NameMap β) → Prop
  | refused {name : String} {value : α} {fault : Fault} (hvalue : m.get? name = some value)
      (hfault : treat value = .error fault)
      (hleast : ∀ other value' fault', m.get? other = some value' → treat value' = .error fault' →
        name.toUTF8.toList ≤ other.toUTF8.toList) :
      Piecewise treat m (.error ⟨fault.kind, name ++ ": " ++ fault.message, some name⟩)
  | done {results : NameMap β} (hnames : results.names = m.names)
      (hresults : ∀ name value, m.get? name = some value →
        ∃ result, treat value = .ok result ∧ results.get? name = some result) :
      Piecewise treat m (.ok results)

namespace Piecewise

variable {α β : Type} {treat : α → Except Fault β} {m : NameMap α}

theorem traverse {f : String → α → Except Failure β}
    (hok : ∀ name value result, f name value = .ok result ↔ treat value = .ok result)
    (herror : ∀ name value failure, f name value = .error failure ↔
      ∃ fault, treat value = .error fault ∧ failure = (Failure.ofFault fault).inFunction name) :
    Piecewise treat m (m.traverse f) := by
  cases h : m.traverse f with
  | ok results =>
      have hresults := NameMap.traverse_eq_ok_iff.mp h
      refine .done (NameMap.map_fst_of_results hresults) fun name value hvalue => ?_
      obtain ⟨⟨name', result⟩, hentry, rfl, hresult⟩ :=
        exists_of_forall₂ hresults.flip _ (NameMap.get?_eq_some_iff.mp hvalue)
      exact ⟨result, (hok _ _ _).mp hresult, NameMap.get?_eq_some_iff.mpr hentry⟩
  | error failure =>
      obtain ⟨⟨name, value⟩, hentry, hfailure, hleast⟩ := NameMap.exists_of_traverse_eq_error h
      obtain ⟨fault, hfault, rfl⟩ := (herror _ _ _).mp hfailure
      refine .refused (NameMap.get?_eq_some_iff.mpr hentry) hfault ?_
      intro other value' fault' hother hfault' hlt
      exact hleast (other, value') (NameMap.get?_eq_some_iff.mp hother)
        ⟨_, (herror _ _ _).mpr ⟨fault', hfault', rfl⟩⟩ (Text.lt_iff_bytes_lt.mpr hlt)

theorem andThen {γ : Type} {next : β → Except Fault γ} {middle : NameMap β}
    {outcome : Except Failure (NameMap γ)} (h : Piecewise treat m (.ok middle))
    (hnext : Piecewise next middle outcome) :
    Piecewise (fun value => treat value >>= next) m outcome := by
  cases h with
  | done hnames hresults =>
      have hmiddle : ∀ name value result, m.get? name = some value →
          middle.get? name = some result → treat value = .ok result := by
        intro name value result hvalue hresult
        obtain ⟨other, htreat, hother⟩ := hresults name value hvalue
        rw [hresult] at hother
        rw [htreat, Option.some.inj hother]
      cases hnext with
      | @refused name result fault hresult hfault hleast =>
          have hname := NameMap.exists_get?_iff.mp ⟨result, hresult⟩
          rw [hnames] at hname
          obtain ⟨value, hvalue⟩ := NameMap.exists_get?_iff.mpr hname
          have htreat := hmiddle name value result hvalue hresult
          refine .refused hvalue (bind_eq_error.mpr (.inr ⟨result, htreat, hfault⟩)) ?_
          intro other value' fault' hvalue' hfault'
          obtain ⟨result', htreat', hresult'⟩ := hresults other value' hvalue'
          rw [htreat'] at hfault'
          exact hleast other result' fault' hresult' hfault'
      | done hnames' hresults' =>
          refine .done (hnames'.trans hnames) fun name value hvalue => ?_
          obtain ⟨result, htreat, hresult⟩ := hresults name value hvalue
          obtain ⟨final, hfinal, hget⟩ := hresults' name result hresult
          exact ⟨final, bind_eq_ok.mpr ⟨result, htreat, hfinal⟩, hget⟩

theorem get?_eq {results : NameMap β} (h : Piecewise treat m (.ok results)) (name : String) :
    results.get? name = (m.get? name).bind fun value => (treat value).toOption := by
  cases h with
  | done hnames hresults =>
      cases hvalue : m.get? name with
      | none =>
          rw [Option.bind_none, Option.eq_none_iff_forall_ne_some]
          intro result hresult
          have hname := NameMap.exists_get?_iff.mp ⟨result, hresult⟩
          rw [hnames] at hname
          obtain ⟨value, hvalue'⟩ := NameMap.exists_get?_iff.mpr hname
          rw [hvalue] at hvalue'
          cases hvalue'
      | some value =>
          obtain ⟨result, htreat, hresult⟩ := hresults name value hvalue
          rw [hresult, Option.bind_some, htreat]
          rfl

end Piecewise

namespace Program

variable (p : Program)

theorem lowerFunction_eq_error {name : String} {f : Function} {failure : Failure} :
    p.lowerFunction name f = .error failure ↔
      ∃ fault, f.lower p.declared = .error fault ∧
        failure = (Failure.ofFault fault).inFunction name := by
  rw [lowerFunction]
  cases f.lower p.declared <;> simp [eq_comm]

theorem compileFunction_eq_error {name : String} {f : Function} {failure : Failure} :
    compileFunction name f = .error failure ↔
      ∃ fault, f.compile = .error fault ∧
        failure = (Failure.ofFault fault).inFunction name := by
  rw [compileFunction]
  cases f.compile <;> simp [eq_comm]

theorem analyzeFunction_eq_error {name : String} {f : Function} {failure : Failure} :
    analyzeFunction name f = .error failure ↔
      ∃ fault, f.analyze = .error fault ∧
        failure = (Failure.ofFault fault).inFunction name := by
  rw [analyzeFunction]
  cases f.analyze <;> simp [eq_comm]

theorem lower_eq : functions <$> p.lower = p.functions.traverse p.lowerFunction := by
  rw [lower]
  cases p.functions.traverse p.lowerFunction <;> rfl

theorem piecewise_lower :
    Piecewise (Function.lower p.declared) p.functions (functions <$> p.lower) := by
  rw [lower_eq]
  exact .traverse (fun _ _ _ => lowerFunction_eq_ok) fun _ _ _ => lowerFunction_eq_error p

variable {p} {p' : Program}

theorem compile_of_lower (h : p.lower = .ok p') :
    Bundle.procedures <$> p.compile = p'.functions.traverse compileFunction := by
  rw [compile, h]
  change _ <$> p'.compileLowered = _
  rw [compileLowered]
  cases p'.functions.traverse compileFunction <;> rfl

theorem piecewise_compile (h : p.lower = .ok p') :
    Piecewise (fun f => f.lower p.declared >>= Function.compile) p.functions
      (Bundle.procedures <$> p.compile) := by
  have hlower := p.piecewise_lower
  rw [h] at hlower
  refine Piecewise.andThen hlower ?_
  rw [compile_of_lower h]
  exact .traverse (fun _ _ _ => compileFunction_eq_ok) fun _ _ _ => compileFunction_eq_error

theorem analyze_of_lower (h : p.lower = .ok p') :
    p.analyze = p'.functions.traverse analyzeFunction := by
  rw [analyze, h]
  rfl

theorem piecewise_analyze (h : p.lower = .ok p') :
    Piecewise (fun f => f.lower p.declared >>= Function.analyze) p.functions p.analyze := by
  have hlower := p.piecewise_lower
  rw [h] at hlower
  refine Piecewise.andThen hlower ?_
  rw [analyze_of_lower h]
  exact .traverse (fun _ _ _ => analyzeFunction_eq_ok) fun _ _ _ => analyzeFunction_eq_error

theorem exists_concrete_of_error (h : p.lower = .ok p') {failure : Failure}
    (hfailure : p.compile = .error failure ∨ p.analyze = .error failure) :
    ∃ fault : Fault, fault.Concrete ∧ failure.kind = fault.kind := by
  have hkinds := globalObject_not_mem_of_lower h
  rcases hfailure with hfailure | hfailure
  · have htraverse := compile_of_lower h
    rw [hfailure] at htraverse
    obtain ⟨entry, hentry, herror, -⟩ := NameMap.exists_of_traverse_eq_error htraverse.symm
    obtain ⟨fault, hfault, rfl⟩ := compileFunction_eq_error.mp herror
    exact ⟨fault, Function.failsWithin_compile (hkinds entry hentry) fault hfault, rfl⟩
  · rw [analyze_of_lower h] at hfailure
    obtain ⟨entry, hentry, herror, -⟩ := NameMap.exists_of_traverse_eq_error hfailure
    obtain ⟨fault, hfault, rfl⟩ := analyzeFunction_eq_error.mp herror
    exact ⟨fault, Function.failsWithin_analyze (hkinds entry hentry) fault hfault, rfl⟩

theorem error_of_lower {failure : Failure} (h : p.lower = .error failure) :
    p.compile = .error failure ∧ p.analyze = .error failure := by
  rw [compile, analyze, h]
  exact ⟨rfl, rfl⟩

theorem exists_lower_of_compile {b : Bundle} (h : p.compile = .ok b) : ∃ p', p.lower = .ok p' := by
  obtain ⟨p', hlower, -⟩ := bind_eq_ok.mp h
  exact ⟨p', hlower⟩

theorem exists_lower_of_analyze {a : NameMap Analysis} (h : p.analyze = .ok a) :
    ∃ p', p.lower = .ok p' := by
  obtain ⟨p', hlower, -⟩ := bind_eq_ok.mp h
  exact ⟨p', hlower⟩

/-- The failure is the fault of a function of the program, marked with its name. -/
def MarkedBy {β : Type} (p : Program) (treat : Function → Except Fault β) (failure : Failure) :
    Prop :=
  ∃ name f fault, p.functions.get? name = some f ∧ treat f = .error fault ∧
    failure.kind = fault.kind ∧ failure.function = some name ∧
      failure.message = name ++ ": " ++ fault.message

theorem markedBy_of_piecewise {β : Type} {treat : Function → Except Fault β} {failure : Failure}
    (h : Piecewise treat p.functions (.error failure)) : p.MarkedBy treat failure := by
  cases h with
  | refused hvalue hfault _ => exact ⟨_, _, _, hvalue, hfault, rfl, rfl, rfl⟩

theorem markedBy_of_lower {β : Type} {treat : Function → Except Fault β} {failure : Failure}
    (h : p.lower = .error failure) :
    p.MarkedBy (fun f => f.lower p.declared >>= treat) failure := by
  have hlower := p.piecewise_lower
  rw [h] at hlower
  obtain ⟨name, f, fault, hname, hfault, hmarks⟩ := markedBy_of_piecewise hlower
  exact ⟨name, f, fault, hname, bind_eq_error.mpr (.inl hfault), hmarks⟩

theorem markedBy_of_compile {failure : Failure} (h : p.compile = .error failure) :
    p.MarkedBy (fun f => f.lower p.declared >>= Function.compile) failure := by
  cases hlower : p.lower with
  | error other =>
      obtain rfl := Except.error.inj (h.symm.trans (error_of_lower hlower).1)
      exact markedBy_of_lower hlower
  | ok p' =>
      have hcompile := piecewise_compile hlower
      rw [h] at hcompile
      exact markedBy_of_piecewise hcompile

theorem markedBy_of_analyze {failure : Failure} (h : p.analyze = .error failure) :
    p.MarkedBy (fun f => f.lower p.declared >>= Function.analyze) failure := by
  cases hlower : p.lower with
  | error other =>
      obtain rfl := Except.error.inj (h.symm.trans (error_of_lower hlower).2)
      exact markedBy_of_lower hlower
  | ok p' =>
      have hanalyze := piecewise_analyze hlower
      rw [h] at hanalyze
      exact markedBy_of_piecewise hanalyze

theorem get?_of_compile {b : Bundle} (h : p.compile = .ok b) (name : String) :
    b.procedures.get? name = (p.functions.get? name).bind fun f =>
      (f.lower p.declared >>= Function.compile).toOption := by
  obtain ⟨p', hlower⟩ := exists_lower_of_compile h
  have hpiecewise := piecewise_compile hlower
  rw [h] at hpiecewise
  exact hpiecewise.get?_eq name

theorem get?_of_analyze {a : NameMap Analysis} (h : p.analyze = .ok a) (name : String) :
    a.get? name = (p.functions.get? name).bind fun f =>
      (f.lower p.declared >>= Function.analyze).toOption := by
  obtain ⟨p', hlower⟩ := exists_lower_of_analyze h
  have hpiecewise := piecewise_analyze hlower
  rw [h] at hpiecewise
  exact hpiecewise.get?_eq name

/-- A program is treated function by function. If a function cannot be lowered, compiling and
analyzing give the failure of lowering; otherwise only faults of code generation are left. Every
failure is marked with the function that it is of, and what a program gives for a function depends
on no other function. -/
theorem treated_piecewise (p : Program) :
    Piecewise (Function.lower p.declared) p.functions (functions <$> p.lower) ∧
    (∀ failure, p.lower = .error failure →
      p.compile = .error failure ∧ p.analyze = .error failure) ∧
    (∀ p', p.lower = .ok p' →
      Piecewise (fun f => f.lower p.declared >>= Function.compile) p.functions
        (Bundle.procedures <$> p.compile) ∧
      Piecewise (fun f => f.lower p.declared >>= Function.analyze) p.functions p.analyze ∧
      ∀ failure, p.compile = .error failure ∨ p.analyze = .error failure →
        failure.kind ∉ [.unknownGlobal, .globalAsValue, .abstractNode, .parse]) ∧
    (∀ failure, p.compile = .error failure →
      p.MarkedBy (fun f => f.lower p.declared >>= Function.compile) failure) ∧
    (∀ failure, p.analyze = .error failure →
      p.MarkedBy (fun f => f.lower p.declared >>= Function.analyze) failure) ∧
    ∀ (q : Program) (name : String), q.globals = p.globals →
      q.functions.get? name = p.functions.get? name →
      (∀ b b', p.compile = .ok b → q.compile = .ok b' →
        b'.procedures.get? name = b.procedures.get? name) ∧
      ∀ a a', p.analyze = .ok a → q.analyze = .ok a' → a'.get? name = a.get? name := by
  refine ⟨p.piecewise_lower, fun failure => error_of_lower, ?_, fun failure => markedBy_of_compile,
    fun failure => markedBy_of_analyze, ?_⟩
  · intro p' hlower
    refine ⟨piecewise_compile hlower, piecewise_analyze hlower, ?_⟩
    intro failure hfailure
    obtain ⟨fault, hconcrete, hkind⟩ := exists_concrete_of_error hlower hfailure
    rw [hkind]
    exact hconcrete.kind_not_mem
  · intro q name hglobals hname
    have hdeclared : q.declared = p.declared := by rw [declared, declared, hglobals]
    constructor
    · intro b b' hb hb'
      rw [get?_of_compile hb, get?_of_compile hb', hname, hdeclared]
    · intro a a' ha ha'
      rw [get?_of_analyze ha, get?_of_analyze ha', hname, hdeclared]

/-- A program of functions without inputs that declares no global object. -/
def ofBodies (bodies : List (String × List Statement)) : Program where
  version := supportedVersion
  globals := .empty
  functions := .ofList (bodies.map fun entry => (entry.1, ⟨[], entry.2⟩))

/-- The function `a` has an unknown variable, which is found when it is compiled. -/
def unresolved : Program :=
  ofBodies [("a", [.ret (some (.saved "x"))]), ("d", [.noop])]

/-- With `b` and `c`, which cannot be lowered, the fault is that of `b`. -/
def unlowered : Program :=
  ofBodies [("d", [.noop]), ("c", [.update (.globalObject "g") [] .deleteField]),
    ("b", [.ret (some (.array [.globalObject "g"]))]), ("a", [.ret (some (.saved "x"))])]

theorem treated_piecewise_unlowered :
    (∃ failure, unlowered.lower = .error failure ∧ unlowered.compile = .error failure ∧
      unlowered.analyze = .error failure ∧ failure.function = some "b" ∧
      failure.kind = .globalAsValue) ∧
    (∃ p' failure, unresolved.lower = .ok p' ∧ unresolved.compile = .error failure ∧
      failure.kind ∉ [.unknownGlobal, .globalAsValue, .abstractNode, .parse] ∧
      unresolved.MarkedBy (fun f => f.lower unresolved.declared >>= Function.compile) failure) ∧
    ∃ b b', (ofBodies [("d", [.noop])]).compile = .ok b ∧
      (ofBodies [("d", [.noop]), ("e", [.ret none])]).compile = .ok b' ∧
      b'.procedures.get? "d" = b.procedures.get? "d" := by
  refine ⟨?_, ?_, ?_⟩
  · obtain ⟨failure, hlower⟩ : ∃ failure, unlowered.lower = .error failure := ⟨_, rfl⟩
    obtain ⟨hcompile, hanalyze⟩ := (treated_piecewise unlowered).2.1 failure hlower
    cases hlower
    exact ⟨_, rfl, hcompile, hanalyze, rfl, rfl⟩
  · obtain ⟨p', hlower⟩ : ∃ p', unresolved.lower = .ok p' := ⟨_, rfl⟩
    obtain ⟨failure, hcompile⟩ : ∃ failure, unresolved.compile = .error failure := ⟨_, rfl⟩
    obtain ⟨-, -, hlowered, hmarked, -⟩ := treated_piecewise unresolved
    exact ⟨p', failure, hlower, hcompile, (hlowered p' hlower).2.2 failure (.inl hcompile),
      hmarked failure hcompile⟩
  · obtain ⟨-, -, -, -, -, hothers⟩ := treated_piecewise (ofBodies [("d", [.noop])])
    exact ⟨_, _, rfl, rfl, (hothers (ofBodies [("d", [.noop]), ("e", [.ret none])]) "d" rfl rfl).1
      _ _ rfl rfl⟩

end Program

end StoredProcedure
