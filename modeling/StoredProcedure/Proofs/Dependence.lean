import Mathlib.Data.List.Sort
import StoredProcedure.Analysis.Summary
import StoredProcedure.Proofs.Result
import StoredProcedure.Proofs.Scope

namespace StoredProcedure

theorem NameSet.ext_mem {s t : NameSet} (h : ∀ x, x ∈ s ↔ x ∈ t) : s = t :=
  ext_names (s.ascending.eq_of_mem_iff t.ascending h)

/-- Where the value of an expression comes from. -/
inductive Source where
  | store (name : String)
  | saved (name : String)

namespace Expr

mutual
/-- The stores that an expression reads and the variables that it mentions, in order. -/
def sources : Expr → List Source
  | .bool _ | .int _ | .double _ | .string _ | .nothing | .globalObject _ => []
  | .object fields => sourcesFields fields
  | .comparison _ left right | .arithmetic _ left right | .logic _ left right
  | .fieldExists left right => left.sources ++ right.sources
  | .negation value | .typeOf value | .hasType value _ | .keys value => value.sources
  | .saved name => [.saved name]
  | .selection root level => root.sources ++ sourcesList level
  | .array values | .call _ values => sourcesList values
  | .role _ state => sourcesOption state
  | .wholeObject store | .keysOfObject store => [.store store]
  | .keyOfObject store key => sourcesList key ++ [.store store]
  | .keyExists store key => key.sources ++ [.store store]
termination_by structural e => e

def sourcesList : List Expr → List Source
  | [] => []
  | e :: rest => e.sources ++ sourcesList rest
termination_by structural es => es

def sourcesFields : List (Expr × Expr) → List Source
  | [] => []
  | (key, value) :: rest => key.sources ++ value.sources ++ sourcesFields rest
termination_by structural fields => fields

def sourcesOption : Option Expr → List Source
  | none => []
  | some e => e.sources
termination_by structural o => o
end

end Expr

/-- The stores that a value depends on through one source. -/
def Source.dependences (taints : Taints) : Source → NameSet
  | .store name => .singleton name
  | .saved name => (taints.value? name).getD .empty

/-- The reading of the stores among some sources. -/
def Source.gets : List Source → List Action :=
  List.filterMap fun
    | .store name => some (.get name)
    | .saved _ => none

/-- The stores that a value depends on through its sources. -/
def Taints.dependences (taints : Taints) (sources : List Source) : NameSet :=
  sources.foldr (fun source rest => source.dependences taints ∪ rest) .empty

theorem Taints.mem_dependences {taints : Taints} {sources : List Source} {store : String} :
    store ∈ taints.dependences sources ↔ ∃ source ∈ sources, store ∈ source.dependences taints := by
  induction sources with
  | nil => simp [dependences]
  | cons source rest ih =>
      have hcons : taints.dependences (source :: rest) =
          source.dependences taints ∪ taints.dependences rest := rfl
      rw [hcons, NameSet.mem_union, ih, List.exists_mem_cons_iff]

/-- What reading some sources does. -/
def Reads.ofSources (taints : Taints) (sources : List Source) : Reads :=
  ⟨Source.gets sources, taints.dependences sources⟩

namespace Reads

theorem ofSources_append (taints : Taints) (sources others : List Source) :
    ofSources taints (sources ++ others) = ofSources taints sources ++ ofSources taints others := by
  have htaint : taints.dependences (sources ++ others) =
      taints.dependences sources ∪ taints.dependences others := by
    refine NameSet.ext_mem fun store => ?_
    simp only [NameSet.mem_union, Taints.mem_dependences, List.mem_append, or_and_right, exists_or]
  rw [ofSources, htaint, Source.gets, List.filterMap_append]
  rfl

theorem ofSources_store (taints : Taints) (sources : List Source) (name : String) :
    ofSources taints (sources ++ [.store name]) = (ofSources taints sources).store name := by
  have htaint : taints.dependences (sources ++ [.store name]) =
      (taints.dependences sources).insert name := by
    refine NameSet.ext_mem fun store => ?_
    simp [Taints.mem_dependences, Source.dependences, or_and_right, exists_or, or_comm]
  rw [ofSources, htaint, Source.gets, List.filterMap_append]
  rfl

end Reads

theorem Taints.resolve_eq_ok {taints : Taints} {name : String} {taint : NameSet} :
    taints.resolve name = .ok taint ↔ taints.value? name = some taint := by
  rw [resolve]
  cases taints.value? name with
  | none => simp
  | some other => simp

theorem Taints.resolve_of_shape {taints others : Taints} (hshape : others.shape = taints.shape)
    {name : String} {taint : NameSet} (h : taints.resolve name = .ok taint) :
    ∃ other, others.resolve name = .ok other := by
  have hvalue := resolve_eq_ok.mp h
  obtain ⟨slot, hslot⟩ := Scope.exists_slot? hvalue
  rw [← Scope.slot?_shape, ← hshape, Scope.slot?_shape] at hslot
  obtain ⟨other, hother⟩ := Scope.exists_value? hslot
  exact ⟨other, resolve_eq_ok.mpr hother⟩

theorem Reads.ofSources_saved {taints : Taints} {name : String} {taint : NameSet}
    (h : taints.resolve name = .ok taint) : ofSources taints [.saved name] = ⟨[], taint⟩ := by
  have htaint : taints.dependences [.saved name] = taint := by
    refine NameSet.ext_mem fun store => ?_
    simp [Taints.mem_dependences, Source.dependences, Taints.resolve_eq_ok.mp h]
  rw [ofSources, htaint]
  rfl

namespace Expr

variable {taints others : Taints}

mutual
/-- Where an expression can be read, it can be read wherever the same names are in scope, and what is
read is what its sources say. -/
theorem reads_of_shape (hshape : others.shape = taints.shape) : (e : Expr) → {r : Reads} →
    e.reads taints = .ok r → e.reads others = .ok (.ofSources others e.sources)
  | .bool _ | .int _ | .double _ | .string _ | .nothing => by
      intro _
      rfl
  | .object fields => by
      intro h
      exact readsFields_of_shape hshape fields h
  | .comparison _ left right | .arithmetic _ left right | .logic _ left right
  | .fieldExists left right => by
      intro h
      simp only [reads, bind_eq_ok, pure_eq_ok] at h
      obtain ⟨_, hleft, _, hright, rfl⟩ := h
      rw [reads, reads_of_shape hshape left hleft, sources, Reads.ofSources_append]
      simp only [reads_of_shape hshape right hright]
      rfl
  | .negation value | .typeOf value | .hasType value _ | .keys value => by
      intro h
      rw [reads, sources]
      exact reads_of_shape hshape value h
  | .saved name => by
      intro h
      simp only [reads, bind_eq_ok, pure_eq_ok] at h
      obtain ⟨_, hname, rfl⟩ := h
      obtain ⟨other, hother⟩ := Taints.resolve_of_shape hshape hname
      rw [reads, hother, sources, Reads.ofSources_saved hother]
      rfl
  | .selection root level => by
      intro h
      simp only [reads, bind_eq_ok, pure_eq_ok] at h
      obtain ⟨_, hroot, _, hlevel, rfl⟩ := h
      rw [reads, reads_of_shape hshape root hroot, sources, Reads.ofSources_append]
      simp only [readsList_of_shape hshape level hlevel]
      rfl
  | .array values | .call _ values => by
      intro h
      exact readsList_of_shape hshape values h
  | .role _ state => by
      intro h
      exact readsOption_of_shape hshape state h
  | .globalObject _ => by
      intro h
      cases h
  | .wholeObject store | .keysOfObject store => by
      intro _
      exact congrArg Except.ok (Reads.ofSources_store others [] store).symm
  | .keyOfObject store key => by
      intro h
      simp only [reads, bind_eq_ok, pure_eq_ok] at h
      obtain ⟨_, hkey, rfl⟩ := h
      rw [reads, readsList_of_shape hshape key hkey, sources, Reads.ofSources_store]
      rfl
  | .keyExists store key => by
      intro h
      simp only [reads, bind_eq_ok, pure_eq_ok] at h
      obtain ⟨_, hkey, rfl⟩ := h
      rw [reads, reads_of_shape hshape key hkey, sources, Reads.ofSources_store]
      rfl
termination_by structural e => e

theorem readsList_of_shape (hshape : others.shape = taints.shape) : (es : List Expr) →
    {r : Reads} → readsList taints es = .ok r →
    readsList others es = .ok (.ofSources others (sourcesList es))
  | [] => by
      intro _
      rfl
  | e :: rest => by
      intro h
      simp only [readsList, bind_eq_ok, pure_eq_ok] at h
      obtain ⟨_, hfirst, _, hrest, rfl⟩ := h
      rw [readsList, reads_of_shape hshape e hfirst, sourcesList, Reads.ofSources_append]
      simp only [readsList_of_shape hshape rest hrest]
      rfl
termination_by structural es => es

theorem readsFields_of_shape (hshape : others.shape = taints.shape) :
    (fields : List (Expr × Expr)) → {r : Reads} → readsFields taints fields = .ok r →
    readsFields others fields = .ok (.ofSources others (sourcesFields fields))
  | [] => by
      intro _
      rfl
  | (key, value) :: rest => by
      intro h
      simp only [readsFields, bind_eq_ok, pure_eq_ok] at h
      obtain ⟨_, hkey, _, hvalue, _, hrest, rfl⟩ := h
      rw [readsFields, reads_of_shape hshape key hkey, sourcesFields, Reads.ofSources_append,
        Reads.ofSources_append]
      simp only [reads_of_shape hshape value hvalue, readsFields_of_shape hshape rest hrest]
      rfl
termination_by structural fields => fields

theorem readsOption_of_shape (hshape : others.shape = taints.shape) : (o : Option Expr) →
    {r : Reads} → readsOption taints o = .ok r →
    readsOption others o = .ok (.ofSources others (sourcesOption o))
  | none => by
      intro _
      rfl
  | some e => by
      intro h
      exact reads_of_shape hshape e h
termination_by structural o => o
end

end Expr

end StoredProcedure
