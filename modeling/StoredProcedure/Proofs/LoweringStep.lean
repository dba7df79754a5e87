import StoredProcedure.Lowering
import StoredProcedure.Proofs.Rewriting

namespace StoredProcedure

/-- The name of a global object. -/
def Expr.global? : Expr → Option String
  | .globalObject name => some name
  | _ => none

theorem Expr.global?_eq_some {e : Expr} {name : String} :
    e.global? = some name ↔ e = .globalObject name := by
  cases e <;> simp [global?]

theorem Expr.global?_eq_none {e : Expr} : e.global? = none ↔ e.kind ≠ .globalObject := by
  cases e <;> simp [global?, kind]

theorem Expr.eq_keys_of_kind {e : Expr} (h : e.kind = .keys) : ∃ source, e = .keys source := by
  cases e with
  | keys source => exact ⟨source, rfl⟩
  | _ => cases h

/-- The global object that an expression accesses, if it is an access. -/
def Expr.accessed? : Expr → Option String
  | .selection root _ => root.global?
  | .fieldExists value _ => value.global?
  | .keys source => source.global?
  | _ => none

theorem Expr.accessed?_eq_some {e : Expr} {name : String} (h : e.accessed? = some name) :
    (∃ level, e = .selection (.globalObject name) level) ∨
      (∃ field, e = .fieldExists (.globalObject name) field) ∨ e = .keys (.globalObject name) := by
  cases e with
  | selection root level =>
      obtain rfl := global?_eq_some.mp h
      exact .inl ⟨level, rfl⟩
  | fieldExists value field =>
      obtain rfl := global?_eq_some.mp h
      exact .inr (.inl ⟨field, rfl⟩)
  | keys source =>
      obtain rfl := global?_eq_some.mp h
      exact .inr (.inr rfl)
  | _ => cases h

theorem Expr.accessed?_eq_none {e : Expr} (h : ∀ child ∈ e.children, child.global? = none) :
    e.accessed? = none := by
  cases e with
  | selection root level => exact h root List.mem_cons_self
  | fieldExists value field => exact h value List.mem_cons_self
  | keys source => exact h source List.mem_cons_self
  | _ => rfl

namespace Lowering

variable {declared : Option NameSet}

/-- A global object may be accessed if it is among the declared ones, if these are known. -/
def Declared (declared : Option NameSet) (name : String) : Prop :=
  ∀ globals, declared = some globals → name ∈ globals

theorem check_eq_ok {name store : String} :
    check declared name = .ok store ↔ Declared declared name ∧ name = store := by
  cases declared with
  | none => simp [check, Declared]
  | some globals =>
      by_cases hname : name ∈ globals
      · simp [check, Declared, hname]
      · simp [check, Declared, hname]

theorem exists_check_iff {name : String} :
    (∃ store, check declared name = .ok store) ↔ Declared declared name := by
  simp [check_eq_ok]

/-- What becomes of an expression, given what becomes of its children. -/
inductive Lowers (declared : Option NameSet) : Expr → Expr → Prop
  | rebuilt {e : Expr} {es : List Expr} (hself : e.global? = none)
      (hchildren : e.children.mapM (rewriter declared).rewriteExpr = .ok es) :
      Lowers declared e (e.withChildren es)
  | whole {name : String} (hname : Declared declared name) :
      Lowers declared (.selection (.globalObject name) []) (.wholeObject name)
  | selectedKeys {name : String} {source : Expr} (hname : Declared declared name) :
      Lowers declared (.selection (.globalObject name) [.keys source]) (.keysOfObject name)
  | selectedAmongKeys {name : String} {source : Expr} {rest es : List Expr}
      (hname : Declared declared name) (hrest : rest ≠ [])
      (hlevel : rest.mapM (rewriter declared).rewriteExpr = .ok es) :
      Lowers declared (.selection (.globalObject name) (.keys source :: rest))
        (.selection (.keysOfObject name) es)
  | selectedValue {name : String} {first : Expr} {rest es : List Expr}
      (hname : Declared declared name) (hfirst : first.kind ≠ .keys)
      (hlevel : (first :: rest).mapM (rewriter declared).rewriteExpr = .ok es) :
      Lowers declared (.selection (.globalObject name) (first :: rest)) (.keyOfObject name es)
  | keyExists {name : String} {field key : Expr} (hname : Declared declared name)
      (hfield : (rewriter declared).rewriteExpr field = .ok key) :
      Lowers declared (.fieldExists (.globalObject name) field) (.keyExists name key)
  | keys {name : String} (hname : Declared declared name) :
      Lowers declared (.keys (.globalObject name)) (.keysOfObject name)

theorem rewriteExpr_global (name : String) :
    (rewriter declared).rewriteExpr (.globalObject name) = .error (.globalWithoutRule name) := rfl

theorem global?_eq_none_of_rewriteExpr {e e' : Expr}
    (h : (rewriter declared).rewriteExpr e = .ok e') : e.global? = none := by
  cases e with
  | globalObject name => cases h
  | _ => rfl

theorem global?_eq_none_of_mapM {es es' : List Expr}
    (h : es.mapM (rewriter declared).rewriteExpr = .ok es') : ∀ e ∈ es, e.global? = none := by
  intro e he
  obtain ⟨e', he'⟩ := exists_mapM_iff.mp ⟨es', h⟩ e he
  exact global?_eq_none_of_rewriteExpr he'

theorem firstGlobal?_parts (es : List Expr) :
    firstGlobal? ((rewriter declared).parts es) = es.findSome? Expr.global? := by
  induction es with
  | nil => rfl
  | cons e rest ih =>
      rw [Rewriter.parts, List.findSome?_cons, ← ih]
      cases e <;> rfl

theorem withoutGlobals_eq_ok {fault : String → Fault} {es es' : List Expr} :
    withoutGlobals fault ((rewriter declared).parts es) = .ok es' ↔
      es.mapM (rewriter declared).rewriteExpr = .ok es' := by
  rw [withoutGlobals, firstGlobal?_parts, Rewriter.results_parts]
  cases hfirst : es.findSome? Expr.global? with
  | none => exact Iff.rfl
  | some name =>
      obtain ⟨e, he, hname⟩ := List.exists_of_findSome?_eq_some hfirst
      constructor
      · intro h
        cases h
      · intro h
        have hnone := global?_eq_none_of_mapM h e he
        rw [hnone] at hname
        cases hname

theorem rewriteExpr_eq_ok_iff_rebuild {e e' : Expr} (hself : e.global? = none)
    (haccess : e.accessed? = none) :
    (rewriter declared).rewriteExpr e = .ok e' ↔ (rewriter declared).rebuild e = .ok e' := by
  cases e with
  | globalObject name => cases hself
  | selection root level =>
      rw [Rewriter.rebuild_selection]
      cases root with
      | globalObject name => cases haccess
      | _ => exact Iff.rfl
  | fieldExists value field =>
      rw [Rewriter.rebuild_fieldExists]
      cases value with
      | globalObject name => cases haccess
      | _ => exact Iff.rfl
  | keys source =>
      rw [Rewriter.rebuild_keys]
      cases source with
      | globalObject name => cases haccess
      | _ => exact Iff.rfl
  | array values =>
      have hwalk : (rewriter declared).rewriteExpr (.array values) = do
          return .array (← withoutGlobals .globalInArray ((rewriter declared).parts values)) := rfl
      simp only [hwalk, Rewriter.rebuild_array, bind_eq_ok, withoutGlobals_eq_ok,
        Rewriter.results_parts]
  | _ =>
      rw [← Rewriter.walk_eq_rebuild _ id]
      exact Iff.rfl

theorem rewriteExpr_selectedAmongKeys (name : String) (source : Expr) (rest : List Expr) :
    (rewriter declared).rewriteExpr (.selection (.globalObject name) (.keys source :: rest)) = do
      let store ← check declared name
      if rest.isEmpty then return .keysOfObject store
      else return .selection (.keysOfObject store) (← rest.mapM (rewriter declared).rewriteExpr) := by
  rw [← Rewriter.results_parts]
  cases rest <;> rfl

theorem rewriteExpr_selectedValue (name : String) {first : Expr} (hfirst : first.kind ≠ .keys)
    (rest : List Expr) :
    (rewriter declared).rewriteExpr (.selection (.globalObject name) (first :: rest)) = do
      let store ← check declared name
      return .keyOfObject store (← (first :: rest).mapM (rewriter declared).rewriteExpr) := by
  rw [← Rewriter.results_parts]
  cases first with
  | keys source => exact absurd rfl hfirst
  | _ => rfl

theorem lowers_of_selected {name : String} {level : List Expr} {e' : Expr}
    (h : (rewriter declared).rewriteExpr (.selection (.globalObject name) level) = .ok e') :
    Lowers declared (.selection (.globalObject name) level) e' := by
  rcases level with _ | ⟨first, rest⟩
  · obtain ⟨store, hstore, hresult⟩ := bind_eq_ok.mp h
    obtain rfl := pure_eq_ok.mp hresult
    obtain ⟨hname, rfl⟩ := check_eq_ok.mp hstore
    exact .whole hname
  · by_cases hfirst : first.kind = .keys
    · obtain ⟨source, rfl⟩ := Expr.eq_keys_of_kind hfirst
      simp only [rewriteExpr_selectedAmongKeys, bind_eq_ok, check_eq_ok] at h
      obtain ⟨store, ⟨hname, rfl⟩, hresult⟩ := h
      split at hresult
      · rename_i hrest
        obtain rfl := List.isEmpty_iff.mp hrest
        obtain rfl := pure_eq_ok.mp hresult
        exact .selectedKeys hname
      · rename_i hrest
        simp only [bind_eq_ok, pure_eq_ok] at hresult
        obtain ⟨es, hlevel, rfl⟩ := hresult
        exact .selectedAmongKeys hname (fun hnil => hrest (List.isEmpty_iff.mpr hnil)) hlevel
    · simp only [rewriteExpr_selectedValue name hfirst, bind_eq_ok, check_eq_ok, pure_eq_ok] at h
      obtain ⟨store, ⟨hname, rfl⟩, es, hlevel, rfl⟩ := h
      exact .selectedValue hname hfirst hlevel

theorem lowers_of_rewriteExpr {e e' : Expr} (h : (rewriter declared).rewriteExpr e = .ok e') :
    Lowers declared e e' := by
  have hself := global?_eq_none_of_rewriteExpr h
  cases haccess : e.accessed? with
  | none =>
      have hrebuild := (rewriteExpr_eq_ok_iff_rebuild hself haccess).mp h
      simp only [Rewriter.rebuild, bind_eq_ok, pure_eq_ok] at hrebuild
      obtain ⟨es, hes, rfl⟩ := hrebuild
      exact .rebuilt hself hes
  | some name =>
      rcases Expr.accessed?_eq_some haccess with ⟨level, rfl⟩ | ⟨field, rfl⟩ | rfl
      · exact lowers_of_selected h
      · obtain ⟨store, hstore, hfield⟩ := bind_eq_ok.mp h
        obtain ⟨key, hkey, hresult⟩ := bind_eq_ok.mp hfield
        obtain rfl := pure_eq_ok.mp hresult
        obtain ⟨hname, rfl⟩ := check_eq_ok.mp hstore
        exact .keyExists hname hkey
      · obtain ⟨store, hstore, hkey⟩ := bind_eq_ok.mp h
        obtain rfl := pure_eq_ok.mp hkey
        obtain ⟨hname, rfl⟩ := check_eq_ok.mp hstore
        exact .keys hname

theorem rewriteExpr_eq_ok_iff {e e' : Expr} :
    (rewriter declared).rewriteExpr e = .ok e' ↔ Lowers declared e e' := by
  refine ⟨lowers_of_rewriteExpr, fun h => ?_⟩
  cases h with
  | rebuilt hself hchildren =>
      have haccess := Expr.accessed?_eq_none (global?_eq_none_of_mapM hchildren)
      rw [rewriteExpr_eq_ok_iff_rebuild hself haccess, Rewriter.rebuild, hchildren]
      rfl
  | whole hname => exact bind_eq_ok.mpr ⟨_, check_eq_ok.mpr ⟨hname, rfl⟩, rfl⟩
  | selectedKeys hname =>
      rw [rewriteExpr_selectedAmongKeys, check_eq_ok.mpr ⟨hname, rfl⟩]
      rfl
  | selectedAmongKeys hname hrest hlevel =>
      rw [rewriteExpr_selectedAmongKeys, check_eq_ok.mpr ⟨hname, rfl⟩, hlevel]
      exact if_neg fun hempty => hrest (List.isEmpty_iff.mp hempty)
  | selectedValue hname hfirst hlevel =>
      rw [rewriteExpr_selectedValue _ hfirst, check_eq_ok.mpr ⟨hname, rfl⟩, hlevel]
      rfl
  | keyExists hname hfield =>
      exact bind_eq_ok.mpr ⟨_, check_eq_ok.mpr ⟨hname, rfl⟩, bind_eq_ok.mpr ⟨_, hfield, rfl⟩⟩
  | keys hname => exact bind_eq_ok.mpr ⟨_, check_eq_ok.mpr ⟨hname, rfl⟩, rfl⟩

end Lowering

namespace Edit

/-- The edit with other inputs in the place of its own, if they are as many. -/
def withInputs : Edit → List Expr → Edit
  | .push _, es => .push es
  | .set _, [value] => .set value
  | edit, _ => edit

theorem inputs_withInputs {edit : Edit} {es : List Expr} (h : es.length = edit.inputs.length) :
    (edit.withInputs es).inputs = es := by
  cases edit with
  | push values => rfl
  | deleteField =>
      obtain rfl := List.eq_nil_of_length_eq_zero h
      rfl
  | set value =>
      obtain ⟨value', rfl⟩ := List.length_eq_one_iff.mp h
      rfl

/-- The edit of a stored document. -/
def write (store : String) (key : List Expr) : Edit → Statement
  | .push values => .pushAtKey store key values
  | .deleteField => .deleteKey store key
  | .set value => .setKey store key value

end Edit

namespace Lowering

variable {declared : Option NameSet}

/-- What becomes of an update, given what becomes of its level and its inputs. -/
inductive LowersUpdate (declared : Option NameSet) (level : List Expr) (edit : Edit) :
    Target → Statement → Prop
  | saved {name : String} (hfield : edit = .deleteField → level ≠ []) :
      LowersUpdate declared level edit (.saved name) (.update (.saved name) level edit)
  | stored {name : String} (hname : Declared declared name) (hkey : level ≠ []) :
      LowersUpdate declared level edit (.globalObject name) (edit.write name level)

theorem lowersUpdate_saved {level : List Expr} {edit : Edit} {name : String} {s' : Statement} :
    LowersUpdate declared level edit (.saved name) s' ↔
      (edit = .deleteField → level ≠ []) ∧ .update (.saved name) level edit = s' := by
  constructor
  · rintro ⟨hfield⟩
    exact ⟨hfield, rfl⟩
  · rintro ⟨hfield, rfl⟩
    exact .saved hfield

theorem lowersUpdate_stored {level : List Expr} {edit : Edit} {name : String} {s' : Statement} :
    LowersUpdate declared level edit (.globalObject name) s' ↔
      Declared declared name ∧ level ≠ [] ∧ edit.write name level = s' := by
  constructor
  · rintro ⟨⟩
    exact ⟨‹_›, ‹_›, rfl⟩
  · rintro ⟨hname, hkey, rfl⟩
    exact .stored hname hkey

theorem rewrite_update (target : Target) (level : List Expr) (edit : Edit) :
    (rewriter declared).rewrite (.update target level edit) =
      update declared target ((rewriter declared).parts level)
        ((rewriter declared).rewriteEdit edit) := rfl

theorem pushed_eq_ok {es es' : List Expr} :
    (rewriter declared).pushed ((rewriter declared).parts es) = .ok es' ↔
      es.mapM (rewriter declared).rewriteExpr = .ok es' :=
  withoutGlobals_eq_ok

theorem rewrite_update_eq_ok_iff {target : Target} {level : List Expr} {edit : Edit}
    {s' : Statement} :
    (rewriter declared).rewrite (.update target level edit) = .ok s' ↔
      ∃ level' inputs', level.mapM (rewriter declared).rewriteExpr = .ok level' ∧
        edit.inputs.mapM (rewriter declared).rewriteExpr = .ok inputs' ∧
          LowersUpdate declared level' (edit.withInputs inputs') target s' := by
  have hempty : ∀ level', level.mapM (rewriter declared).rewriteExpr = .ok level' →
      ((rewriter declared).parts level ≠ [] ↔ level' ≠ []) := by
    intro level' hlevel
    rw [Rewriter.parts_eq, Ne, List.map_eq_nil_iff, ← List.length_eq_zero_iff,
      ← length_of_mapM hlevel, List.length_eq_zero_iff]
  rw [rewrite_update]
  cases target with
  | saved name =>
      cases edit with
      | push _ | set _ =>
          simp only [update, Rewriter.rewriteEdit, bind_eq_ok, pure_eq_ok, pushed_eq_ok,
            Rewriter.results_parts, lowersUpdate_saved, Edit.inputs, Edit.withInputs,
            List.mapM_cons, List.mapM_nil]
          simp
      | deleteField =>
          simp only [update, Rewriter.rewriteEdit, bind_eq_ok, pure_eq_ok, exists_and_right,
            exists_requireField_iff, Rewriter.results_parts, lowersUpdate_saved, Edit.inputs,
            Edit.withInputs, List.mapM_nil]
          constructor
          · rintro ⟨hparts, level', hlevel, rfl⟩
            exact ⟨level', [], hlevel, rfl, fun _ => (hempty level' hlevel).mp hparts, rfl⟩
          · rintro ⟨level', _, hlevel, -, hfield, rfl⟩
            exact ⟨(hempty level' hlevel).mpr (hfield trivial), level', hlevel, rfl⟩
  | globalObject name =>
      cases edit with
      | push values =>
          simp only [update, Rewriter.rewriteEdit, bind_eq_ok, pure_eq_ok, exists_and_right,
            check_eq_ok, exists_requireKey_iff, Rewriter.results_parts, pushed_eq_ok,
            lowersUpdate_stored, Edit.inputs, Edit.withInputs]
          constructor
          · rintro ⟨_, ⟨hname, rfl⟩, hparts, key, hkey, values', hvalues, rfl⟩
            exact ⟨key, values', hkey, hvalues, hname, (hempty key hkey).mp hparts, rfl⟩
          · rintro ⟨key, values', hkey, hvalues, hname, hne, rfl⟩
            exact ⟨name, ⟨hname, rfl⟩, (hempty key hkey).mpr hne, key, hkey, values', hvalues, rfl⟩
      | set value =>
          simp only [update, Rewriter.rewriteEdit, bind_eq_ok, pure_eq_ok, exists_and_right,
            check_eq_ok, exists_requireKey_iff, Rewriter.results_parts, lowersUpdate_stored,
            Edit.inputs, List.mapM_cons, List.mapM_nil, exists_eq_left']
          constructor
          · rintro ⟨_, ⟨hname, rfl⟩, hparts, key, hkey, value', hvalue, rfl⟩
            exact ⟨key, [value'], hkey, ⟨value', hvalue, rfl⟩, hname, (hempty key hkey).mp hparts,
              rfl⟩
          · rintro ⟨key, _, hkey, ⟨value', hvalue, rfl⟩, hname, hne, rfl⟩
            exact ⟨name, ⟨hname, rfl⟩, (hempty key hkey).mpr hne, key, hkey, value', hvalue, rfl⟩
      | deleteField =>
          simp only [update, Rewriter.rewriteEdit, bind_eq_ok, pure_eq_ok, exists_and_right,
            check_eq_ok, exists_requireKey_iff, Rewriter.results_parts, lowersUpdate_stored,
            Edit.inputs, Edit.withInputs, List.mapM_nil]
          constructor
          · rintro ⟨_, ⟨hname, rfl⟩, hparts, key, hkey, rfl⟩
            exact ⟨key, [], hkey, rfl, hname, (hempty key hkey).mp hparts, rfl⟩
          · rintro ⟨key, _, hkey, -, hname, hne, rfl⟩
            exact ⟨name, ⟨hname, rfl⟩, (hempty key hkey).mpr hne, key, hkey, rfl⟩

end Lowering

end StoredProcedure
