import StoredProcedure.Proofs.CodeScope
import StoredProcedure.Proofs.Dependence
import StoredProcedure.Proofs.Tree

namespace StoredProcedure

theorem Slots.exists_resolve_iff {slots : Slots} {name : String} :
    (∃ slot, slots.resolve name = .ok slot) ↔ name ∈ slots.names := by
  simp only [resolve_eq_ok, Scope.exists_slot?_iff]

theorem Taints.exists_resolve_iff {taints : Taints} {name : String} :
    (∃ taint, taints.resolve name = .ok taint) ↔ name ∈ taints.names := by
  simp only [resolve_eq_ok, Scope.exists_value?_iff]

namespace Expr

/-- No global object, and a variable only if its name is in scope. -/
def InScope (names : List String) : Expr → Prop
  | .saved name => name ∈ names
  | .globalObject _ => False
  | _ => True

/-- A keyed access has a key, and the schema of a role has a name. -/
def Complete : Expr → Prop
  | .keyOfObject _ key => key ≠ []
  | .role schema _ => ∃ name, schema.roleName? = some name
  | _ => True

/-- What a node needs to have code. -/
def Compilable (names : List String) (e : Expr) : Prop :=
  e.InScope names ∧ e.Complete

section Sequences

variable {α β : Type} {f : Expr → Except Fault α} {stop : β}

theorem exists_list_iff {g : List Expr → Except Fault β} {join : α → β → β} (hnil : g [] = .ok stop)
    (hcons : ∀ e rest, g (e :: rest) = f e >>= fun a => g rest >>= fun b => pure (join a b))
    (es : List Expr) : (∃ b, g es = .ok b) ↔ ∀ e ∈ es, ∃ a, f e = .ok a := by
  induction es with
  | nil => simp [hnil]
  | cons e rest ih =>
      simp only [hcons, exists_bind_eq_ok, exists_pure_eq_ok, and_true, exists_and_right, ih,
        List.forall_mem_cons]

/-- Fields are treated one by one, the key before the value. -/
theorem exists_fields_iff {g : List (Expr × Expr) → Except Fault β} {join : α → α → β → β}
    (hnil : g [] = .ok stop)
    (hcons : ∀ key value rest, g ((key, value) :: rest) =
      f key >>= fun a => f value >>= fun b => g rest >>= fun c => pure (join a b c))
    (fields : List (Expr × Expr)) :
    (∃ b, g fields = .ok b) ↔ ∀ e ∈ (object fields).children, ∃ a, f e = .ok a := by
  induction fields with
  | nil => simp [hnil, children]
  | cons field rest ih =>
      simp only [children_object_cons, hcons, exists_bind_eq_ok, exists_pure_eq_ok, and_true,
        exists_and_right, ih, List.forall_mem_cons]

end Sequences

section Reads

variable (taints : Taints)

theorem exists_readsList_iff (es : List Expr) :
    (∃ reads, readsList taints es = .ok reads) ↔
      ∀ e ∈ es, ∃ reads, e.reads taints = .ok reads :=
  exists_list_iff (g := readsList taints) rfl (fun _ _ => rfl) es

theorem exists_readsFields_iff (fields : List (Expr × Expr)) :
    (∃ reads, readsFields taints fields = .ok reads) ↔
      ∀ e ∈ (object fields).children, ∃ reads, e.reads taints = .ok reads :=
  exists_fields_iff (g := readsFields taints) rfl (fun _ _ _ => rfl) fields

theorem exists_reads_iff_children (e : Expr) :
    (∃ reads, e.reads taints = .ok reads) ↔
      e.InScope taints.names ∧ ∀ child ∈ e.children, ∃ reads, child.reads taints = .ok reads := by
  cases e with
  | bool _ | int _ | double _ | string _ | nothing | wholeObject _ | keysOfObject _ =>
      simp [reads, InScope, children]
  | globalObject _ => simp [reads, InScope]
  | saved name =>
      simp only [reads, exists_bind_eq_ok, exists_pure_eq_ok, and_true, Taints.exists_resolve_iff]
      simp [InScope, children]
  | object fields =>
      rw [reads, exists_readsFields_iff]
      simp [InScope]
  | comparison _ _ _ | arithmetic _ _ _ | logic _ _ _ | fieldExists _ _ | keyExists _ _ =>
      simp only [reads, exists_bind_eq_ok, exists_pure_eq_ok, and_true, exists_and_right]
      simp [InScope, children]
  | negation _ | typeOf _ | hasType _ _ | keys _ => simp [reads, InScope, children]
  | selection root level =>
      simp only [reads, exists_bind_eq_ok, exists_pure_eq_ok, and_true, exists_and_right,
        exists_readsList_iff]
      simp [InScope, children]
  | array values | call _ values =>
      rw [reads, exists_readsList_iff]
      simp [InScope, children]
  | keyOfObject store key =>
      simp only [reads, exists_bind_eq_ok, exists_pure_eq_ok, and_true, exists_readsList_iff]
      simp [InScope, children]
  | role schema state => cases state <;> simp [reads, readsOption, InScope, children]

theorem exists_reads_iff (e : Expr) :
    (∃ reads, e.reads taints = .ok reads) ↔ ∀ node ∈ e.nodes, node.InScope taints.names :=
  iff_forall_mem_nodes (exists_reads_iff_children taints) e

end Reads

section Compile

variable (slots : Slots)

theorem exists_compileList_iff (es : List Expr) :
    (∃ code, compileList slots es = .ok code) ↔ ∀ e ∈ es, ∃ code, e.compile slots = .ok code :=
  exists_list_iff (g := compileList slots) rfl (fun _ _ => rfl) es

theorem exists_compilePushes_iff (es : List Expr) :
    (∃ code, compilePushes slots es = .ok code) ↔ ∀ e ∈ es, ∃ code, e.compile slots = .ok code :=
  exists_list_iff (g := compilePushes slots) rfl (fun _ _ => rfl) es

theorem exists_compileFields_iff (fields : List (Expr × Expr)) :
    (∃ code, compileFields slots fields = .ok code) ↔
      ∀ e ∈ (object fields).children, ∃ code, e.compile slots = .ok code :=
  exists_fields_iff (g := compileFields slots) rfl (fun _ _ _ => rfl) fields

theorem exists_compileState_iff (state : Option Expr) :
    (∃ code, compileState slots state = .ok code) ↔
      ∀ e ∈ state.toList, ∃ code, e.compile slots = .ok code := by
  cases state with
  | none => simp [compileState]
  | some e =>
      simp only [compileState, exists_bind_eq_ok, exists_pure_eq_ok, and_true]
      simp

theorem exists_compile_iff_children (e : Expr) :
    (∃ code, e.compile slots = .ok code) ↔
      e.Compilable slots.names ∧
        ∀ child ∈ e.children, ∃ code, child.compile slots = .ok code := by
  cases e with
  | bool _ | int _ | double _ | string _ | nothing | wholeObject _ | keysOfObject _ =>
      simp [compile, Compilable, InScope, Complete, children]
  | globalObject _ => simp [compile, Compilable, InScope]
  | saved name =>
      simp only [compile, exists_bind_eq_ok, exists_pure_eq_ok, and_true, Slots.exists_resolve_iff]
      simp [Compilable, InScope, Complete, children]
  | object fields =>
      simp only [compile, exists_bind_eq_ok, exists_pure_eq_ok, and_true, exists_compileFields_iff]
      simp [Compilable, InScope, Complete]
  | comparison _ _ _ | arithmetic _ _ _ | logic _ _ _ | fieldExists _ _ | negation _ | typeOf _
  | hasType _ _ | keys _ | keyExists _ _ =>
      simp only [compile, exists_bind_eq_ok, exists_pure_eq_ok, and_true, exists_and_right]
      simp [Compilable, InScope, Complete, children]
  | selection root level =>
      simp only [compile, exists_bind_eq_ok]
      split
      · rename_i hempty
        obtain rfl := List.isEmpty_iff.mp hempty
        simp only [exists_pure_eq_ok, and_true]
        simp [Compilable, InScope, Complete, children]
      · simp only [exists_bind_eq_ok, exists_pure_eq_ok, and_true, exists_and_right,
          exists_compileList_iff]
        simp [Compilable, InScope, Complete, children]
  | array values =>
      simp only [compile, exists_bind_eq_ok, exists_pure_eq_ok, and_true, exists_compilePushes_iff]
      simp [Compilable, InScope, Complete, children]
  | call function args =>
      simp only [compile, exists_bind_eq_ok, exists_pure_eq_ok, and_true, exists_compileList_iff]
      simp [Compilable, InScope, Complete, children]
  | keyOfObject store key =>
      cases key with
      | nil => simp [compile, Compilable, Complete]
      | cons first rest =>
          simp only [compile, exists_bind_eq_ok, exists_pure_eq_ok, and_true, exists_and_right,
            exists_compileList_iff]
          simp [Compilable, InScope, Complete, children, and_comm]
  | role schema state =>
      rw [compile]
      cases hname : schema.roleName? with
      | none => simp [Compilable, Complete, hname]
      | some name =>
          simp only [exists_bind_eq_ok, exists_pure_eq_ok, and_true, exists_compileState_iff]
          simp [Compilable, InScope, Complete, hname, children]

theorem exists_compile_iff (e : Expr) :
    (∃ code, e.compile slots = .ok code) ↔
      ∀ node ∈ e.nodes, node.Compilable slots.names :=
  iff_forall_mem_nodes (exists_compile_iff_children slots) e

end Compile

end Expr

end StoredProcedure
