import Mathlib.Data.Fintype.EquivFin
import StoredProcedure.Proofs.AlikeSummary

namespace StoredProcedure

namespace Statement

mutual
/-- The names of the variables that a statement declares, also in the scopes inside it. -/
def binders : Statement → List String
  | .save name _ => [name]
  | .choice branches => bindersBranches branches
  | .forEach _ item body => item :: bindersBody body
  | _ => []
termination_by structural s => s

def bindersBody : List Statement → List String
  | [] => []
  | s :: rest => s.binders ++ bindersBody rest
termination_by structural body => body

def bindersBranches : List (Guard × List Statement) → List String
  | [] => []
  | (_, body) :: rest => bindersBody body ++ bindersBranches rest
termination_by structural branches => branches
end

theorem declares_subset_binders (s : Statement) : s.declares ⊆ s.binders := by
  cases s with
  | save name value => exact List.Subset.refl _
  | _ => exact List.nil_subset _

theorem nodup_declares (s : Statement) : s.declares.Nodup := by
  cases s with
  | save name value => exact List.nodup_singleton name
  | _ => exact List.nodup_nil

end Statement

/-- The names of all variables of a function. -/
def Function.binders (f : Function) : List String :=
  f.inputs.map Input.name ++ Statement.bindersBody f.body

theorem exists_forall₂ {α β : Type} {R : α → β → Prop} {xs : List α} (h : ∀ x ∈ xs, ∃ y, R x y) :
    ∃ ys, List.Forall₂ R xs ys := by
  induction xs with
  | nil => exact ⟨[], .nil⟩
  | cons x rest ih =>
      obtain ⟨hx, hrest⟩ := List.forall_mem_cons.mp h
      obtain ⟨y, hy⟩ := hx
      obtain ⟨ys, hys⟩ := ih hrest
      exact ⟨y :: ys, .cons hy hys⟩

/-- The new names of the variables in scope are different, none is empty, and all are taken. -/
structure Renamed (vars : List (String × String)) (taken : List String) : Prop where
  nodup : ("" :: vars.map Prod.snd).Nodup
  subset : "" :: vars.map Prod.snd ⊆ taken

namespace Renamed

variable {vars : List (String × String)} {taken : List String}

theorem weaken {more : List String} (h : Renamed vars taken) (hmore : taken ⊆ more) :
    Renamed vars more :=
  ⟨h.nodup, List.Subset.trans h.subset hmore⟩

theorem declare (h : Renamed vars taken) {p q : List String} (hlength : p.length = q.length)
    (hnodup : q.Nodup) (hfree : q.Disjoint taken) : Renamed (p.zip q ++ vars) (q ++ taken) := by
  have hnames : (p.zip q ++ vars).map Prod.snd = q ++ vars.map Prod.snd := by
    rw [List.map_append, List.map_snd_zip hlength.ge]
  have hempty := h.subset List.mem_cons_self
  have hvars := (List.cons_subset.mp h.subset).2
  obtain ⟨hnew, hold⟩ := List.nodup_cons.mp h.nodup
  constructor
  · rw [hnames, List.nodup_cons, List.nodup_append']
    refine ⟨?_, hnodup, hold, fun name hname hvar => hfree hname (hvars hvar)⟩
    rw [List.mem_append, not_or]
    exact ⟨fun hname => hfree hname hempty, hnew⟩
  · rw [hnames, List.cons_subset, List.append_subset]
    refine ⟨List.mem_append_right _ hempty, List.subset_append_left _ _, ?_⟩
    exact List.Subset.trans hvars (List.subset_append_right _ _)

theorem exists_sameVariable (h : ("" :: vars.map Prod.snd).Nodup) (x : String) :
    ∃ y ∈ "" :: vars.map Prod.snd, SameVariable vars x y := by
  induction vars with
  | nil => exact ⟨"", List.mem_cons_self, .unbound⟩
  | cons var rest ih =>
      obtain ⟨other, other'⟩ := var
      rw [List.map_cons, List.nodup_cons, List.mem_cons, not_or, List.nodup_cons] at h
      obtain ⟨⟨hempty, hnew⟩, hother, hrest⟩ := h
      by_cases hx : other = x
      · subst hx
        exact ⟨other', List.mem_cons_of_mem _ List.mem_cons_self, .found⟩
      · obtain ⟨y, hy, hsame⟩ := ih (List.nodup_cons.mpr ⟨hnew, hrest⟩)
        refine ⟨y, ?_, .passed hx ?_ hsame⟩
        · apply List.cons_subset_cons _ (List.subset_cons_self _ _) hy
        · rintro rfl
          exact (List.mem_cons.mp hy).elim (fun h => hempty h.symm) hother

theorem exists_expr (h : Renamed vars taken) (e : Expr) : ∃ e', e.Alike vars e' := by
  induction e using Expr.induction_on_children with
  | node e ih =>
      by_cases hself : e.kind = .saved
      · cases e with
        | saved x =>
            obtain ⟨y, -, hy⟩ := exists_sameVariable h.nodup x
            exact ⟨_, .saved hy⟩
        | _ => cases hself
      · obtain ⟨es, hes⟩ := exists_forall₂ ih
        exact ⟨_, .node hself hes⟩

theorem exists_exprs (h : Renamed vars taken) (es : List Expr) :
    ∃ es', Expr.AlikeList vars es es' :=
  exists_forall₂ fun e _ => h.exists_expr e

theorem exists_option (h : Renamed vars taken) (value : Option Expr) :
    ∃ value' : Option Expr, Expr.AlikeList vars value.toList value'.toList := by
  cases value with
  | none => exact ⟨none, .nil⟩
  | some value =>
      obtain ⟨value', hvalue⟩ := h.exists_expr value
      exact ⟨some value', .cons hvalue .nil⟩

theorem exists_edit (h : Renamed vars taken) (edit : Edit) : ∃ edit', edit.Alike vars edit' := by
  cases edit with
  | push values =>
      obtain ⟨_, hvalues⟩ := h.exists_exprs values
      exact ⟨_, .push hvalues⟩
  | deleteField => exact ⟨_, .deleteField⟩
  | set value =>
      obtain ⟨_, hvalue⟩ := h.exists_expr value
      exact ⟨_, .set hvalue⟩

theorem exists_guard (h : Renamed vars taken) (guard : Guard) :
    ∃ guard', guard.Alike vars guard' := by
  cases guard with
  | when condition =>
      obtain ⟨_, hcondition⟩ := h.exists_expr condition
      exact ⟨_, .when hcondition⟩
  | otherwise => exact ⟨_, .otherwise⟩
  | lastly => exact ⟨_, .lastly⟩

theorem exists_target (h : Renamed vars taken) (target : Target) :
    ∃ target', target.Alike vars target' := by
  cases target with
  | saved x =>
      obtain ⟨y, -, hy⟩ := exists_sameVariable h.nodup x
      exact ⟨_, .saved hy⟩
  | globalObject name => exact ⟨_, .globalObject⟩

end Renamed

theorem exists_not_mem (taken : List String) : ∃ name : String, name ∉ taken := by
  obtain ⟨name, hname⟩ := Infinite.exists_notMem_finset taken.toFinset
  exact ⟨name, fun h => hname (List.mem_toFinset.mpr h)⟩

/-- Different names, none of which is taken. -/
def New (taken names : List String) : Prop :=
  names.Nodup ∧ names.Disjoint taken

namespace New

variable {taken names more : List String}

theorem nil : New taken [] :=
  ⟨List.nodup_nil, List.disjoint_nil_left taken⟩

theorem singleton {name : String} (h : name ∉ taken) : New taken [name] :=
  ⟨List.nodup_singleton name, List.singleton_disjoint.mpr h⟩

theorem append (h : New taken names) (hmore : New (names ++ taken) more) :
    New taken (names ++ more) := by
  obtain ⟨hnames, htaken⟩ := List.disjoint_append_right.mp hmore.2
  constructor
  · exact List.nodup_append'.mpr ⟨h.1, hmore.1, hnames.symm⟩
  · exact List.disjoint_append_left.mpr ⟨h.2, htaken⟩

theorem reverse (h : New taken names) : New taken names.reverse :=
  ⟨List.nodup_reverse.mpr h.1, fun _ hname => h.2 (List.mem_reverse.mp hname)⟩

end New

namespace Statement

mutual
/-- The variables of a statement can get new names. -/
theorem exists_alike : (s : Statement) → {vars : List (String × String)} → {taken : List String} →
    Renamed vars taken → ∃ s', s.Alike vars s' ∧ New taken s'.binders
  | .ret value, vars, taken, h => by
      obtain ⟨_, hvalue⟩ := h.exists_option value
      exact ⟨_, .ret hvalue, .nil⟩
  | .save x value, vars, taken, h => by
      obtain ⟨_, hvalue⟩ := h.exists_expr value
      obtain ⟨y, hy⟩ := exists_not_mem taken
      exact ⟨.save y _, .save hvalue, .singleton hy⟩
  | .update target level edit, vars, taken, h => by
      obtain ⟨_, htarget⟩ := h.exists_target target
      obtain ⟨_, hlevel⟩ := h.exists_exprs level
      obtain ⟨_, hedit⟩ := h.exists_edit edit
      exact ⟨_, .update htarget hlevel hedit, .nil⟩
  | .choice branches, vars, taken, h => by
      obtain ⟨branches', hbranches, hnew⟩ := exists_alikeBranches branches h
      exact ⟨_, .choice hbranches, hnew⟩
  | .forEach source x body, vars, taken, h => by
      obtain ⟨_, hsource⟩ := h.exists_expr source
      obtain ⟨y, hy⟩ := exists_not_mem taken
      have hitem : New taken [y] := .singleton hy
      have hinner : Renamed ((x, y) :: vars) (y :: taken) :=
        Renamed.declare h (p := [x]) (q := [y]) rfl hitem.1 hitem.2
      obtain ⟨body', hbody, hnew⟩ := exists_alikeBody body hinner
      exact ⟨_, .forEach hsource hbody, hitem.append hnew⟩
  | .call function args, vars, taken, h => by
      obtain ⟨_, hargs⟩ := h.exists_exprs args
      exact ⟨_, .call hargs, .nil⟩
  | .noop, vars, taken, h => ⟨_, .noop, .nil⟩
  | .setKey store key value, vars, taken, h => by
      obtain ⟨_, hkey⟩ := h.exists_exprs key
      obtain ⟨_, hvalue⟩ := h.exists_expr value
      exact ⟨_, .setKey hkey hvalue, .nil⟩
  | .deleteKey store key, vars, taken, h => by
      obtain ⟨_, hkey⟩ := h.exists_exprs key
      exact ⟨_, .deleteKey hkey, .nil⟩
  | .pushAtKey store key values, vars, taken, h => by
      obtain ⟨_, hkey⟩ := h.exists_exprs key
      obtain ⟨_, hvalues⟩ := h.exists_exprs values
      exact ⟨_, .pushAtKey hkey hvalues, .nil⟩

theorem exists_alikeBody : (body : List Statement) → {vars : List (String × String)} →
    {taken : List String} → Renamed vars taken →
    ∃ body', AlikeBody vars body body' ∧ New taken (bindersBody body')
  | [], vars, taken, h => ⟨_, .nil, .nil⟩
  | s :: rest, vars, taken, h => by
      obtain ⟨s', hs, hnew⟩ := exists_alike s h
      have hdeclares : s'.declares.Disjoint taken :=
        List.disjoint_of_subset_left s'.declares_subset_binders hnew.2
      have hsubset : s'.declares ++ taken ⊆ s'.binders ++ taken :=
        List.append_subset.mpr ⟨List.subset_append_of_subset_left _ s'.declares_subset_binders,
          List.subset_append_right _ _⟩
      have hafter :=
        (h.declare hs.length_declares s'.nodup_declares hdeclares).weaken hsubset
      obtain ⟨rest', hrest, hmore⟩ := exists_alikeBody rest hafter
      exact ⟨_, .cons hs hrest, hnew.append hmore⟩

theorem exists_alikeBranches : (branches : List (Guard × List Statement)) →
    {vars : List (String × String)} → {taken : List String} → Renamed vars taken →
    ∃ branches', AlikeBranches vars branches branches' ∧ New taken (bindersBranches branches')
  | [], vars, taken, h => ⟨_, .nil, .nil⟩
  | (guard, body) :: rest, vars, taken, h => by
      obtain ⟨_, hguard⟩ := h.exists_guard guard
      obtain ⟨body', hbody, hnew⟩ := exists_alikeBody body h
      obtain ⟨rest', hrest, hmore⟩ := exists_alikeBranches rest
        (h.weaken (List.subset_append_right (bindersBody body') taken))
      exact ⟨_, .cons hguard hbody hrest, hnew.append hmore⟩
end

end Statement

namespace Function

theorem exists_inputs (inputs : List Input) (taken : List String) : ∃ inputs' : List Input,
    inputs.map Input.schema = inputs'.map Input.schema ∧ New taken (inputs'.map Input.name) := by
  induction inputs generalizing taken with
  | nil => exact ⟨[], rfl, .nil⟩
  | cons input rest ih =>
      obtain ⟨name, hname⟩ := exists_not_mem taken
      obtain ⟨rest', hschemas, hnew⟩ := ih (name :: taken)
      refine ⟨⟨name, input.schema⟩ :: rest', congrArg (input.schema :: ·) hschemas, ?_⟩
      exact New.append (.singleton hname) hnew

/-- A function with the same meaning whose variables all have different names. -/
theorem exists_alike (f : Function) : ∃ g : Function, f.Alike g ∧ g.binders.Nodup := by
  have hstart : Renamed [] [""] := ⟨List.nodup_singleton "", List.Subset.refl _⟩
  obtain ⟨inputs, hschemas, hnew⟩ := exists_inputs f.inputs [""]
  have hlength : (f.inputs.map Input.name).length = (inputs.map Input.name).length := by
    simpa using congrArg List.length hschemas
  have hreverse := hnew.reverse
  have hinputs := hstart.declare (p := (f.inputs.map Input.name).reverse)
    (by rwa [List.length_reverse, List.length_reverse]) hreverse.1 hreverse.2
  rw [List.append_nil] at hinputs
  obtain ⟨body, hbody, hmore⟩ := Statement.exists_alikeBody f.body hinputs
  refine ⟨⟨inputs, body⟩, ⟨hschemas, hbody⟩, ?_⟩
  exact ((List.reverse_perm _).append_right _).nodup_iff.mp (hreverse.append hmore).1

/-- The names of variables do not matter. Functions that are alike have the same code and the same
actions, or are refused for faults of the same kind, and every function is like one whose variables
all have different names. -/
theorem sameResults_of_alike (f : Function) :
    (∀ g : Function, f.Alike g →
      f.compile.mapError Fault.kind = g.compile.mapError Fault.kind ∧
        f.summarize.mapError Fault.kind = g.summarize.mapError Fault.kind) ∧
      ∃ g : Function, f.Alike g ∧ g.binders.Nodup := by
  refine ⟨?_, f.exists_alike⟩
  intro g h
  exact ⟨h.sameOutcome_compile.mapError_kind, h.sameOutcome_summarize.mapError_kind⟩

/-- One name for an input, for a variable saved after it, for the item of a loop and for a variable
of the loop; another name in two branches. -/
def reusing : Function where
  inputs := [⟨"x", .null⟩]
  body :=
    [.save "x" (.arithmetic .add (.saved "x") (.int 1)),
      .forEach (.array [.saved "x"]) "x" [.save "x" (.typeOf (.saved "x"))],
      .choice
        [(.when (.bool true), [.save "y" (.saved "x")]),
          (.otherwise, [.save "y" (.int 0), .update (.saved "y") [] (.set (.saved "x"))])],
      .ret (some (.saved "x"))]

/-- The same with a name of its own for each variable. -/
def spelledOut : Function where
  inputs := [⟨"input", .null⟩]
  body :=
    [.save "next" (.arithmetic .add (.saved "input") (.int 1)),
      .forEach (.array [.saved "next"]) "item" [.save "type" (.typeOf (.saved "item"))],
      .choice
        [(.when (.bool true), [.save "copy" (.saved "next")]),
          (.otherwise, [.save "zero" (.int 0), .update (.saved "zero") [] (.set (.saved "next"))])],
      .ret (some (.saved "next"))]

theorem reusing_alike_spelledOut : reusing.Alike spelledOut := by
  refine ⟨rfl, .cons (.save ?_) (.cons (.forEach ?_ (.cons (.save ?_) .nil)) (.cons (.choice
    (.cons (.when ?_) (.cons (.save ?_) .nil) (.cons .otherwise (.cons (.save ?_)
      (.cons (.update (.saved .found) .nil (.set ?_)) .nil)) .nil))) (.cons (.ret ?_) .nil)))⟩
  · have hone : (Expr.int 1).Alike [("x", "input")] (.int 1) := .of_children (by decide) .nil rfl
    exact .of_children (by decide) (.cons (.saved .found) (.cons hone .nil)) rfl
  · exact .of_children (by decide) (.cons (.saved .found) .nil) rfl
  · exact .of_children (by decide) (.cons (.saved .found) .nil) rfl
  · exact .of_children (by decide) .nil rfl
  · exact .saved .found
  · exact .of_children (by decide) .nil rfl
  · exact .saved (.passed (by decide) (by decide) .found)
  · exact .cons (.saved .found) .nil

theorem sameResults_of_alike_spelledOut :
    reusing.Alike spelledOut ∧ ¬ reusing.binders.Nodup ∧ spelledOut.binders.Nodup ∧
      reusing.compile.mapError Fault.kind = spelledOut.compile.mapError Fault.kind ∧
      reusing.summarize.mapError Fault.kind = spelledOut.summarize.mapError Fault.kind :=
  ⟨reusing_alike_spelledOut, by decide, by decide,
    (sameResults_of_alike reusing).1 spelledOut reusing_alike_spelledOut⟩

end Function

end StoredProcedure
