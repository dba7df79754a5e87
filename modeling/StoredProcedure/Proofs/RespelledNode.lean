import StoredProcedure.Proofs.FieldAgreement
import StoredProcedure.Proofs.Respelling

namespace StoredProcedure

namespace Role

/-- The two values are read alike where they have the role. -/
def Agree : Role → Json → Json → Prop
  | .expr, j, j' =>
      (∀ levels, Expr.ofJson? levels j = Expr.ofJson? levels j') ∧ (j = .null ↔ j' = .null)
  | .field, j, j' =>
      ∀ levels, Expr.field? (Expr.ofJson? levels) j = Expr.field? (Expr.ofJson? levels) j'
  | .target, j, j' => Target.ofJson? j = Target.ofJson? j'
  | .operation, j, j' => ∀ levels, Edit.ofJson? levels j = Edit.ofJson? levels j'
  | .branch, j, j' => ∀ levels, Branch.ofJson? levels (Statement.ofJson? levels) j =
      Branch.ofJson? levels (Statement.ofJson? levels) j'
  | .statement, j, j' =>
      (∀ levels, Statement.ofJson? levels j = Statement.ofJson? levels j') ∧
        ((j.node? []).isSome = (j'.node? []).isSome)
  | .schema, j, j' => j.normalize = j'.normalize
  | .listOf role, .array items, .array items' => List.Forall₂ role.Agree items items'
  | _, j, j' => j = j'

theorem agree_refl (role : Role) (j : Json) : role.Agree j j := by
  induction role generalizing j with
  | expr => exact ⟨fun _ => rfl, Iff.rfl⟩
  | statement => exact ⟨fun _ => rfl, rfl⟩
  | field | operation | branch => exact fun _ => rfl
  | listOf role ih =>
      cases j with
      | array items => exact List.forall₂_same.mpr fun item _ => ih item
      | _ => rfl
  | _ => rfl

theorem agree_listOf {role : Role} {j j' : Json} (h : (listOf role).Agree j j') :
    j = j' ∨ ∃ items items', j = .array items ∧ j' = .array items' ∧
      List.Forall₂ role.Agree items items' := by
  cases j with
  | array items =>
      cases j' with
      | array items' => exact .inr ⟨items, items', rfl, rfl, h⟩
      | _ => exact .inl h
  | _ => exact .inl h

end Role

/-- Both are nodes of one kind among the numbered ones whose fields agree, or both are none. -/
def Json.AgreeAs (numbered : List Kind) (table : Kind → List (String × Role)) (j j' : Json) :
    Prop :=
  Option.Rel (fun node node' => node.1 = node'.1 ∧
    Fields.Agree Role.Agree (table node.1) node.2 node'.2) (j.node? numbered) (j'.node? numbered)

namespace Json

variable {α : Type} {role : Role} {read : Json → Option α} {j j' : Json}

theorem listOf?_agree (h : (Role.listOf role).Agree j j')
    (hread : ∀ x y, role.Agree x y → read x = read y) : j.listOf? read = j'.listOf? read := by
  obtain rfl | ⟨items, items', rfl, rfl, hitems⟩ := Role.agree_listOf h
  · rfl
  · show items.mapM read = items'.mapM read
    induction hitems with
    | nil => rfl
    | cons hfirst hrest ih => rw [List.mapM_cons, List.mapM_cons, hread _ _ hfirst, ih hrest]

theorem bool?_agree (h : (Role.listOf role).Agree j j') : j.bool? = j'.bool? := by
  obtain rfl | ⟨items, items', rfl, rfl, -⟩ := Role.agree_listOf h
  · rfl
  · rfl

theorem listOrMissing?_agree {x x' : Option Json} (h : Option.Rel (Role.listOf role).Agree x x')
    (hread : ∀ x y, role.Agree x y → read x = read y) :
    listOrMissing? read x = listOrMissing? read x' := by
  cases h with
  | none => rfl
  | some h => exact listOf?_agree h hread

theorem partOrMissing?_agree {x x' : Option Json} (h : Option.Rel Role.expr.Agree x x')
    (levels : Nat) : partOrMissing? (Expr.ofJson? levels) x =
      partOrMissing? (Expr.ofJson? levels) x' := by
  cases h with
  | none => rfl
  | @some j j' h =>
      by_cases hj : j = .null
      · rw [hj, h.2.mp hj]
      · have hj' : j' ≠ .null := fun hj' => hj (h.2.mpr hj')
        rw [partOrMissing?, partOrMissing?, h.1 levels]
        · rintro rfl
          exact hj' rfl
        · rintro rfl
          exact hj rfl

end Json

section Congruence

variable {j j' : Json}

theorem Datum.ofJson_agree (h : Role.schema.Agree j j') : ofJson j = ofJson j' :=
  ext_json h

theorem Expr.field?_agree
    (h : Option.Rel (Fields.Agree Role.Agree [("key", .expr), ("value", .expr)])
      j.fields? j'.fields?) (levels : Nat) :
    field? (ofJson? levels) j = field? (ofJson? levels) j' := by
  rw [field?, field?]
  apply bind_eq_of_rel h
  intro fields fields' hfields
  apply bind_eq_of_rel hfields.all
  rintro _ _ ⟨hkey, hvalue, ⟨⟩⟩
  dsimp only
  rw [hkey.1 levels, hvalue.1 levels]

theorem Expr.ofJson?_agree (h : j.AgreeAs Kind.expressions Kind.exprFields j') (levels : Nat) :
    ofJson? levels j = ofJson? levels j' := by
  obtain _ | levels := levels
  · rfl
  rw [ofJson?, ofJson?]
  apply bind_eq_of_rel h
  rintro ⟨kind, fields⟩ ⟨_, fields'⟩ ⟨rfl, hfields⟩
  have hread : ∀ x y, Role.expr.Agree x y → ofJson? levels x = ofJson? levels y :=
    fun _ _ hxy => hxy.1 levels
  cases kind with
  | bool | int | double | string | saved | globalObject | wholeObject | keysOfObject =>
      apply bind_eq_of_rel hfields.all
      rintro _ _ ⟨rfl, ⟨⟩⟩
      rfl
  | nothing =>
      apply bind_eq_of_rel hfields.all
      rintro _ _ ⟨⟩
      rfl
  | object =>
      apply bind_eq_of_rel hfields.all
      rintro _ _ ⟨hparts, ⟨⟩⟩
      dsimp only
      rw [Json.listOf?_agree hparts fun _ _ hxy => hxy levels]
  | comparison | arithmetic | logic =>
      apply bind_eq_of_rel hfields.all
      rintro _ _ ⟨rfl, hleft, hright, ⟨⟩⟩
      dsimp only
      rw [hread _ _ hleft, hread _ _ hright]
  | negation | typeOf | keys =>
      apply bind_eq_of_rel hfields.all
      rintro _ _ ⟨hvalue, ⟨⟩⟩
      dsimp only
      rw [hread _ _ hvalue]
  | hasType =>
      apply bind_eq_of_rel hfields.all
      rintro _ _ ⟨hvalue, rfl, ⟨⟩⟩
      dsimp only
      rw [hread _ _ hvalue]
  | fieldExists =>
      apply bind_eq_of_rel hfields.all
      rintro _ _ ⟨hvalue, hfield, ⟨⟩⟩
      dsimp only
      rw [hread _ _ hvalue, hread _ _ hfield]
  | array =>
      apply bind_eq_of_rel hfields.all
      rintro _ _ ⟨hvalues, ⟨⟩⟩
      dsimp only
      rw [Json.listOf?_agree hvalues hread]
  | keyOfObject =>
      apply bind_eq_of_rel hfields.all
      rintro _ _ ⟨rfl, hkey, ⟨⟩⟩
      dsimp only
      rw [Json.listOf?_agree hkey hread]
  | keyExists =>
      apply bind_eq_of_rel hfields.all
      rintro _ _ ⟨rfl, hkey, ⟨⟩⟩
      dsimp only
      rw [hread _ _ hkey]
  | selection =>
      apply bind_eq_of_rel hfields
      rintro _ _ ⟨⟨hroot⟩ | _, hlevel, ⟨⟩⟩
      · dsimp only
        rw [hread _ _ hroot, Json.listOrMissing?_agree hlevel hread]
      · rfl
  | call =>
      apply bind_eq_of_rel hfields
      rintro _ _ ⟨⟨rfl⟩ | _, hargs, ⟨⟩⟩
      · dsimp only
        rw [Json.listOrMissing?_agree hargs hread]
      · rfl
  | role =>
      apply bind_eq_of_rel hfields
      rintro _ _ ⟨⟨hschema⟩ | _, hstate, ⟨⟩⟩
      · dsimp only
        rw [Datum.ofJson_agree hschema, Json.partOrMissing?_agree hstate levels]
      · rfl
  | _ => rfl

theorem Target.ofJson?_agree (h : j.AgreeAs Kind.targets Kind.targetFields j') :
    ofJson? j = ofJson? j' := by
  rw [ofJson?, ofJson?]
  apply bind_eq_of_rel h
  rintro ⟨kind, fields⟩ ⟨_, fields'⟩ ⟨rfl, hfields⟩
  cases kind with
  | saved | globalObject =>
      apply bind_eq_of_rel hfields.all
      rintro _ _ ⟨rfl, ⟨⟩⟩
      rfl
  | _ => rfl

theorem Edit.ofNode?_agree (h : j.AgreeAs Kind.edits Kind.editFields j') (levels : Nat) :
    ofNode? levels j = ofNode? levels j' := by
  rw [ofNode?, ofNode?]
  apply bind_eq_of_rel h
  rintro ⟨kind, fields⟩ ⟨_, fields'⟩ ⟨rfl, hfields⟩
  cases kind with
  | push =>
      apply bind_eq_of_rel hfields.all
      rintro _ _ ⟨hvalues, ⟨⟩⟩
      dsimp only
      rw [Json.listOf?_agree hvalues fun _ _ hxy => hxy.1 levels]
  | deleteField =>
      apply bind_eq_of_rel hfields.all
      rintro _ _ ⟨⟩
      rfl
  | _ => rfl

/-- What is not read as another edit has to agree as a value. -/
theorem Edit.ofJson?_agree (h : j.AgreeAs Kind.edits Kind.editFields j') (levels : Nat)
    (hvalue : ofNode? levels j = none → Expr.ofJson? levels j = Expr.ofJson? levels j') :
    ofJson? levels j = ofJson? levels j' := by
  rw [ofJson?, ofJson?, ← ofNode?_agree h levels]
  cases hedit : ofNode? levels j with
  | none => rw [hvalue hedit]
  | some edit => rfl

theorem Branch.ofJson?_agree (h : j.AgreeAs Kind.branches Kind.branchFields j') (levels : Nat) :
    ofJson? levels (Statement.ofJson? levels) j =
      ofJson? levels (Statement.ofJson? levels) j' := by
  rw [ofJson?, ofJson?]
  apply bind_eq_of_rel h
  rintro ⟨kind, fields⟩ ⟨_, fields'⟩ ⟨rfl, hfields⟩
  cases kind with
  | conditional =>
      apply bind_eq_of_rel hfields.all
      rintro _ _ ⟨hcondition, hbody, ⟨⟩⟩
      dsimp only
      rw [hcondition.1 levels, Json.listOf?_agree hbody fun _ _ hxy => hxy.1 levels]
  | otherwise | lastly =>
      apply bind_eq_of_rel hfields.all
      rintro _ _ ⟨hbody, ⟨⟩⟩
      dsimp only
      rw [Json.listOf?_agree hbody fun _ _ hxy => hxy.1 levels]
  | _ => rfl

theorem Statement.ofJson?_agree (h : j.AgreeAs Kind.statements Kind.statementFields j')
    (levels : Nat) : ofJson? levels j = ofJson? levels j' := by
  obtain _ | levels := levels
  · rfl
  rw [ofJson?, ofJson?]
  apply bind_eq_of_rel h
  rintro ⟨kind, fields⟩ ⟨_, fields'⟩ ⟨rfl, hfields⟩
  have hread : ∀ x y, Role.expr.Agree x y → Expr.ofJson? levels x = Expr.ofJson? levels y :=
    fun _ _ hxy => hxy.1 levels
  cases kind with
  | ret =>
      apply bind_eq_of_rel hfields
      rintro _ _ ⟨hvalue, ⟨⟩⟩
      dsimp only
      rw [Json.partOrMissing?_agree hvalue levels]
  | save =>
      apply bind_eq_of_rel hfields.all
      rintro _ _ ⟨rfl, hvalue, ⟨⟩⟩
      dsimp only
      rw [hread _ _ hvalue]
  | update =>
      apply bind_eq_of_rel hfields
      rintro _ _ ⟨⟨htarget⟩ | _, hlevel, ⟨hedit⟩ | _, ⟨⟩⟩
      · dsimp only
        rw [htarget, Json.listOrMissing?_agree hlevel hread, hedit levels]
      · rfl
      · rfl
      · rfl
  | choice =>
      apply bind_eq_of_rel hfields.all
      rintro _ _ ⟨hbranches, ⟨⟩⟩
      dsimp only
      rw [Json.listOf?_agree hbranches fun _ _ hxy => hxy levels]
  | forEach =>
      apply bind_eq_of_rel hfields.all
      rintro _ _ ⟨hsource, rfl, hbody, ⟨⟩⟩
      dsimp only
      rw [hread _ _ hsource, Json.listOf?_agree hbody fun _ _ hxy => hxy.1 levels]
  | call =>
      apply bind_eq_of_rel hfields
      rintro _ _ ⟨⟨rfl⟩ | _, hargs, ⟨⟩⟩
      · dsimp only
        rw [Json.listOrMissing?_agree hargs hread]
      · rfl
  | noop =>
      apply bind_eq_of_rel hfields.all
      rintro _ _ ⟨⟩
      rfl
  | setKey =>
      apply bind_eq_of_rel hfields.all
      rintro _ _ ⟨rfl, hkey, hvalue, ⟨⟩⟩
      dsimp only
      rw [Json.listOf?_agree hkey hread, hread _ _ hvalue]
  | deleteKey =>
      apply bind_eq_of_rel hfields.all
      rintro _ _ ⟨rfl, hkey, ⟨⟩⟩
      dsimp only
      rw [Json.listOf?_agree hkey hread]
  | pushAtKey =>
      apply bind_eq_of_rel hfields.all
      rintro _ _ ⟨rfl, hkey, hvalues, ⟨⟩⟩
      dsimp only
      rw [Json.listOf?_agree hkey hread, Json.listOf?_agree hvalues hread]
  | _ => rfl

end Congruence

namespace Json

theorem node?_object (entries : List (String × Json)) (numbered : List Kind) :
    (object entries).node? numbered = (((Fields.unique? "kind" entries).bind id).bind
      (Kind.ofJson? numbered)).map fun kind => (kind, .named entries) := by
  simp [node?, Option.bind_assoc, Option.map_eq_bind]

theorem node?_array (kind : Json) (items : List Json) (numbered : List Kind) :
    (array (kind :: items)).node? numbered =
      (Kind.ofJson? numbered kind).map fun kind => (kind, .listed items) := by
  simp [node?, Option.map_eq_bind]

def kind? (j : Json) (numbered : List Kind) : Option Kind :=
  (j.node? numbered).map Prod.fst

theorem kind?_object (entries : List (String × Json)) (numbered : List Kind) :
    (object entries).kind? numbered =
      ((Fields.unique? "kind" entries).bind id).bind (Kind.ofJson? numbered) := by
  rw [kind?, node?_object, Option.map_map]
  exact Option.map_id'

theorem kind?_array (kind : Json) (items : List Json) (numbered : List Kind) :
    (array (kind :: items)).kind? numbered = Kind.ofJson? numbered kind := by
  rw [kind?, node?_array, Option.map_map]
  exact Option.map_id'

theorem kind?_of_push {j : Json} (h : j.kind? Kind.edits = some .push) :
    j.kind? Kind.expressions = some .push ∨ j.kind? Kind.expressions = some .bool := by
  have htag : ∀ tag : Json, Kind.ofJson? Kind.edits tag = some .push →
      Kind.ofJson? Kind.expressions tag = some .push ∨
        Kind.ofJson? Kind.expressions tag = some .bool := by
    intro tag htag
    cases tag with
    | string name => exact .inl htag
    | int index =>
        rw [Kind.ofJson?] at htag ⊢
        split at htag
        · rename_i hpos
          rw [if_pos hpos]
          generalize index.val.toNat = n at htag ⊢
          obtain _ | _ | n := n
          · exact .inr rfl
          · cases htag
          · cases htag
        · cases htag
    | _ => cases htag
  cases j with
  | object entries =>
      rw [kind?_object, Option.bind_eq_some_iff] at h
      obtain ⟨tag, hfound, h⟩ := h
      rw [kind?_object, hfound]
      exact htag tag h
  | array items =>
      cases items with
      | nil => cases h
      | cons tag items =>
          rw [kind?_array] at h ⊢
          exact htag tag h
  | _ => cases h

end Json

namespace Kind

theorem operationFields_cases {P : List (String × Role) → Prop}
    (hboth : P [("values", .listOf .expr), ("value", .plain)])
    (hpush : P [("values", .listOf .expr)]) (hnone : P []) (hvalue : ∀ kind, P (exprFields kind))
    (edit value : Option Kind) : P (operationFields edit value) := by
  unfold operationFields
  split
  · split
    · exact hboth
    · exact hpush
  · exact hnone
  · cases value with
    | none => exact hnone
    | some kind => exact hvalue kind

theorem operationFields_eq {edit : Option Kind} (hpush : edit ≠ some .push)
    (hdelete : edit ≠ some .deleteField) (kind : Kind) :
    operationFields edit (some kind) = kind.exprFields := by
  unfold operationFields
  split
  · exact absurd rfl hpush
  · exact absurd rfl hdelete
  · rfl

end Kind

namespace Role

/-- What is read as a whole: nodes and what is in them. -/
def isInner : Role → Bool
  | .listOf role => role.isInner
  | .field | .schema | .plain => true
  | role => role.isNode

theorem not_isOuter {role : Role} (h : role.isInner = true) : ¬ role.isOuter = true := by
  intro houter
  cases role with
  | program | function | input => cases h
  | _ => cases houter

theorem nodup_declared (role : Role) (kind? : List Kind → Option Kind) :
    ((role.declared kind?).map Prod.fst).Nodup := by
  cases role with
  | listOf role => exact .nil
  | expr | target | branch | statement =>
      simp only [declared, fields]
      generalize kind? _ = kind
      cases kind with
      | none => decide
      | some kind => cases kind <;> decide
  | operation =>
      apply Kind.operationFields_cases (P := fun fields => ((_ ++ fields).map Prod.fst).Nodup)
      · decide
      · decide
      · decide
      · intro kind
        cases kind <;> decide
  | _ => simp [declared, isNode, fields]

theorem isInner_of_mem_declared {role : Role} (hrole : role.isInner = true)
    (kind? : List Kind → Option Kind) :
    ∀ field ∈ role.declared kind?, field.2.isInner = true := by
  cases role with
  | listOf role => exact fun _ h => absurd h List.not_mem_nil
  | field | schema | plain => simp [declared, isNode, fields, isInner]
  | expr | target | branch | statement =>
      simp only [declared, fields]
      generalize kind? _ = kind
      cases kind with
      | none => decide
      | some kind => cases kind <;> decide
  | operation =>
      apply Kind.operationFields_cases
        (P := fun fields => ∀ field ∈ _ ++ fields, field.2.isInner = true)
      · decide
      · decide
      · decide
      · intro kind
        cases kind <;> decide
  | _ => cases hrole

variable {role : Role} {kind? : List Kind → Option Kind}

theorem ofMember_of_mem (hrole : role.isRecord = true) {field : String × Role}
    (hfield : field ∈ role.declared kind?) : role.ofMember kind? (some field.1) = field.2 := by
  have hfind : ((role.declared kind?).find? fun other => some other.1 = some field.1) =
      some field := by
    have hnodup := role.nodup_declared kind?
    generalize role.declared kind? = table at hfield hnodup
    induction table with
    | nil => cases hfield
    | cons first rest ih =>
        obtain ⟨hfirst, hrest⟩ := List.nodup_cons.mp hnodup
        obtain rfl | hfield := List.mem_cons.mp hfield
        · exact List.find?_cons_of_pos (by simp)
        · have hne : first.1 ≠ field.1 := fun heq => hfirst (heq ▸ List.mem_map_of_mem hfield)
          rw [List.find?_cons_of_neg (by simpa using hne)]
          exact ih hfield hrest
  cases role with
  | functions | schema => cases hrole
  | _ => exact congrArg (fun found => Option.elim found plain Prod.snd) hfind

theorem ofItem_of_getElem? (hrole : role.isRecord = true) {index : Nat} {field : String × Role}
    (hfield : (role.declared kind?)[index]? = some field) :
    role.ofItem kind? index = field.2 := by
  cases role with
  | schema | listOf => cases hrole
  | _ => exact congrArg (fun found => Option.elim found plain Prod.snd) hfield

theorem isInner_elim {found : Option (String × Role)}
    (h : ∀ field, found = some field → field.2.isInner = true) :
    (found.elim plain Prod.snd).isInner = true := by
  cases found with
  | none => rfl
  | some field => exact h field rfl

theorem isInner_ofMember (hrole : role.isInner = true) (key : Option String) :
    (role.ofMember kind? key).isInner = true := by
  have hdeclared := isInner_elim fun field hfield =>
    isInner_of_mem_declared hrole kind? field
      (List.mem_of_find?_eq_some (p := fun field => some field.1 = key) hfield)
  cases role with
  | schema => rfl
  | functions => cases hrole
  | _ => exact hdeclared

theorem isInner_ofItem (hrole : role.isInner = true) (index : Nat) :
    (role.ofItem kind? index).isInner = true := by
  have hdeclared := isInner_elim fun field hfield =>
    isInner_of_mem_declared hrole kind? field (List.mem_of_getElem? (i := index) hfield)
  cases role with
  | schema => rfl
  | listOf role => exact hrole
  | _ => exact hdeclared

section Node

variable {numbered : List Kind} {table : Kind → List (String × Role)}

theorem agreeAs_object {entries entries' : List (String × Json)}
    (hkind : Fields.unique? "kind" entries = Fields.unique? "kind" entries')
    (h : ∀ kind, (Json.object entries).kind? numbered = some kind →
      Fields.AgreeNamed Agree (table kind) entries entries') :
    (Json.object entries).AgreeAs numbered table (.object entries') := by
  simp only [Json.kind?_object] at h
  rw [Json.AgreeAs, Json.node?_object, Json.node?_object, ← hkind]
  generalize ((Fields.unique? "kind" entries).bind id).bind (Kind.ofJson? numbered) = found at h ⊢
  cases found with
  | none => exact .none
  | some kind => exact .some ⟨rfl, (h kind rfl).agree⟩

theorem agreeAs_array {place : Nat → Role} {items items' : List Json}
    (h : Fields.AgreeListed Agree place items items') (hzero : place 0 = .plain)
    (hplace : ∀ kind, (Json.array items).kind? numbered = some kind →
      ∀ (i : Nat) (field : String × Role), (table kind)[i]? = some field →
        place (i + 1) = field.2) :
    (Json.array items).AgreeAs numbered table (.array items') := by
  cases items with
  | nil =>
      obtain rfl := List.eq_nil_of_length_eq_zero h.1.symm
      exact .none
  | cons first items =>
      cases items' with
      | nil => cases h.1
      | cons first' items' =>
          obtain ⟨hfirst, hrest⟩ := h.tail
          rw [hzero] at hfirst
          obtain rfl : first = first' := hfirst
          simp only [Json.kind?_array] at hplace
          rw [Json.AgreeAs, Json.node?_array, Json.node?_array]
          cases hkind : Kind.ofJson? numbered first with
          | none => exact .none
          | some kind => exact .some ⟨rfl, hrest.agree (hplace kind hkind)⟩

section Object

variable {entries entries' : List (String × Json)}

theorem agreeNamed_of_declared (hrole : role.isNode = true)
    (h : Fields.AgreeNamed Agree (role.declared kind?) entries entries') :
    Fields.unique? "kind" entries = Fields.unique? "kind" entries' ∧
      Fields.AgreeNamed Agree (role.fields kind?) entries entries' := by
  rw [declared, if_pos hrole] at h
  obtain ⟨hkind, hfields⟩ := List.forall_mem_cons.mp h
  exact ⟨eq_of_rel_eq (rel_mono hkind fun _ _ _ _ => eq_of_rel_eq), hfields⟩

theorem agreeAs_of_named (hrole : role.isNode = true)
    (h : Fields.AgreeNamed Agree (role.declared (Json.object entries).kind?) entries entries')
    (hfields : role.fields (Json.object entries).kind? =
      ((Json.object entries).kind? numbered).elim [] table) :
    (Json.object entries).AgreeAs numbered table (.object entries') := by
  obtain ⟨hkind, hnamed⟩ := agreeNamed_of_declared hrole h
  apply agreeAs_object hkind
  intro kind hfound
  rwa [hfields, hfound] at hnamed

/-- A number that stands for a push and for a boolean is read as one or the other, so the fields of
both have to agree. -/
theorem agree_operation_object
    (h : Fields.AgreeNamed Agree (operation.declared (Json.object entries).kind?) entries
      entries') : operation.Agree (.object entries) (.object entries') := by
  obtain ⟨hkind, hnamed⟩ := agreeNamed_of_declared rfl h
  have hedit : (Json.object entries).AgreeAs Kind.edits Kind.editFields (.object entries') := by
    apply agreeAs_object hkind
    rintro kind hfound field hfield
    rw [fields, hfound] at hnamed
    cases kind with
    | push =>
        obtain rfl := List.mem_singleton.mp hfield
        exact hnamed _ List.mem_cons_self
    | _ => cases hfield
  intro levels
  apply Edit.ofJson?_agree hedit
  intro hnone
  apply Expr.ofJson?_agree
  apply agreeAs_object hkind
  intro kind hvalue field hfield
  apply hnamed
  rw [fields, hvalue]
  by_cases hdelete : (Json.object entries).kind? Kind.edits = some .deleteField
  · rw [Json.kind?_object] at hdelete
    rw [Edit.ofNode?, Json.node?_object, hdelete] at hnone
    cases hnone
  · by_cases hpush : (Json.object entries).kind? Kind.edits = some .push
    · rw [hpush]
      obtain hpush | hbool := Json.kind?_of_push hpush
      · obtain rfl := Option.some.inj (hvalue.symm.trans hpush)
        cases hfield
      · obtain rfl := Option.some.inj (hvalue.symm.trans hbool)
        exact List.mem_cons_of_mem _ hfield
    · rw [Kind.operationFields_eq hpush hdelete]
      exact hfield

end Object

section Array

variable {items items' : List Json}

theorem ofItem_zero (hrole : role.isNode = true) : role.ofItem kind? 0 = .plain := by
  cases role with
  | expr | target | operation | branch | statement => rfl
  | _ => cases hrole

theorem ofItem_succ (hrole : role.isNode = true) {i : Nat} {field : String × Role}
    (hfield : (role.fields kind?)[i]? = some field) : role.ofItem kind? (i + 1) = field.2 := by
  apply ofItem_of_getElem?
  · simp [isRecord, hrole]
  · rw [declared, if_pos hrole]
    exact hfield

theorem agreeAs_of_listed (hrole : role.isNode = true)
    (h : Fields.AgreeListed Agree (role.ofItem (Json.array items).kind?) items items')
    (hfields : role.fields (Json.array items).kind? =
      ((Json.array items).kind? numbered).elim [] table) :
    (Json.array items).AgreeAs numbered table (.array items') := by
  apply agreeAs_array h (ofItem_zero hrole)
  intro kind hfound i field hfield
  apply ofItem_succ hrole
  rwa [hfields, hfound]

theorem ofJson?_bool_agree {j j' : Json}
    (h : j.AgreeAs Kind.expressions (fun _ => [("value", .listOf .expr)]) j')
    (hbool : j.kind? Kind.expressions = some .bool) (levels : Nat) :
    Expr.ofJson? levels j = Expr.ofJson? levels j' := by
  obtain _ | levels := levels
  · rfl
  rw [Json.kind?] at hbool
  rw [Expr.ofJson?, Expr.ofJson?]
  rw [Json.AgreeAs] at h
  generalize j.node? Kind.expressions = node, j'.node? Kind.expressions = node' at h hbool ⊢
  cases h with
  | none => rfl
  | @some node node' hnode =>
      obtain ⟨kind, fields⟩ := node
      obtain ⟨_, fields'⟩ := node'
      obtain ⟨rfl, hfields⟩ := hnode
      obtain rfl : kind = .bool := Option.some.inj hbool
      apply bind_eq_of_rel hfields.all
      rintro _ _ ⟨hvalue, ⟨⟩⟩
      dsimp only
      rw [Json.bool?_agree hvalue]

theorem agree_operation_array
    (h : Fields.AgreeListed Agree (operation.ofItem (Json.array items).kind?) items items') :
    operation.Agree (.array items) (.array items') := by
  have hedit : (Json.array items).AgreeAs Kind.edits Kind.editFields (.array items') := by
    apply agreeAs_array h (ofItem_zero rfl)
    intro kind hfound i field hfield
    apply ofItem_succ rfl
    rw [fields, hfound]
    cases kind with
    | push =>
        obtain _ | i := i
        · exact hfield
        · cases hfield
    | _ => cases hfield
  intro levels
  apply Edit.ofJson?_agree hedit
  intro hnone
  by_cases hdelete : (Json.array items).kind? Kind.edits = some .deleteField
  · have hplain : ∀ i, operation.ofItem (Json.array items).kind? i = .plain := by
      intro i
      show Option.elim (operation.declared _)[i]? plain Prod.snd = plain
      rw [declared, fields, hdelete]
      obtain _ | i := i <;> rfl
    obtain rfl : items = items' := by
      apply List.ext_getElem h.1
      intro i hi hi'
      have hitem := h.2 i _ _ (List.getElem?_eq_getElem hi) (List.getElem?_eq_getElem hi')
      rwa [hplain] at hitem
    rfl
  · by_cases hpush : (Json.array items).kind? Kind.edits = some .push
    · obtain hvalue | hvalue := Json.kind?_of_push hpush
      · apply Expr.ofJson?_agree
        apply agreeAs_array h (ofItem_zero rfl)
        intro kind hfound i field hfield
        obtain rfl := Option.some.inj (hvalue.symm.trans hfound)
        cases hfield
      · apply ofJson?_bool_agree _ hvalue
        apply agreeAs_array h (ofItem_zero rfl)
        intro kind _ i field hfield
        obtain _ | i := i
        · obtain rfl := Option.some.inj hfield
          have hvalues : (operation.fields (Json.array items).kind?)[0]? =
              some ("values", .listOf .expr) := by
            rw [fields, hpush]
            rfl
          exact (ofItem_succ rfl hvalues).trans rfl
        · cases hfield
    · apply Expr.ofJson?_agree
      apply agreeAs_array h (ofItem_zero rfl)
      intro kind hfound i field hfield
      apply ofItem_succ rfl
      rwa [fields, hfound, Kind.operationFields_eq hpush hdelete]

end Array

end Node

theorem isSome_node?_of_agreeAs {j j' : Json} {numbered : List Kind}
    (h : j.AgreeAs numbered (fun _ => []) j') :
    (j.node? numbered).isSome = (j'.node? numbered).isSome := by
  rw [Json.AgreeAs] at h
  generalize j.node? numbered = node, j'.node? numbered = node' at h ⊢
  cases h <;> rfl

theorem agree_object {entries entries' : List (String × Json)} (hrole : role.isRecord = true)
    (hinner : role.isInner = true)
    (h : Fields.AgreeNamed Agree (role.declared (Json.object entries).kind?) entries entries') :
    role.Agree (.object entries) (.object entries') := by
  cases role with
  | expr => exact ⟨Expr.ofJson?_agree (agreeAs_of_named rfl h rfl), by simp⟩
  | target => exact Target.ofJson?_agree (agreeAs_of_named rfl h rfl)
  | operation => exact agree_operation_object h
  | branch => exact Branch.ofJson?_agree (agreeAs_of_named rfl h rfl)
  | statement =>
      refine ⟨Statement.ofJson?_agree (agreeAs_of_named rfl h rfl), isSome_node?_of_agreeAs ?_⟩
      apply agreeAs_object (agreeNamed_of_declared rfl h).1
      exact fun _ _ _ hfield => absurd hfield List.not_mem_nil
  | field => exact Expr.field?_agree (.some h.agree)
  | program | function | input => cases hinner
  | _ => cases hrole

theorem agree_array {items items' : List Json} (hrole : role.isRecord = true)
    (hinner : role.isInner = true)
    (h : Fields.AgreeListed Agree (role.ofItem (Json.array items).kind?) items items') :
    role.Agree (.array items) (.array items') := by
  cases role with
  | expr => exact ⟨Expr.ofJson?_agree (agreeAs_of_listed rfl h rfl), by simp⟩
  | target => exact Target.ofJson?_agree (agreeAs_of_listed rfl h rfl)
  | operation => exact agree_operation_array h
  | branch => exact Branch.ofJson?_agree (agreeAs_of_listed rfl h rfl)
  | statement =>
      refine ⟨Statement.ofJson?_agree (agreeAs_of_listed rfl h rfl), isSome_node?_of_agreeAs ?_⟩
      apply agreeAs_array h (ofItem_zero rfl)
      exact fun _ _ _ _ hfield => nomatch hfield
  | field =>
      refine Expr.field?_agree (.some (h.agree ?_))
      exact fun _ _ hfield => ofItem_of_getElem? rfl hfield
  | program | function | input => cases hinner
  | _ => cases hrole

end Role

end StoredProcedure
