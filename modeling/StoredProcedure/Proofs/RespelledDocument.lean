import StoredProcedure.Proofs.RespelledNode

namespace StoredProcedure

namespace Document

variable {α : Type}

def member? (read : Document → Option α) (member : Option String × Document) :
    Option (String × α) := do
  return (← member.1, ← read member.2)

/-- The members of an object, each read by `read`. -/
def members? (read : Document → Option α) (members : List (Option String × Document)) :
    Option (List (String × α)) :=
  members.mapM (member? read)

theorem json?_object (members : List (Option String × Document)) (levels : Nat) :
    (object members).json? (levels + 1) =
      (members? (fun d => d.json? levels) members).map .object := by
  have hmembers : jsonMembers? members levels = members? (fun d => d.json? levels) members := by
    induction members with
    | nil => rfl
    | cons member rest ih =>
        obtain ⟨key, d⟩ := member
        rw [jsonMembers?, ih, members?, members?, List.mapM_cons, member?]
        cases key with
        | none => rfl
        | some key => cases d.json? levels <;> rfl
  rw [json?, hmembers]

theorem json?_array (items : List Document) (levels : Nat) :
    (array items).json? (levels + 1) =
      (items.mapM fun d : Document => d.json? levels).map .array := by
  have hitems : jsonItems? items levels = items.mapM fun d => d.json? levels := by
    induction items with
    | nil => rfl
    | cons item rest ih => rw [jsonItems?, ih, List.mapM_cons]
  rw [json?, hitems]

section Members

variable {read : Document → Option α} {R : Role → α → α → Prop} {table : List (String × Role)}
  {members members' before after : List (Option String × Document)}

theorem members?_permute (hR : ∀ role a, R role a a) (h : members.Perm members') :
    Option.Rel (Fields.AgreeNamed R table) (members? read members) (members? read members') := by
  apply rel_mono (rel_mapM_perm h)
  intro entries entries' _ _ hperm
  exact Fields.agreeNamed_of_eq hR fun _ _ => Fields.unique?_perm hperm

theorem member?_eq_some {member : Option String × Document} {entry : String × α} :
    member? read member = some entry ↔
      member.1 = some entry.1 ∧ read member.2 = some entry.2 := by
  rw [member?, bind_eq_some]
  constructor
  · rintro ⟨name, hname, h⟩
    obtain ⟨a, ha, hentry⟩ := bind_eq_some.mp h
    cases hentry
    exact ⟨hname, ha⟩
  · rintro ⟨hname, ha⟩
    refine ⟨entry.1, hname, ?_⟩
    rw [ha]
    rfl

theorem members?_insert (hR : ∀ role a, R role a a) {member : Option String × Document}
    {entry : String × α} (hmember : member? read member = some entry)
    (hname : ∀ field ∈ table, member.1 ≠ some field.1) :
    Option.Rel (Fields.AgreeNamed R table) (members? read (before ++ after))
      (members? read (before ++ member :: after)) := by
  rw [members?, members?, List.mapM_append, List.mapM_append, List.mapM_cons, hmember]
  apply rel_bind_same
  intro first
  cases after.mapM (member? read) with
  | none => exact .none
  | some last =>
      refine .some (Fields.agreeNamed_of_eq hR fun field hfield => (Fields.unique?_insert ?_).symm)
      intro hentry
      exact hname field hfield (hentry ▸ (member?_eq_some.mp hmember).1)

theorem member?_rel {key : Option String} {d d' : Document} {T : α → α → Prop}
    (h : Option.Rel T (read d) (read d')) :
    Option.Rel (fun entry entry' : String × α =>
        entry.1 = entry'.1 ∧ some entry.1 = key ∧ T entry.2 entry'.2)
      (member? read (key, d)) (member? read (key, d')) := by
  cases key with
  | none => exact .none
  | some name =>
      apply rel_bind h
      intro a a' hab
      exact .some ⟨rfl, rfl, hab⟩

theorem members?_split {key : Option String} {d d' : Document} {T : α → α → Prop}
    (h : Option.Rel T (read d) (read d')) :
    Option.Rel (fun entries entries' => ∃ (first last : List (String × α)) (name : String)
        (a a' : α), entries = first ++ (name, a) :: last ∧ entries' = first ++ (name, a') :: last ∧
          some name = key ∧ T a a')
      (members? read (before ++ (key, d) :: after))
      (members? read (before ++ (key, d') :: after)) := by
  apply rel_mono (rel_mapM_replace (member?_rel h))
  rintro _ _ - - ⟨first, last, ⟨name, a⟩, ⟨_, a'⟩, -, rfl, rfl, rfl, hkey, hab⟩
  exact ⟨first, last, name, a, a', rfl, rfl, hkey, hab⟩

theorem members?_replace (hR : ∀ role a, R role a a) {key : Option String} {d d' : Document}
    {T : α → α → Prop} (h : Option.Rel T (read d) (read d'))
    (hT : ∀ field ∈ table, some field.1 = key → ∀ a a', T a a' → R field.2 a a') :
    Option.Rel (Fields.AgreeNamed R table) (members? read (before ++ (key, d) :: after))
      (members? read (before ++ (key, d') :: after)) := by
  apply rel_mono (members?_split h)
  rintro _ _ - - ⟨first, last, name, a, a', rfl, rfl, hkey, hab⟩
  have hsame : ∀ entries : List (String × α), List.Forall₂ (fun entry entry' =>
      entry.1 = entry'.1 ∧ ∀ field ∈ table, field.1 = entry.1 → R field.2 entry.2 entry'.2)
        entries entries :=
    fun entries => List.forall₂_same.mpr fun _ _ => ⟨rfl, fun _ _ _ => hR _ _⟩
  apply Fields.agreeNamed_of_forall₂
  apply List.rel_append (hsame first)
  refine .cons ⟨rfl, ?_⟩ (hsame last)
  intro field hfield heq
  exact hT field hfield (heq ▸ hkey) a a' hab

theorem members?_cons_eq_some {member : Option String × Document} {entries : List (String × α)}
    (h : members? read (member :: members) = some entries) :
    ∃ entry rest, member? read member = some entry ∧ members? read members = some rest ∧
      entries = entry :: rest := by
  rw [members?, List.mapM_cons] at h
  obtain ⟨entry, hentry, h⟩ := bind_eq_some.mp h
  obtain ⟨rest, hrest, h⟩ := bind_eq_some.mp h
  cases h
  exact ⟨entry, rest, hentry, hrest, rfl⟩

theorem members?_filter {entries : List (String × α)} (h : members? read members = some entries)
    (name : String) :
    members? read (members.filter fun member => member.1 = some name) =
      some (entries.filter fun entry => entry.1 = name) := by
  induction members generalizing entries with
  | nil =>
      cases h
      rfl
  | cons member rest ih =>
      obtain ⟨entry, entries, hentry, hentries, rfl⟩ := members?_cons_eq_some h
      have hkey := (member?_eq_some.mp hentry).1
      by_cases hname : entry.1 = name
      · rw [List.filter_cons_of_pos (by simpa [hkey] using hname),
          List.filter_cons_of_pos (by simpa using hname), members?, List.mapM_cons, hentry]
        show members? read _ >>= _ = _
        rw [ih hentries]
        rfl
      · rw [List.filter_cons_of_neg (by simpa [hkey] using hname),
          List.filter_cons_of_neg (by simpa using hname)]
        exact ih hentries

theorem members?_rearrange (h : members.Perm members')
    (hnames : ∀ name : String, (members.filter fun member => member.1 = some name) =
      members'.filter fun member => member.1 = some name) :
    Option.Rel (fun entries entries' : List (String × α) => ∀ name : String,
        (entries.filter fun entry => entry.1 = name) =
          entries'.filter fun entry => entry.1 = name)
      (members? read members) (members? read members') := by
  have hperm : Option.Rel List.Perm (members? read members) (members? read members') :=
    rel_mapM_perm h
  apply rel_mono hperm
  intro entries entries' hread hread' _ name
  have hfilter := members?_filter hread name
  rw [hnames name, members?_filter hread' name] at hfilter
  exact (Option.some.inj hfilter).symm

end Members

theorem number_of_json? {n : Numeral} {j : Json} (h : n.json? = some j) :
    (∃ value, j = .int value) ∨ ∃ value, j = .double value := by
  obtain ⟨_, h⟩ | ⟨_, h⟩ := dite_eq_iff.mp h
  · cases h
    exact .inl ⟨_, rfl⟩
  · obtain ⟨value, -, rfl⟩ := Option.map_eq_some_iff.mp h
    exact .inr ⟨value, rfl⟩

theorem ofDocument?_of_json? {d : Document} {levels : Nat} {j : Json}
    (h : d.json? levels = some j) (numbered : List Kind) :
    Kind.ofDocument? numbered d = Kind.ofJson? numbered j := by
  cases d with
  | null | bool =>
      cases h
      rfl
  | number n =>
      have hzero : (number n).json? 0 = some j := h
      rw [Kind.ofDocument?, hzero, Option.bind_some]
  | string text =>
      have hzero : (string text).json? 0 = some j := h
      rw [Kind.ofDocument?, hzero, Option.bind_some]
  | array items =>
      obtain _ | levels := levels
      · cases h
      · obtain ⟨values, -, rfl⟩ := Option.map_eq_some_iff.mp h
        rfl
  | object members =>
      obtain _ | levels := levels
      · cases h
      · obtain ⟨values, -, rfl⟩ := Option.map_eq_some_iff.mp h
        rfl

theorem isSome_mapM {β : Type} {f : α → Option β} {xs : List α} :
    (xs.mapM f).isSome = true ↔ ∀ x ∈ xs, (f x).isSome = true := by
  induction xs with
  | nil => simp
  | cons x rest ih =>
      rw [List.mapM_cons, List.forall_mem_cons, ← ih]
      cases f x <;> cases rest.mapM f <;> simp

theorem isSome_member? {read : Document → Option α} {member : Option String × Document} :
    (member? read member).isSome = true ↔
      member.1.isSome = true ∧ (read member.2).isSome = true := by
  rw [member?]
  cases member.1 <;> cases read member.2 <;> simp

/-- A document has a value exactly if it is within the limits and its strings are texts. -/
theorem isSome_json?_iff : (limit : Nat) → (d : Document) →
    ((d.json? limit).isSome = true ↔ d.WithinLimits limit ∧ d.WellEncoded)
  | _, .null => ⟨fun _ => ⟨.null, .null⟩, fun _ => rfl⟩
  | _, .bool _ => ⟨fun _ => ⟨.bool, .bool⟩, fun _ => rfl⟩
  | _, .number _ => ⟨fun h => ⟨.number h, .number⟩, fun ⟨.number h, _⟩ => h⟩
  | _, .string _ =>
      ⟨fun h => ⟨.string, .string (Option.isSome_map.symm.trans h)⟩,
        fun ⟨_, .string h⟩ => Option.isSome_map.trans h⟩
  | 0, .array _ | 0, .object _ => by
      constructor
      · intro h
        cases h
      · rintro ⟨h, -⟩
        cases h
  | limit + 1, .array items => by
      rw [json?_array, Option.isSome_map, isSome_mapM]
      constructor
      · intro h
        have hitems := fun item hitem => (isSome_json?_iff limit item).mp (h item hitem)
        exact ⟨.array fun item hitem => (hitems item hitem).1,
          .array fun item hitem => (hitems item hitem).2⟩
      · rintro ⟨hlimits, htexts⟩ item hitem
        cases hlimits with
        | array hlimits =>
            cases htexts with
            | array htexts =>
                exact (isSome_json?_iff limit item).mpr ⟨hlimits item hitem, htexts item hitem⟩
  | limit + 1, .object members => by
      rw [json?_object, Option.isSome_map, members?, isSome_mapM]
      simp only [isSome_member?]
      constructor
      · intro h
        have hmembers := fun member hmember =>
          (isSome_json?_iff limit member.2).mp (h member hmember).2
        exact ⟨.object fun member hmember => (hmembers member hmember).1,
          .object (fun member hmember => (h member hmember).1)
            fun member hmember => (hmembers member hmember).2⟩
      · rintro ⟨hlimits, htexts⟩ member hmember
        cases hlimits with
        | object hlimits =>
            cases htexts with
            | object hnames htexts =>
                exact ⟨hnames member hmember, (isSome_json?_iff limit member.2).mpr
                  ⟨hlimits member hmember, htexts member hmember⟩⟩

end Document

theorem Document.kind?_of_json? {d : Document} {levels : Nat} {j : Json}
    (h : d.json? levels = some j) : d.kind? = j.kind? := by
  funext numbered
  cases d with
  | null | bool =>
      cases h
      rfl
  | number n =>
      obtain ⟨value, rfl⟩ | ⟨value, rfl⟩ := number_of_json? h <;> rfl
  | string text =>
      obtain ⟨value, rfl, rfl⟩ := Option.map_eq_some_iff.mp h
      rfl
  | array items =>
      obtain _ | levels := levels
      · cases h
      rw [json?_array] at h
      obtain ⟨values, hvalues, rfl⟩ := Option.map_eq_some_iff.mp h
      cases items with
      | nil =>
          cases hvalues
          rfl
      | cons kind rest =>
          rw [List.mapM_cons] at hvalues
          obtain ⟨value, hvalue, hvalues⟩ := bind_eq_some.mp hvalues
          obtain ⟨values, -, hvalues⟩ := bind_eq_some.mp hvalues
          cases hvalues
          rw [Json.kind?_array, ← ofDocument?_of_json? hvalue, kind?]
  | object members =>
      obtain _ | levels := levels
      · cases h
      rw [json?_object] at h
      obtain ⟨entries, hentries, rfl⟩ := Option.map_eq_some_iff.mp h
      have hkinds := members?_filter hentries "kind"
      rw [Json.kind?_object, Fields.unique?, kind?]
      generalize (members.filter fun member => member.1 = some "kind") = found at hkinds ⊢
      generalize (entries.filter fun entry => entry.1 = "kind") = kinds at hkinds ⊢
      obtain _ | ⟨first, _ | ⟨second, rest⟩⟩ := found
      · cases hkinds
        rfl
      · obtain ⟨kind, rest, hkind, hrest, rfl⟩ := members?_cons_eq_some hkinds
        cases hrest
        exact ofDocument?_of_json? (member?_eq_some.mp hkind).2 numbered
      · obtain ⟨kind, rest, -, hrest, rfl⟩ := members?_cons_eq_some hkinds
        obtain ⟨kind', rest', -, -, rfl⟩ := members?_cons_eq_some hrest
        rfl

namespace Json

theorem normalizeMembers_eq_map (entries : List (String × Json)) :
    normalizeMembers entries = entries.map fun entry => (entry.1, entry.2.normalize) := by
  induction entries with
  | nil => rfl
  | cons entry rest ih => rw [normalizeMembers, ih, List.map_cons]

theorem normalizeItems_eq_map (items : List Json) :
    normalizeItems items = items.map normalize := by
  induction items with
  | nil => rfl
  | cons item rest ih => rw [normalizeItems, ih, List.map_cons]

theorem normalize_array_eq {items items' : List Json}
    (h : List.Forall₂ Role.schema.Agree items items') :
    (array items).normalize = (array items').normalize := by
  have hmap : items.map normalize = items'.map normalize := by
    induction h with
    | nil => rfl
    | @cons item item' _ _ hfirst _ ih =>
        have hfirst : item.normalize = item'.normalize := hfirst
        rw [List.map_cons, List.map_cons, hfirst, ih]
  rw [normalize, normalize, normalizeItems_eq_map, normalizeItems_eq_map, hmap]

theorem normalize_object_eq {entries entries' : List (String × Json)}
    (h : ∀ name : String, (entries.filter fun entry => entry.1 = name) =
      entries'.filter fun entry => entry.1 = name) :
    (object entries).normalize = (object entries').normalize := by
  rw [normalize, normalize, normalizeMembers_eq_map, normalizeMembers_eq_map,
    NameMap.ofList_eq_of_filter]
  intro name
  simp only [List.filter_map, Function.comp_def, h name]

end Json

namespace Respells

variable {insertion : Insertion} {role : Role} {levels : Nat} {d d' : Document}

theorem ne_plain (h : Respells insertion role levels d d') : role ≠ .plain := by
  induction h with
  | permute hrole _ | insert hrole _ =>
      rintro rfl
      cases hrole
  | rearrange hrole _ _ =>
      rintro rfl
      simp at hrole
  | member _ ih | item _ ih =>
      rintro rfl
      exact ih rfl

section Record

variable (hrole : role.isRecord = true) (hinner : role.isInner = true)

include hrole hinner

theorem agree_object {members members' : List (Option String × Document)}
    (h : Option.Rel (Fields.AgreeNamed Role.Agree (role.declared (Document.object members).kind?))
      (Document.members? (fun d => d.json? (levels - 1)) members)
      (Document.members? (fun d => d.json? (levels - 1)) members')) :
    Option.Rel role.Agree ((Document.object members).json? levels)
      ((Document.object members').json? levels) := by
  obtain _ | levels := levels
  · exact .none
  have hkind := @Document.kind?_of_json? (.object members) (levels + 1)
  rw [Document.json?_object] at hkind ⊢
  rw [Document.json?_object]
  apply rel_map
  apply rel_mono h
  intro entries entries' hread _ hentries
  rw [hkind (congrArg (Option.map Json.object) hread)] at hentries
  exact Role.agree_object hrole hinner hentries

theorem agree_array {items items' : List Document}
    (h : Option.Rel (Fields.AgreeListed Role.Agree (role.ofItem (Document.array items).kind?))
      (items.mapM fun d : Document => d.json? (levels - 1))
      (items'.mapM fun d : Document => d.json? (levels - 1))) :
    Option.Rel role.Agree ((Document.array items).json? levels)
      ((Document.array items').json? levels) := by
  obtain _ | levels := levels
  · exact .none
  have hkind := @Document.kind?_of_json? (.array items) (levels + 1)
  rw [Document.json?_array] at hkind ⊢
  rw [Document.json?_array]
  apply rel_map
  apply rel_mono h
  intro values values' hread _ hvalues
  rw [hkind (congrArg (Option.map Json.array) hread)] at hvalues
  exact Role.agree_array hrole hinner hvalues

theorem agree_member {before after : List (Option String × Document)} {key : Option String}
    (h : Option.Rel (role.ofMember (Document.object (before ++ (key, d) :: after)).kind? key).Agree
      (d.json? (levels - 1)) (d'.json? (levels - 1))) :
    Option.Rel role.Agree ((Document.object (before ++ (key, d) :: after)).json? levels)
      ((Document.object (before ++ (key, d') :: after)).json? levels) := by
  apply agree_object hrole hinner
  apply Document.members?_replace Role.agree_refl h
  rintro field hfield rfl a a' hab
  rwa [Role.ofMember_of_mem hrole hfield] at hab

theorem agree_item {before after : List Document}
    (h : Option.Rel (role.ofItem (Document.array (before ++ d :: after)).kind?
      before.length).Agree (d.json? (levels - 1)) (d'.json? (levels - 1))) :
    Option.Rel role.Agree ((Document.array (before ++ d :: after)).json? levels)
      ((Document.array (before ++ d' :: after)).json? levels) := by
  apply agree_array hrole hinner
  apply rel_mono (rel_mapM_replace h)
  rintro _ _ - - ⟨first, last, a, a', hlength, rfl, rfl, hab⟩
  apply Fields.agreeListed_replace Role.agree_refl
  rwa [hlength]

end Record

theorem schema_object {members members' : List (Option String × Document)}
    (h : Option.Rel (fun entries entries' =>
        (Json.object entries).normalize = (Json.object entries').normalize)
      (Document.members? (fun d => d.json? (levels - 1)) members)
      (Document.members? (fun d => d.json? (levels - 1)) members')) :
    Option.Rel Role.schema.Agree ((Document.object members).json? levels)
      ((Document.object members').json? levels) := by
  obtain _ | levels := levels
  · exact .none
  rw [Document.json?_object, Document.json?_object]
  exact rel_map h

theorem schema_member {before after : List (Option String × Document)} {key : Option String}
    (h : Option.Rel Role.schema.Agree (d.json? (levels - 1)) (d'.json? (levels - 1))) :
    Option.Rel Role.schema.Agree ((Document.object (before ++ (key, d) :: after)).json? levels)
      ((Document.object (before ++ (key, d') :: after)).json? levels) := by
  apply schema_object
  apply rel_mono (Document.members?_split h)
  rintro _ _ - - ⟨first, last, name, a, a', rfl, rfl, -, hab⟩
  have hab : a.normalize = a'.normalize := hab
  rw [Json.normalize, Json.normalize, Json.normalizeMembers_eq_map, Json.normalizeMembers_eq_map,
    List.map_append, List.map_append, List.map_cons, List.map_cons, hab]

theorem agree_items {before after : List Document}
    (h : Option.Rel role.Agree (d.json? (levels - 1)) (d'.json? (levels - 1)))
    {other : Role}
    (hother : ∀ items items', List.Forall₂ role.Agree items items' →
      other.Agree (.array items) (.array items')) :
    Option.Rel other.Agree ((Document.array (before ++ d :: after)).json? levels)
      ((Document.array (before ++ d' :: after)).json? levels) := by
  obtain _ | levels := levels
  · exact .none
  rw [Document.json?_array, Document.json?_array]
  apply rel_map
  apply rel_mono (rel_mapM_replace h)
  rintro _ _ - - ⟨first, last, a, a', -, rfl, rfl, hab⟩
  have hsame : ∀ items, List.Forall₂ role.Agree items items :=
    fun items => List.forall₂_same.mpr fun item _ => role.agree_refl item
  exact hother _ _ (List.rel_append (hsame first) (.cons hab (hsame last)))

/-- What is read as a whole is read alike in every spelling. -/
theorem agree (h : Respells .readable role levels d d') (hinner : role.isInner = true) :
    Option.Rel role.Agree (d.json? levels) (d'.json? levels) := by
  induction h with
  | permute hrole h => exact agree_object hrole hinner (Document.members?_permute Role.agree_refl h)
  | rearrange hrole h hnames =>
      obtain rfl | rfl := hrole
      · cases hinner
      · apply schema_object
        apply rel_mono (Document.members?_rearrange h hnames)
        intro entries entries' _ _ hentries
        exact Json.normalize_object_eq hentries
  | @insert role levels before after member hrole hmember =>
      obtain ⟨hname, htext, hvalue⟩ := hmember
      apply agree_object hrole hinner
      obtain houter | hvalue := hvalue
      · exact absurd houter (Role.not_isOuter hinner)
      · have hread : (Document.member? (fun d => d.json? (levels - 1)) member).isSome = true :=
          Document.isSome_member?.mpr ⟨htext, (Document.isSome_json?_iff _ _).mpr hvalue⟩
        obtain ⟨entry, hentry⟩ := Option.isSome_iff_exists.mp hread
        exact Document.members?_insert Role.agree_refl hentry hname
  | @member role levels before after key d d' h ih =>
      have hpart := ih (Role.isInner_ofMember hinner key)
      cases role with
      | schema => exact schema_member hpart
      | plain | listOf => exact absurd rfl h.ne_plain
      | expr | target | operation | branch | statement | field =>
          exact agree_member rfl hinner hpart
      | _ => cases hinner
  | @item role levels before after d d' h ih =>
      have hpart := ih (Role.isInner_ofItem hinner before.length)
      cases role with
      | schema =>
          apply agree_items hpart
          intro items items' hitems
          exact Json.normalize_array_eq hitems
      | listOf role => exact agree_items hpart fun _ _ hitems => hitems
      | plain => exact absurd rfl h.ne_plain
      | expr | target | operation | branch | statement | field =>
          exact agree_item rfl hinner hpart
      | _ => cases hinner

end Respells

end StoredProcedure
