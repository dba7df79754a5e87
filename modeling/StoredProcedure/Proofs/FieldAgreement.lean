import Mathlib.Data.List.Forall2
import StoredProcedure.Proofs.Records
import StoredProcedure.Proofs.Staging

namespace StoredProcedure

variable {α β γ ι : Type}

section Rel

variable {R : α → β → Prop} {x : Option α} {y : Option β}

theorem rel_refl {R : α → α → Prop} (h : ∀ a, R a a) : (x : Option α) → Option.Rel R x x
  | none => .none
  | some a => .some (h a)

theorem rel_trans {R : α → α → Prop} (h : ∀ {a b c}, R a b → R b c → R a c) {x y z : Option α}
    (hxy : Option.Rel R x y) (hyz : Option.Rel R y z) : Option.Rel R x z := by
  cases hxy with
  | none => exact hyz
  | some hab =>
      cases hyz with
      | some hbc => exact .some (h hab hbc)

theorem rel_mono {S : α → β → Prop} (h : Option.Rel R x y)
    (hRS : ∀ a b, x = some a → y = some b → R a b → S a b) : Option.Rel S x y := by
  cases h with
  | none => exact .none
  | some hab => exact .some (hRS _ _ rfl rfl hab)

theorem eq_of_rel_eq {x y : Option α} (h : Option.Rel Eq x y) : x = y := by
  cases h with
  | none => rfl
  | some hab => rw [hab]

theorem rel_bind {γ δ : Type} {S : γ → δ → Prop} {f : α → Option γ} {g : β → Option δ}
    (h : Option.Rel R x y) (hfg : ∀ a b, R a b → Option.Rel S (f a) (g b)) :
    Option.Rel S (x >>= f) (y >>= g) := by
  cases h with
  | none => exact .none
  | some hab => exact hfg _ _ hab

theorem rel_bind_same {γ δ : Type} {S : γ → δ → Prop} {f : α → Option γ} {g : α → Option δ}
    (hfg : ∀ a, Option.Rel S (f a) (g a)) : Option.Rel S (x >>= f) (x >>= g) := by
  cases x with
  | none => exact .none
  | some a => exact hfg a

theorem rel_map {γ δ : Type} {S : γ → δ → Prop} {f : α → γ} {g : β → δ}
    (h : Option.Rel (fun a b => S (f a) (g b)) x y) : Option.Rel S (x.map f) (y.map g) := by
  cases h with
  | none => exact .none
  | some hab => exact .some hab

theorem bind_eq_of_rel {f : α → Option γ} {g : β → Option γ} (h : Option.Rel R x y)
    (hfg : ∀ a b, R a b → f a = g b) : x >>= f = y >>= g := by
  cases h with
  | none => rfl
  | some hab => exact hfg _ _ hab

end Rel

section MapM

variable {f : α → Option β}

theorem rel_mapM_perm {xs ys : List α} (h : xs.Perm ys) :
    Option.Rel List.Perm (xs.mapM f) (ys.mapM f) := by
  induction h with
  | nil => exact .some .nil
  | cons x _ ih =>
      rw [List.mapM_cons, List.mapM_cons]
      apply rel_bind_same
      intro a
      exact rel_bind ih fun _ _ hrest => .some (hrest.cons a)
  | swap x y rest =>
      simp only [List.mapM_cons]
      cases f x with
      | none => cases f y <;> exact .none
      | some a =>
          cases f y with
          | none => exact .none
          | some b =>
              cases rest.mapM f with
              | none => exact .none
              | some rest => exact .some (.swap a b rest)
  | trans _ _ ih ih' => exact rel_trans (fun h h' => h.trans h') ih ih'

theorem rel_mapM_replace {T : β → β → Prop} {before after : List α} {x y : α}
    (h : Option.Rel T (f x) (f y)) :
    Option.Rel (fun zs zs' => ∃ (as bs : List β) (a b : β), as.length = before.length ∧
        zs = as ++ a :: bs ∧ zs' = as ++ b :: bs ∧ T a b)
      ((before ++ x :: after).mapM f) ((before ++ y :: after).mapM f) := by
  induction before with
  | nil =>
      rw [List.nil_append, List.nil_append, List.mapM_cons, List.mapM_cons]
      apply rel_bind h
      intro a b hab
      apply rel_bind_same
      intro bs
      exact .some ⟨[], bs, a, b, rfl, rfl, rfl, hab⟩
  | cons first before ih =>
      rw [List.cons_append, List.cons_append, List.mapM_cons, List.mapM_cons]
      apply rel_bind_same
      intro z
      apply rel_bind ih
      rintro _ _ ⟨as, bs, a, b, hlength, rfl, rfl, hab⟩
      exact .some ⟨z :: as, bs, a, b, congrArg Nat.succ hlength, rfl, rfl, hab⟩

end MapM

namespace NameMap

theorem ext_get? {m n : NameMap α} (h : ∀ name, m.get? name = n.get? name) : m = n := by
  have hnodup : ∀ m : NameMap α, m.entries.Nodup := fun m =>
    .of_map Prod.fst (m.ascending.imp String.ne_of_lt)
  have hperm : m.entries.Perm n.entries := by
    rw [List.perm_ext_iff_of_nodup (hnodup m) (hnodup n)]
    rintro ⟨name, value⟩
    rw [← get?_eq_some_iff, ← get?_eq_some_iff, h]
  apply ext_entries
  apply hperm.eq_of_pairwise _ (List.pairwise_map.mp m.ascending) (List.pairwise_map.mp n.ascending)
  intro a b _ _ hab hba
  exact absurd hba (String.lt_asymm hab)

/-- Of several entries of one name the last counts. -/
theorem get?_ofList (entries : List (String × α)) (name : String) :
    (ofList entries).get? name =
      (entries.filter fun entry => entry.1 = name).getLast?.map Prod.snd := by
  induction entries using List.reverseRecOn with
  | nil => rfl
  | append_singleton entries entry ih =>
      rw [ofList, List.foldl_append, List.foldl_cons, List.foldl_nil, ← ofList, get?_insert, ih,
        List.filter_append]
      by_cases hname : entry.1 = name
      · simp [hname]
      · simp [hname, Ne.symm hname]

theorem ofList_eq_of_filter {entries entries' : List (String × α)}
    (h : ∀ name, (entries.filter fun entry => entry.1 = name) =
      entries'.filter fun entry => entry.1 = name) : ofList entries = ofList entries' := by
  apply ext_get?
  intro name
  rw [get?_ofList, get?_ofList, h]

end NameMap

/-- Two lists of as many values as there are fields, related as each field asks. -/
inductive Each (R : ι → α → β → Prop) : List (String × ι) → List α → List β → Prop
  | cons {field : String × ι} {table : List (String × ι)} {a : α} {b : β} {as : List α}
      {bs : List β} (hfirst : R field.2 a b) (hrest : Each R table as bs) :
      Each R (field :: table) (a :: as) (b :: bs)
  | nil : Each R [] [] []

namespace Fields

variable {R : ι → α → α → Prop} {table : List (String × ι)}

/-- The declared fields of two records agree. -/
def Agree (R : ι → α → α → Prop) (table : List (String × ι)) (fields fields' : Fields α) : Prop :=
  Option.Rel (Each (fun i => Option.Rel (R i)) table) (fields.values? (table.map Prod.fst))
    (fields'.values? (table.map Prod.fst))

theorem rel_mapM_id {values values' : List (Option α)}
    (h : Each (fun i => Option.Rel (R i)) table values values') :
    Option.Rel (Each R table) (values.mapM id) (values'.mapM id) := by
  induction h with
  | nil => exact .some .nil
  | cons hfirst _ ih =>
      rw [List.mapM_cons, List.mapM_cons]
      apply rel_bind hfirst
      intro a b hab
      exact rel_bind ih fun _ _ hrest => .some (.cons hab hrest)

theorem Agree.all {fields fields' : Fields α} (h : Agree R table fields fields') :
    Option.Rel (Each R table) (fields.all? (table.map Prod.fst))
      (fields'.all? (table.map Prod.fst)) :=
  rel_bind h fun _ _ => rel_mapM_id

section Named

variable {members members' : List (String × α)} {name : String}

/-- The members that an object has of each declared name agree. -/
def AgreeNamed (R : ι → α → α → Prop) (table : List (String × ι))
    (members members' : List (String × α)) : Prop :=
  ∀ field ∈ table, Option.Rel (Option.Rel (R field.2)) (unique? field.1 members)
    (unique? field.1 members')

theorem AgreeNamed.agree (h : AgreeNamed R table members members') :
    Agree R table (named members) (named members') := by
  show Option.Rel _ ((table.map Prod.fst).mapM fun name => unique? name members)
    ((table.map Prod.fst).mapM fun name => unique? name members')
  induction table with
  | nil => exact .some .nil
  | cons field table ih =>
      obtain ⟨hfirst, hrest⟩ := List.forall_mem_cons.mp h
      rw [List.map_cons, List.mapM_cons, List.mapM_cons]
      apply rel_bind hfirst
      intro a b hab
      exact rel_bind (ih hrest) fun _ _ hvalues => .some (.cons hab hvalues)

theorem agreeNamed_of_eq (hR : ∀ i a, R i a a)
    (h : ∀ field ∈ table, unique? field.1 members = unique? field.1 members') :
    AgreeNamed R table members members' := by
  intro field hfield
  rw [h field hfield]
  exact rel_refl (rel_refl (hR field.2)) _

theorem unique?_perm (h : members.Perm members') :
    unique? name members = unique? name members' := by
  have hfilter := h.filter fun member => decide (member.1 = name)
  rw [unique?, unique?]
  generalize (members.filter fun member => member.1 = name) = found at hfilter ⊢
  generalize (members'.filter fun member => member.1 = name) = found' at hfilter ⊢
  obtain _ | ⟨first, _ | ⟨second, rest⟩⟩ := found
  · rw [List.nil_perm.mp hfilter]
  · rw [List.singleton_perm.mp hfilter]
  · have hlength := hfilter.length_eq
    obtain _ | ⟨first', _ | ⟨second', rest'⟩⟩ := found'
    · cases hlength
    · cases hlength
    · rfl

theorem unique?_insert {before after : List (String × α)} {member : String × α}
    (h : member.1 ≠ name) :
    unique? name (before ++ member :: after) = unique? name (before ++ after) := by
  rw [unique?, unique?, List.filter_append, List.filter_append,
    List.filter_cons_of_neg (by simpa using h)]

/-- Two objects agree if they have the same names in the same order, with values that are related as
the fields of these names ask. -/
theorem agreeNamed_of_forall₂ (h : List.Forall₂ (fun member member' => member.1 = member'.1 ∧
      ∀ field ∈ table, field.1 = member.1 → R field.2 member.2 member'.2) members members') :
    AgreeNamed R table members members' := by
  intro field hfield
  have hfilter : List.Forall₂ (fun member member' => R field.2 member.2 member'.2)
      (members.filter fun member => member.1 = field.1)
      (members'.filter fun member => member.1 = field.1) := by
    induction h with
    | nil => exact .nil
    | @cons member member' _ _ hfirst _ ih =>
        by_cases hname : member.1 = field.1
        · rw [List.filter_cons_of_pos (by simpa using hname),
            List.filter_cons_of_pos (by simpa [← hfirst.1] using hname)]
          exact .cons (hfirst.2 field hfield hname.symm) ih
        · rw [List.filter_cons_of_neg (by simpa using hname),
            List.filter_cons_of_neg (by simpa [← hfirst.1] using hname)]
          exact ih
  rw [unique?, unique?]
  generalize (members.filter fun member => member.1 = field.1) = found at hfilter ⊢
  generalize (members'.filter fun member => member.1 = field.1) = found' at hfilter ⊢
  obtain _ | ⟨hfirst, _ | ⟨_, _⟩⟩ := hfilter
  · exact .some .none
  · exact .some (.some hfirst)
  · exact .none

end Named

section Listed

variable {items items' : List α} {place : Nat → ι}

/-- As many items, related as their places ask. -/
def AgreeListed (R : ι → α → α → Prop) (place : Nat → ι) (items items' : List α) : Prop :=
  items.length = items'.length ∧ ∀ (i : Nat) (a a' : α),
    items[i]? = some a → items'[i]? = some a' → R (place i) a a'

theorem AgreeListed.tail {a a' : α} (h : AgreeListed R place (a :: items) (a' :: items')) :
    R (place 0) a a' ∧ AgreeListed R (fun i => place (i + 1)) items items' := by
  refine ⟨h.2 0 a a' rfl rfl, Nat.succ.inj h.1, ?_⟩
  intro i a a' ha ha'
  exact h.2 (i + 1) a a' ha ha'

theorem AgreeListed.each (h : AgreeListed R place items items')
    (hplace : ∀ (i : Nat) (field : String × ι), table[i]? = some field → place i = field.2)
    (hlength : items.length ≤ table.length) :
    Each (fun i => Option.Rel (R i)) table
      (items.map some ++ List.replicate (table.length - items.length) none)
      (items'.map some ++ List.replicate (table.length - items'.length) none) := by
  induction table generalizing place items items' with
  | nil =>
      obtain rfl := List.eq_nil_of_length_eq_zero (Nat.le_zero.mp hlength)
      obtain rfl := List.eq_nil_of_length_eq_zero h.1.symm
      exact .nil
  | cons field table ih =>
      have hrest : ∀ (i : Nat) (other : String × ι), table[i]? = some other →
          place (i + 1) = other.2 := fun i other hother => hplace (i + 1) other hother
      cases items with
      | nil =>
          obtain rfl := List.eq_nil_of_length_eq_zero h.1.symm
          have hnil : AgreeListed R (fun i => place (i + 1)) [] [] :=
            ⟨rfl, fun _ _ _ ha => by cases ha⟩
          exact .cons .none (ih hnil hrest (Nat.zero_le _))
      | cons a items =>
          cases items' with
          | nil => cases h.1
          | cons a' items' =>
              obtain ⟨hfirst, htail⟩ := h.tail
              rw [hplace 0 field rfl] at hfirst
              have heach := ih htail hrest (Nat.le_of_succ_le_succ hlength)
              rw [List.length_cons, List.length_cons, List.length_cons, Nat.add_sub_add_right,
                Nat.add_sub_add_right]
              exact .cons (.some hfirst) heach

theorem AgreeListed.agree (h : AgreeListed R place items items')
    (hplace : ∀ (i : Nat) (field : String × ι), table[i]? = some field → place i = field.2) :
    Agree R table (listed items) (listed items') := by
  rw [Agree, values?, values?, List.length_map, ← h.1]
  by_cases hlength : items.length ≤ table.length
  · rw [if_pos hlength, if_pos hlength]
    refine .some ?_
    have heach := h.each hplace hlength
    rwa [← h.1] at heach
  · rw [if_neg hlength, if_neg hlength]
    exact .none

theorem agreeListed_replace (hR : ∀ i a, R i a a) {before after : List α} {a a' : α}
    (h : R (place before.length) a a') :
    AgreeListed R place (before ++ a :: after) (before ++ a' :: after) := by
  refine ⟨by simp, ?_⟩
  intro i b b' hb hb'
  rcases Nat.lt_trichotomy i before.length with hi | rfl | hi
  · rw [List.getElem?_append_left hi] at hb hb'
    obtain rfl := Option.some.inj (hb.symm.trans hb')
    exact hR _ _
  · rw [List.getElem?_append_right (Nat.le_refl _), Nat.sub_self] at hb hb'
    obtain rfl := Option.some.inj hb
    obtain rfl := Option.some.inj hb'
    exact h
  · obtain ⟨k, rfl⟩ := Nat.exists_eq_add_of_lt hi
    have hk : before.length + k + 1 - before.length = k + 1 := by omega
    rw [List.getElem?_append_right (by omega), hk] at hb hb'
    obtain rfl := Option.some.inj (hb.symm.trans hb')
    exact hR _ _

end Listed

end Fields

end StoredProcedure
