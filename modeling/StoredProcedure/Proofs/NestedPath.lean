import StoredProcedure.Proofs.DottedPath
import StoredProcedure.Proofs.StackFrame
import StoredProcedure.Proofs.StoreFlow

namespace StoredProcedure

namespace Json

/-- The value that fields lead to. -/
def valueAt? (fields : List String) (j : Json) : Option Json :=
  fields.foldlM (fun value field => value.member? field) j

/-- The object in which a value is put where fields lead. Only the last of them may be missing. -/
def withValueAt? (value : Json) : List String → Json → Option Json
  | [field], .object members => some (.object (NameMap.insertEntry field value members))
  | field :: rest, .object members => do
      let part ← NameMap.find? field members
      return .object (NameMap.insertEntry field (← withValueAt? value rest part) members)
  | _, _ => none

end Json

namespace Datum

theorem string_injective : Function.Injective string := by
  intro a b h
  exact Json.string.inj (congrArg Datum.json h)

theorem withValueAt?_emptyObject (name : String) (value : Datum) :
    Json.withValueAt? value.json [name] emptyObject.json = some (entry name value).json := rfl

theorem withValueAt?_entry (name : String) (value old : Datum) :
    Json.withValueAt? value.json [name] (entry name old).json = some (entry name value).json := by
  simp [Json.withValueAt?, entry, NameMap.insertEntry]

theorem withValueAt?_nested (name path : String) (value : Datum) :
    Json.withValueAt? value.json [name, path] (entry name .emptyObject).json =
      some (entry name (entry path value)).json := by
  simp [Json.withValueAt?, entry, emptyObject, NameMap.insertEntry, NameMap.find?]

end Datum

def State.withStack {ρ : Type} (s : State ρ) (stack : List Datum) : State ρ :=
  { s with stack := stack }

namespace Code

variable {ρ : Type} {effects : Effects ρ} {s t u : State ρ}

/-- A machine that puts values on the stack, joins texts, takes fields of objects and sets them, and
works on its operands only. What it does where a field is missing is left open. -/
structure KnowsPaths (effects : Effects ρ) : Prop where
  instantiate : ∀ value s t, effects (.instantiate value) s t ↔ t = s.push value
  concat : ∀ count joiner s t, effects (.concatStrings count joiner) s t ↔
    ∃ (texts : List String) (below : List Datum), texts.length = count ∧
      s.stack = (texts.map Datum.string).reverse ++ below ∧
      t = s.withStack (.string (joiner.intercalate texts) :: below)
  field : ∀ (name : String) (object value : Datum) (s t : State ρ),
    object.json.member? name = some value.json →
      (effects (.tryGetField name) (s.push object) t ↔ t = s.push value)
  fields : ∀ (texts : List String) (object value : Datum) (below : List Datum) (s t : State ρ),
    s.stack = (texts.map Datum.string).reverse ++ object :: below →
      object.json.valueAt? texts = some value.json →
      (effects (.getField texts.length) s t ↔ t = s.withStack (value :: below))
  setField : ∀ (texts : List String) (object value result : Datum) (below : List Datum)
    (s t : State ρ),
    s.stack = value :: ((texts.map Datum.string).reverse ++ object :: below) →
      Json.withValueAt? value.json texts object.json = some result.json →
      (effects (.setField texts.length) s t ↔ t = s.withStack (result :: below))
  below : KeepsBelow effects

/-- Nested keys are run one after the other and leave texts. -/
def LeaveTexts (effects : Effects ρ) (keys : List Code) (s : State ρ) (texts : List String)
    (t : State ρ) : Prop :=
  InOrder effects keys s t ∧ texts.length = keys.length ∧
    t.stack = (texts.map Datum.string).reverse ++ s.stack

/-- The code of the first key is run and its value is put into the filter of the document. -/
def LeavesFilter (effects : Effects ρ) (first : Code) (s t : State ρ) : Prop :=
  ∃ key u, first.Leaves effects
      (s.withStack (.string "_key" :: .entry "_key" .emptyObject :: s.stack)) key u ∧
    t = u.withStack (.entry "_key" key :: s.stack)

/-- Code that comes to its only write, an update of a store, with the filter of the first key on top
of the stack. Below it is the update, which applies an operator to an operand at the path of nested
keys. -/
structure SendsUpdate (effects : Effects ρ) (code : Code) (store operator : String) (first : Code)
    (keys : List Code) (leavesOperand : State ρ → Datum → State ρ → Prop) (pos : Nat) : Prop where
  update : code[pos]? = some (.updateOne store false)
  only : ∀ p instruction other, code[p]? = some instruction →
    instruction.access? = some (.write other) → p = pos
  sends : ∀ s t, code.Reaches effects s pos t ↔
    ∃ (texts : List String) (operand : Datum) (u v : State ρ),
      LeaveTexts effects keys (s.withStack
        (.string "_val" :: .string operator :: .entry operator .emptyObject :: s.stack)) texts u ∧
      leavesOperand (u.withStack (.string (dottedPath texts) :: .string operator ::
        .entry operator .emptyObject :: s.stack)) operand v ∧
      LeavesFilter effects first
        (v.withStack (.entry operator (.entry (dottedPath texts) operand) :: s.stack)) t

/-- Code that looks up a document by the filter of the first key and, if there is one, takes its
value, runs the code of nested keys and takes what they lead to. -/
def Descends (effects : Effects ρ) (store : String) (code first : Code) (keys : List Code) : Prop :=
  ∃ find pos : Nat, code[find]? = some (.findOne store .emptyObject) ∧
    (∀ s t, code.Reaches effects s find t ↔ LeavesFilter effects first s t) ∧
    ∀ (document value : Datum) (s : State ρ), document.json.member? "_val" = some value.json →
      (∀ u, code.Runs effects (find + 1, s.push document) (pos, u) ↔
        InOrder effects keys (s.push value) u) ∧
      ∀ (u : State ρ) (texts : List String) (result : Datum), texts.length = keys.length →
        u.stack = (texts.map Datum.string).reverse ++ (s.push value).stack →
        document.json.valueAt? ("_val" :: texts) = some result.json →
        ∀ q t, code.Step effects (pos, u) (q, t) ↔
          q = pos + 1 ∧ t = u.withStack (result :: s.stack)

theorem texts_unique {texts others : List String} {below rest : List Datum}
    (h : (texts.map Datum.string).reverse ++ below = (others.map Datum.string).reverse ++ rest)
    (hlength : texts.length = others.length) : texts = others ∧ below = rest := by
  obtain ⟨htexts, hbelow⟩ := List.append_inj h (by simp [hlength])
  exact ⟨Datum.string_injective.list_map (List.reverse_injective htexts), hbelow⟩

theorem KnowsPaths.concat_iff (h : KnowsPaths effects) {texts : List String} {below : List Datum}
    (hstack : s.stack = (texts.map Datum.string).reverse ++ below) (joiner : String) :
    effects (.concatStrings texts.length joiner) s t ↔
      t = s.withStack (.string (joiner.intercalate texts) :: below) := by
  rw [h.concat]
  constructor
  · rintro ⟨others, rest, hlength, hothers, rfl⟩
    obtain ⟨rfl, rfl⟩ := texts_unique (hstack.symm.trans hothers) hlength.symm
    rfl
  · rintro rfl
    exact ⟨texts, below, rfl, hstack, rfl⟩

theorem inOrder_append {parts others : List Code} :
    InOrder effects (parts ++ others) s t ↔
      ∃ u, InOrder effects parts s u ∧ InOrder effects others u t := by
  induction parts generalizing s with
  | nil => simp [InOrder]
  | cons part rest ih =>
      simp only [List.cons_append, InOrder, ih]
      constructor
      · rintro ⟨v, hpart, u, hrest, hothers⟩
        exact ⟨u, ⟨v, hpart, hrest⟩, hothers⟩
      · rintro ⟨u, ⟨v, hpart, hrest⟩, hothers⟩
        exact ⟨v, hpart, u, hrest, hothers⟩

theorem exists_above_of_inOrder (h : KeepsBelow effects) {keys : List Code}
    (hkeys : ∀ key ∈ keys, key.Shifts 0 1) (hrun : InOrder effects keys s t) :
    ∃ above, t.stack = above ++ s.stack ∧ above.length = keys.length := by
  induction keys generalizing s with
  | nil =>
      obtain rfl := hrun
      exact ⟨[], rfl, rfl⟩
  | cons key rest ih =>
      obtain ⟨u, hpasses, hrest⟩ := hrun
      obtain ⟨value, -, hvalue⟩ := (hkeys key (.head _)).exists_leaves h hpasses
      obtain ⟨above, habove, hlength⟩ := ih (fun other hother => hkeys other (.tail _ hother)) hrest
      refine ⟨above ++ [value], ?_, ?_⟩
      · rw [habove, hvalue, List.append_assoc]
        rfl
      · rw [List.length_append, hlength]
        rfl

/-- Joining the texts on the stack makes their path, and other values cannot be joined. -/
theorem KnowsPaths.concat_nested (h : KnowsPaths effects) {keys : List Code}
    (hkeys : ∀ key ∈ keys, key.Shifts 0 1) {below : List Datum}
    (hstack : s.stack = .string "_val" :: below) (hrun : InOrder effects keys s u) :
    effects (.concatStrings (keys.length + 1) ".") u t ↔ ∃ texts,
      LeaveTexts effects keys s texts u ∧
        t = u.withStack (.string (dottedPath texts) :: below) := by
  constructor
  · intro hconcat
    obtain ⟨all, rest, hcount, hall, rfl⟩ := (h.concat _ _ _ _).mp hconcat
    obtain ⟨above, habove, hlength⟩ := exists_above_of_inOrder h.below hkeys hrun
    obtain _ | ⟨start, texts⟩ := all
    · cases hcount
    have htexts : texts.length = keys.length := Nat.succ.inj hcount
    rw [habove, hstack, List.map_cons, List.reverse_cons, List.append_assoc] at hall
    obtain ⟨rfl, hrest⟩ := List.append_inj hall (by simp [hlength, htexts])
    obtain ⟨hstart, rfl⟩ := List.cons.inj hrest
    obtain rfl : "_val" = start := Datum.string_injective hstart
    exact ⟨texts, ⟨hrun, htexts, habove⟩, rfl⟩
  · rintro ⟨texts, ⟨-, hlength, hall⟩, rfl⟩
    have hnested : u.stack = (("_val" :: texts).map Datum.string).reverse ++ below := by
      rw [hall, hstack]
      simp
    have hconcat := h.concat_iff (t := u.withStack (.string (dottedPath texts) :: below))
      hnested "."
    rw [List.length_cons, hlength] at hconcat
    exact hconcat.mpr rfl

theorem passes_instantiate (h : KnowsPaths effects) (value : Datum) :
    Passes effects [.instantiate value] s t ↔ t = s.push value := by
  rw [passes_effect rfl, h.instantiate]

theorem passes_setField (h : KnowsPaths effects) (texts : List String)
    {object value result : Datum} {below : List Datum}
    (hstack : s.stack = value :: ((texts.map Datum.string).reverse ++ object :: below))
    (hset : Json.withValueAt? value.json texts object.json = some result.json) :
    Passes effects [.setField texts.length] s t ↔ t = s.withStack (result :: below) := by
  rw [passes_effect rfl]
  exact h.setField texts object value result below s t hstack hset

theorem passes_named (h : KnowsPaths effects) {part : Code} (hpart : part.Shifts 0 1)
    {name : String} {object : Datum}
    (hset : ∀ value : Datum,
      Json.withValueAt? value.json [name] object.json = some (Datum.entry name value).json) :
    Passes effects (.instantiate object :: text name :: part ++ [.setField 1]) s t ↔
      ∃ value u, part.Leaves effects (s.withStack (.string name :: object :: s.stack)) value u ∧
        t = u.withStack (.entry name value :: s.stack) := by
  have hparts : ∀ other ∈ [[.instantiate object], [text name], part, [.setField 1]],
      Closed other := by
    simp only [List.forall_mem_cons]
    exact ⟨closed_effect rfl closed_nil, closed_effect rfl closed_nil, hpart.closed,
      closed_effect rfl closed_nil, List.forall_mem_nil _⟩
  have hflatten : .instantiate object :: text name :: part ++ [.setField 1] =
      [[.instantiate object], [text name], part, [.setField 1]].flatten := by
    simp
  have hstart : (s.push object).push (.string name) =
      s.withStack (.string name :: object :: s.stack) := rfl
  have hend : ∀ {value : Datum} {u : State ρ},
      u.stack = value :: .string name :: object :: s.stack →
      (Passes effects [.setField 1] u t ↔ t = u.withStack (.entry name value :: s.stack)) := by
    intro value u hstack
    exact passes_setField h [name] hstack (hset value)
  rw [hflatten, passes_flatten hparts]
  simp only [InOrder, text, passes_instantiate h, exists_eq_left, exists_eq_right', hstart]
  constructor
  · rintro ⟨u, hpasses, hset⟩
    obtain ⟨value, hleaves⟩ := hpart.exists_leaves h.below hpasses
    exact ⟨value, u, hleaves, (hend hleaves.2).mp hset⟩
  · rintro ⟨value, u, hleaves, hset⟩
    exact ⟨u, hleaves.1, (hend hleaves.2).mpr hset⟩

theorem passes_keyFilter (h : KnowsPaths effects) {first : Code} (hfirst : first.Shifts 0 1) :
    (keyFilter first).Passes effects s t ↔ LeavesFilter effects first s t :=
  passes_named h hfirst fun value => Datum.withValueAt?_entry "_key" value .emptyObject

theorem leaves_instantiate (h : KnowsPaths effects) (value : Datum) {result : Datum} :
    Leaves effects [.instantiate value] s result t ↔ result = value ∧ t = s.push result := by
  rw [Leaves, passes_instantiate h]
  constructor
  · rintro ⟨rfl, hstack⟩
    obtain ⟨rfl, -⟩ := List.cons.inj hstack
    exact ⟨rfl, rfl⟩
  · rintro ⟨rfl, rfl⟩
    exact ⟨rfl, rfl⟩

theorem leaves_eachDocument (h : KnowsPaths effects) {values : Code} (hvalues : values.Shifts 0 1)
    {result : Datum} :
    (eachDocument values).Leaves effects s result t ↔ ∃ array u,
      values.Leaves effects (s.withStack (.string "$each" :: .emptyObject :: s.stack)) array u ∧
        result = .entry "$each" array ∧ t = u.withStack (result :: s.stack) := by
  rw [Leaves, eachDocument, passes_named h hvalues (Datum.withValueAt?_emptyObject "$each")]
  constructor
  · rintro ⟨⟨array, u, harray, rfl⟩, hstack⟩
    obtain ⟨rfl, -⟩ := List.cons.inj hstack
    exact ⟨array, u, harray, rfl, rfl⟩
  · rintro ⟨array, u, harray, rfl, rfl⟩
    exact ⟨⟨array, u, harray, rfl⟩, rfl⟩

/-- Code that leaves one value and writes no store. -/
structure Yields (code : Code) : Prop where
  shifts : code.Shifts 0 1
  readOnly : code.ReadOnly

theorem yields_text (value : String) : Yields [text value] where
  shifts := shifts_straight rfl
  readOnly := List.forall_mem_nil _

theorem yields_eachDocument {values : Code} (h : values.Yields) : (eachDocument values).Yields where
  shifts := shifts_eachDocument h.shifts
  readOnly := by
    have haccesses : (eachDocument values).accesses = values.accesses := by
      simp [eachDocument, text, Instruction.access?]
    rw [ReadOnly, haccesses]
    exact h.readOnly

/-- A write with nested keys. -/
structure NestedWrite where
  store : String
  operator : String
  first : Code
  keys : List Code
  operand : Code
  tail : Code
  first_yields : first.Yields
  keys_yield : ∀ key ∈ keys, key.Yields
  operand_yields : operand.Yields
  tail_forward : tail.Forward
  tail_accesses : tail.accesses = []

namespace NestedWrite

variable (w : NestedWrite)

/-- What is run before the update. -/
def parts : List Code :=
  [[.instantiate (.entry w.operator .emptyObject)], [text w.operator], [text "_val"]] ++ w.keys ++
    [[.concatStrings (w.keys.length + 1) "."], w.operand, [.setField 2], keyFilter w.first]

def code : Code :=
  w.parts.flatten ++ .updateOne w.store false :: w.tail

def pos : Nat :=
  w.parts.flatten.length

theorem closed_parts : ∀ part ∈ w.parts, part.Closed := by
  have hkeys : ∀ key ∈ w.keys, key.Closed := fun key hkey => (w.keys_yield key hkey).shifts.closed
  simp only [parts, List.forall_mem_append, List.forall_mem_cons]
  exact ⟨⟨⟨closed_effect rfl closed_nil, closed_effect rfl closed_nil, closed_effect rfl closed_nil,
    List.forall_mem_nil _⟩, hkeys⟩, closed_effect rfl closed_nil, w.operand_yields.shifts.closed,
    closed_effect rfl closed_nil, closed_keyFilter w.first_yields.shifts.closed,
    List.forall_mem_nil _⟩

theorem inOrder_parts (h : KnowsPaths effects) :
    InOrder effects w.parts s t ↔
      ∃ (texts : List String) (operand : Datum) (u v : State ρ),
        LeaveTexts effects w.keys (s.withStack (.string "_val" :: .string w.operator ::
          .entry w.operator .emptyObject :: s.stack)) texts u ∧
        w.operand.Leaves effects (u.withStack (.string (dottedPath texts) :: .string w.operator ::
          .entry w.operator .emptyObject :: s.stack)) operand v ∧
        LeavesFilter effects w.first
          (v.withStack (.entry w.operator (.entry (dottedPath texts) operand) :: s.stack)) t := by
  have hstart : ((s.push (.entry w.operator .emptyObject)).push (.string w.operator)).push
      (.string "_val") = s.withStack (.string "_val" :: .string w.operator ::
        .entry w.operator .emptyObject :: s.stack) := rfl
  have hkeys : ∀ key ∈ w.keys, key.Shifts 0 1 := fun key hkey => (w.keys_yield key hkey).shifts
  have hjoin : (Instruction.concatStrings (w.keys.length + 1) ".").isEffect = true := rfl
  have hset : ∀ {texts : List String} {operand : Datum} {u v : State ρ},
      u.stack = operand :: .string (dottedPath texts) :: .string w.operator ::
        .entry w.operator .emptyObject :: s.stack →
      (Passes effects [.setField 2] u v ↔
        v = u.withStack (.entry w.operator (.entry (dottedPath texts) operand) :: s.stack)) := by
    intro texts operand u v hstack
    exact passes_setField h [w.operator, dottedPath texts] hstack
      (Datum.withValueAt?_nested w.operator (dottedPath texts) operand)
  simp only [parts, inOrder_append, InOrder, text, passes_instantiate h, exists_eq_left,
    exists_eq_right', hstart, passes_effect hjoin, passes_keyFilter h w.first_yields.shifts]
  constructor
  · rintro ⟨u, hrun, x, hconcat, v, hpasses, y, hfield, hfilter⟩
    obtain ⟨texts, htexts, rfl⟩ := (h.concat_nested hkeys rfl hrun).mp hconcat
    obtain ⟨operand, hoperand⟩ := w.operand_yields.shifts.exists_leaves h.below hpasses
    obtain rfl := (hset hoperand.2).mp hfield
    exact ⟨texts, operand, u, v, htexts, hoperand, hfilter⟩
  · rintro ⟨texts, operand, u, v, htexts, hoperand, hfilter⟩
    have hconcat := (h.concat_nested hkeys rfl htexts.1).mpr ⟨texts, htexts, rfl⟩
    exact ⟨u, htexts.1, _, hconcat, v, hoperand.1, _, (hset hoperand.2).mpr rfl, hfilter⟩

theorem readOnly_parts : ReadOnly w.parts.flatten := by
  intro access haccess
  obtain ⟨instruction, hmem, hinstruction⟩ := List.mem_filterMap.mp haccess
  obtain ⟨part, hpart, hmem⟩ := List.mem_flatten.mp hmem
  have haccess : access ∈ accesses part := List.mem_filterMap.mpr ⟨instruction, hmem, hinstruction⟩
  simp only [parts, List.mem_append, List.mem_cons, List.not_mem_nil, or_false] at hpart
  obtain ((rfl | rfl | rfl) | hkey) | rfl | rfl | rfl | rfl := hpart
  · cases haccess
  · cases haccess
  · cases haccess
  · exact (w.keys_yield part hkey).readOnly access haccess
  · cases haccess
  · exact w.operand_yields.readOnly access haccess
  · cases haccess
  · rw [accesses_keyFilter] at haccess
    exact w.first_yields.readOnly access haccess

theorem eq_pos_of_write {p : Nat} {instruction : Instruction} {other : String}
    (hget : w.code[p]? = some instruction) (hwrite : instruction.access? = some (.write other)) :
    p = w.pos := by
  have hne : ∀ code : Code, code.ReadOnly → instruction ∉ code := by
    intro code hcode hmem
    obtain ⟨store, hread⟩ := hcode _ (List.mem_filterMap.mpr ⟨instruction, hmem, hwrite⟩)
    cases hread
  have htail : w.tail.ReadOnly := by
    rw [ReadOnly, w.tail_accesses]
    exact List.forall_mem_nil _
  rw [code] at hget
  rcases Nat.lt_trichotomy p w.pos with hlt | heq | hgt
  · rw [List.getElem?_append_left hlt] at hget
    exact absurd (List.mem_of_getElem? hget) (hne _ w.readOnly_parts)
  · exact heq
  · obtain ⟨k, rfl⟩ := Nat.exists_eq_add_of_lt hgt
    rw [List.getElem?_append_right (by rw [pos]; omega)] at hget
    have hk : w.pos + k + 1 - w.parts.flatten.length = k + 1 := by rw [pos]; omega
    rw [hk, List.getElem?_cons_succ] at hget
    exact absurd (List.mem_of_getElem? hget) (hne _ htail)

theorem sendsUpdate (h : KnowsPaths effects) :
    w.code.SendsUpdate effects w.store w.operator w.first w.keys (w.operand.Leaves effects)
      w.pos where
  update := by
    rw [code, pos, List.getElem?_append_right (Nat.le_refl _), Nat.sub_self]
    rfl
  only _ _ _ hget hwrite := w.eq_pos_of_write hget hwrite
  sends s t := by
    rw [code, pos, reaches_end (closed_flatten w.closed_parts) w.tail_forward
      (Instruction.ahead_of_isEffect rfl), passes_flatten w.closed_parts, w.inOrder_parts h]

/-- The lookup by the keys of a write. -/
def lookup : Lookup where
  store := w.store
  first := w.first
  keys := w.keys
  first_closed := w.first_yields.shifts.closed
  keys_closed key hkey := (w.keys_yield key hkey).shifts.closed

end NestedWrite

theorem topIsNull_push {document : Datum} {name : String} {value : Json}
    (h : document.json.member? name = some value) : (s.push document).TopIsNull false := by
  refine ⟨document, rfl, ?_⟩
  constructor
  · rintro ⟨⟩
  · rintro rfl
    cases h

theorem Lookup.descent_eq (l : Lookup) (hkeys : l.keys ≠ []) :
    l.descent = l.keys.flatten ++ [.getField l.keys.length] :=
  if_neg hkeys

theorem Lookup.runs_descent (l : Lookup) (hkeys : l.keys ≠ []) (htop : s.TopIsNull false) :
    l.code.Runs effects (l.search.length, s)
        (l.search.length + (l.keys.flatten.length + 3), u) ↔
      ∃ v, effects (.tryGetField "_val") s v ∧ InOrder effects l.keys v u := by
  have hfield : (Instruction.getField l.keys.length).isEffect = true := rfl
  have hdescent := l.descent_eq hkeys
  have hlength : l.descent.length = l.keys.flatten.length + 1 := by
    rw [hdescent, List.length_append, List.length_singleton]
  have hreaches : ∀ {v u : State ρ}, l.descent.Reaches effects v l.keys.flatten.length u ↔
      InOrder effects l.keys v u := by
    intro v u
    rw [hdescent, reaches_end (closed_flatten l.keys_closed) forward_nil
      (Instruction.ahead_of_isEffect hfield), passes_flatten l.keys_closed]
  rw [l.runs_present htop, length_code, hlength]
  constructor
  · rintro (⟨hp, -⟩ | ⟨hp, -⟩ | ⟨hp, -⟩ | ⟨v, heffect, ⟨r, -, hr, hrun⟩ | ⟨hp, -⟩⟩)
    · omega
    · omega
    · omega
    · obtain rfl : r = l.keys.flatten.length := by omega
      exact ⟨v, heffect, hreaches.mp hrun⟩
    · omega
  · rintro ⟨v, heffect, hrun⟩
    exact .inr (.inr (.inr ⟨v, heffect, .inl
      ⟨l.keys.flatten.length, Nat.le_succ _, by omega, hreaches.mpr hrun⟩⟩))

theorem Lookup.getElem?_findOne (l : Lookup) :
    l.code[(keyFilter l.first).length]? = some (.findOne l.store .emptyObject) := by
  rw [code_eq, search, List.append_assoc, List.getElem?_append_right (Nat.le_refl _),
    Nat.sub_self]
  rfl

theorem Lookup.getElem?_getField (l : Lookup) (hkeys : l.keys ≠ []) :
    l.code[l.search.length + (l.keys.flatten.length + 3)]? =
      some (.getField l.keys.length) := by
  have hdescent := l.descent_eq hkeys
  have hrest : l.rest = .isNull :: .skipIf (l.descent.length + l.failure.length) ::
      .tryGetField "_val" :: (l.keys.flatten ++ .getField l.keys.length ::
        .jumpForward l.failure.length :: l.failure) := by
    simp [rest, found, hdescent]
  rw [code_eq, hrest, List.getElem?_append_right (Nat.le_add_right _ _), Nat.add_sub_cancel_left]
  simp

theorem Lookup.descends (h : KnowsPaths effects) (l : Lookup) (hfirst : l.first.Shifts 0 1)
    (hkeys : l.keys ≠ []) : l.code.Descends effects l.store l.first l.keys := by
  have hsearch : (keyFilter l.first).length + 1 = l.search.length := by
    rw [search, List.length_append, List.length_singleton]
  refine ⟨(keyFilter l.first).length, l.search.length + (l.keys.flatten.length + 3),
    l.getElem?_findOne, fun s t => ?_, fun document value s hvalue => ⟨fun u => ?_, ?_⟩⟩
  · rw [code_eq, search, List.append_assoc, List.singleton_append,
      reaches_end (closed_keyFilter l.first_closed) l.closed_rest.forward
        (Instruction.ahead_of_isEffect rfl), passes_keyFilter h hfirst]
  · rw [hsearch, l.runs_descent hkeys (topIsNull_push hvalue)]
    simp only [h.field _ _ _ _ _ hvalue, exists_eq_left]
  · intro u texts result hlength hstack hresult q t
    have hnested : value.json.valueAt? texts = some result.json := by
      simpa [Json.valueAt?, hvalue] using hresult
    rw [step_effect (l.getElem?_getField hkeys) rfl, ← hlength,
      h.fields texts value result s.stack u t hstack hnested]

/-- A machine that knows literals, texts and fields, and is stuck at all else that is left open. -/
def fieldEffects : Effects Unit
  | .instantiate value, s, t => t = s.push value
  | .concatStrings count joiner, s, t =>
      ∃ (texts : List String) (below : List Datum), texts.length = count ∧
        s.stack = (texts.map Datum.string).reverse ++ below ∧
        t = s.withStack (.string (joiner.intercalate texts) :: below)
  | .tryGetField name, s, t =>
      ∃ (object value : Datum) (u : State Unit), s = u.push object ∧
        object.json.member? name = some value.json ∧ t = u.push value
  | .getField depth, s, t =>
      ∃ (texts : List String) (object value : Datum) (below : List Datum), texts.length = depth ∧
        s.stack = (texts.map Datum.string).reverse ++ object :: below ∧
        object.json.valueAt? texts = some value.json ∧ t = s.withStack (value :: below)
  | .setField depth, s, t =>
      ∃ (texts : List String) (object value result : Datum) (below : List Datum),
        texts.length = depth ∧
        s.stack = value :: ((texts.map Datum.string).reverse ++ object :: below) ∧
        Json.withValueAt? value.json texts object.json = some result.json ∧
        t = s.withStack (result :: below)
  | _, _, _ => False

theorem keepsBelow_fieldEffects : KeepsBelow fieldEffects := by
  intro instruction s t _ h
  cases instruction with
  | instantiate value =>
      obtain rfl := h
      exact ⟨[], [value], s.stack, rfl, rfl, rfl, rfl⟩
  | concatStrings count joiner =>
      obtain ⟨texts, below, rfl, hstack, rfl⟩ := h
      refine ⟨_, [_], below, hstack, rfl, ?_, ?_⟩
      · simp [Instruction.operands]
      · simp only [Instruction.operands, Instruction.net, List.length_singleton]
        omega
  | tryGetField name =>
      obtain ⟨object, value, u, rfl, -, rfl⟩ := h
      exact ⟨[object], [value], u.stack, rfl, rfl, rfl, rfl⟩
  | getField depth =>
      obtain ⟨texts, object, value, below, rfl, hstack, -, rfl⟩ := h
      refine ⟨(texts.map Datum.string).reverse ++ [object], [value], below, ?_, rfl, ?_, ?_⟩
      · simp [hstack]
      · simp [Instruction.operands]
      · simp only [Instruction.operands, Instruction.net, List.length_singleton]
        omega
  | setField depth =>
      obtain ⟨texts, object, value, result, below, rfl, hstack, -, rfl⟩ := h
      refine ⟨value :: ((texts.map Datum.string).reverse ++ [object]), [result], below, ?_, rfl,
        ?_, ?_⟩
      · simp [hstack]
      · simp [Instruction.operands]
      · simp only [Instruction.operands, Instruction.net, List.length_singleton]
        omega
  | _ => exact h.elim

theorem knowsPaths_fieldEffects : KnowsPaths fieldEffects where
  instantiate _ _ _ := Iff.rfl
  concat _ _ _ _ := Iff.rfl
  field name object value s t hvalue := by
    constructor
    · rintro ⟨other, result, ⟨below, rest⟩, hpush, hresult, rfl⟩
      obtain ⟨hstack, rfl⟩ := State.mk.inj hpush
      obtain ⟨rfl, rfl⟩ := List.cons.inj hstack
      obtain rfl := Datum.ext_json (Option.some.inj (hvalue.symm.trans hresult))
      rfl
    · rintro rfl
      exact ⟨object, value, s, rfl, hvalue, rfl⟩
  fields texts object value below s t hstack hvalue := by
    constructor
    · rintro ⟨others, other, result, rest, hlength, hothers, hresult, rfl⟩
      obtain ⟨rfl, hbelow⟩ := texts_unique (hstack.symm.trans hothers) hlength.symm
      obtain ⟨rfl, rfl⟩ := List.cons.inj hbelow
      obtain rfl := Datum.ext_json (Option.some.inj (hvalue.symm.trans hresult))
      rfl
    · rintro rfl
      exact ⟨texts, object, value, below, rfl, hstack, hvalue, rfl⟩
  setField texts object value result below s t hstack hresult := by
    constructor
    · rintro ⟨others, other, input, output, rest, hlength, hothers, houtput, rfl⟩
      obtain ⟨rfl, htexts⟩ := List.cons.inj (hstack.symm.trans hothers)
      obtain ⟨rfl, hbelow⟩ := texts_unique htexts hlength.symm
      obtain ⟨rfl, rfl⟩ := List.cons.inj hbelow
      obtain rfl := Datum.ext_json (Option.some.inj (hresult.symm.trans houtput))
      rfl
    · rintro rfl
      exact ⟨texts, object, value, result, below, rfl, hstack, hresult, rfl⟩
  below := keepsBelow_fieldEffects

theorem inOrder_texts (h : KnowsPaths effects) (texts : List String) (s : State ρ) :
    InOrder effects (texts.map fun value => [text value]) s
      (s.withStack ((texts.map Datum.string).reverse ++ s.stack)) := by
  induction texts generalizing s with
  | nil => rfl
  | cons value rest ih =>
      refine ⟨s.push (.string value), ?_, ?_⟩
      · rw [passes_effect rfl, text, h.instantiate]
      · rw [List.map_cons, List.reverse_cons, List.append_assoc]
        exact ih (s.push (.string value))

theorem passes_nestedPath (h : KnowsPaths effects) (texts : List String) (s : State ρ) :
    (nestedPath texts.length (texts.map text)).Passes effects s
      (s.push (.string (dottedPath texts))) := by
  have hclosed : ∀ part ∈ ("_val" :: texts).map fun value => [text value], Closed part := by
    intro part hpart
    obtain ⟨value, -, rfl⟩ := List.mem_map.mp hpart
    exact closed_effect rfl closed_nil
  have hcode : nestedPath texts.length (texts.map text) =
      (("_val" :: texts).map fun value => [text value]).flatten ++
        [.concatStrings ("_val" :: texts).length "."] := by
    rw [nestedPath, List.map_eq_flatMap]
    rfl
  rw [hcode, passes_append (closed_flatten hclosed) (closed_effect rfl closed_nil).forward]
  refine ⟨_, (passes_flatten hclosed).mpr (inOrder_texts h ("_val" :: texts) s), ?_⟩
  rw [passes_effect rfl, h.concat_iff rfl]
  rfl

/-- A key that holds a point is written where two keys lead, which is not where it is looked up. -/
theorem nestedPath_not_injective :
    (¬ ∀ (keys others : List String) (nested more : Code) (path : Datum),
      keys ≠ [] → others ≠ [] →
      Expr.compileList Scope.empty (keys.map .string) = .ok nested →
      Expr.compileList Scope.empty (others.map .string) = .ok more →
      (nestedPath keys.length nested).Passes fieldEffects ⟨[], ()⟩ ⟨[path], ()⟩ →
      (nestedPath others.length more).Passes fieldEffects ⟨[], ()⟩ ⟨[path], ()⟩ →
      keys = others) ∧
    fieldsOf (dottedPath ["a.b"]) ≠ ["_val", "a.b"] := by
  constructor
  · intro h
    have hone := passes_nestedPath knowsPaths_fieldEffects ["a.b"] ⟨[], ()⟩
    have htwo := passes_nestedPath knowsPaths_fieldEffects ["a", "b"] ⟨[], ()⟩
    have hpath : dottedPath ["a", "b"] = dottedPath ["a.b"] := by decide
    rw [hpath] at htwo
    have hkeys := h ["a.b"] ["a", "b"] _ _ _ (List.cons_ne_nil _ _) (List.cons_ne_nil _ _)
      rfl rfl hone htwo
    exact absurd (congrArg List.length hkeys) (by decide)
  · decide

end Code

namespace Expr

variable {slots : Slots} {es : List Expr} {code : Code}

theorem compileList_of_codes {codes : List Code} (h : Codes slots es codes) :
    compileList slots es = .ok codes.flatten := by
  induction h with
  | nil => rfl
  | cons hfirst _ ih =>
      rw [compileList, hfirst, ih]
      rfl

theorem yields_of_compile {e : Expr} (h : e.compile slots = .ok code) : code.Yields where
  shifts := shifts_compile slots e h
  readOnly _ haccess := Source.exists_eq_read ((readsFrom_compile slots e h).mem_iff.mp haccess)

theorem yields_of_compileArray (h : compileArray slots es = .ok code) : code.Yields := by
  have harray : (array es).compile slots = .ok code := by
    rw [compile]
    exact h
  exact yields_of_compile harray

theorem Codes.yields {codes : List Code} (h : Codes slots es codes) :
    ∀ code ∈ codes, code.Yields := by
  induction h with
  | nil => exact List.forall_mem_nil _
  | cons hfirst _ ih => exact List.forall_mem_cons.mpr ⟨yields_of_compile hfirst, ih⟩

end Expr

namespace Statement

/-- The statement writes what keys lead to in a store. -/
def WritesTo (store : String) (path : List Expr) : Statement → Prop
  | .setKey other keys _ | .pushAtKey other keys _ | .deleteKey other keys =>
      other = store ∧ keys = path
  | _ => False

/-- The operator of the update by which a statement writes. -/
def operator : Statement → String
  | .setKey .. => "$set"
  | .pushAtKey .. => "$push"
  | .deleteKey .. => "$unset"
  | _ => ""

open Code in
/-- The operand of the update by which a statement writes: the value that is set, each of the values
that are pushed, or an empty text. -/
def LeavesOperand {ρ : Type} (effects : Effects ρ) (slots : Slots) :
    Statement → State ρ → Datum → State ρ → Prop
  | .setKey _ _ value, s, operand, t =>
      ∃ code, value.compile slots = .ok code ∧ code.Leaves effects s operand t
  | .pushAtKey _ _ values, s, operand, t =>
      ∃ code array u, Expr.compileArray slots values = .ok code ∧
        code.Leaves effects (s.withStack (.string "$each" :: .emptyObject :: s.stack)) array u ∧
        operand = .entry "$each" array ∧ t = u.withStack (operand :: s.stack)
  | .deleteKey .., s, operand, t => operand = .string "" ∧ t = s.push operand
  | _, _, _, _ => False

/-- The write that a statement compiles to. -/
structure CompilesTo (slots : Slots) (store : String) (first : Expr) (rest : List Expr)
    (write : Statement) (w : Code.NestedWrite) : Prop where
  store : w.store = store
  operator : w.operator = write.operator
  first : first.compile slots = .ok w.first
  keys : Expr.Codes slots rest w.keys
  operand : ∀ {ρ : Type} {effects : Effects ρ}, Code.KnowsPaths effects →
    ∀ s operand t, w.operand.Leaves effects s operand t ↔
      write.LeavesOperand effects slots s operand t

open Code in
theorem exists_compilesTo_of_compile {slots after : Slots} {store : String} {first : Expr}
    {rest : List Expr} (hrest : rest ≠ []) {write : Statement} {code : Code}
    (hwrite : write.WritesTo store (first :: rest)) (h : write.compile slots = .ok (code, after)) :
    ∃ w : NestedWrite, write.CompilesTo slots store first rest w ∧ w.code = code := by
  cases write with
  | setKey other keys value =>
      obtain ⟨rfl, rfl⟩ := hwrite
      simp only [compile, bind_eq_ok, pure_eq_ok, Prod.mk.injEq] at h
      obtain ⟨nested, hnested, input, hinput, key, hkey, rfl, -⟩ := h
      obtain ⟨codes, hcodes, rfl, -⟩ := Expr.exists_codes_of_compileList hnested
      refine ⟨⟨other, "$set", key, codes, input, verdict, Expr.yields_of_compile hkey,
        hcodes.yields, Expr.yields_of_compile hinput, Update.closed_verdict.forward, rfl⟩,
        ⟨rfl, rfl, hkey, hcodes, fun h s operand t => ?_⟩, ?_⟩
      · rw [LeavesOperand, hinput]
        simp
      · simp [NestedWrite.code, NestedWrite.parts, Code.setKey, nestedPath, updateDocument,
          verdict, hrest, ← hcodes.length_eq]
  | pushAtKey other keys values =>
      obtain ⟨rfl, rfl⟩ := hwrite
      simp only [compile, bind_eq_ok, pure_eq_ok, Prod.mk.injEq] at h
      obtain ⟨nested, hnested, inputs, hinputs, key, hkey, rfl, -⟩ := h
      obtain ⟨codes, hcodes, rfl, -⟩ := Expr.exists_codes_of_compileList hnested
      have hvalues := Expr.yields_of_compileArray hinputs
      refine ⟨⟨other, "$push", key, codes, eachDocument inputs, verdict,
        Expr.yields_of_compile hkey, hcodes.yields, yields_eachDocument hvalues,
        Update.closed_verdict.forward, rfl⟩, ⟨rfl, rfl, hkey, hcodes, fun h s operand t => ?_⟩, ?_⟩
      · rw [LeavesOperand, leaves_eachDocument h hvalues.shifts, hinputs]
        simp
      · simp [NestedWrite.code, NestedWrite.parts, Code.pushAtKey, nestedPath, updateDocument,
          verdict, hrest, ← hcodes.length_eq]
  | deleteKey other keys =>
      obtain ⟨rfl, rfl⟩ := hwrite
      simp only [compile, bind_eq_ok, pure_eq_ok, Prod.mk.injEq] at h
      obtain ⟨nested, hnested, key, hkey, rfl, -⟩ := h
      obtain ⟨codes, hcodes, rfl, -⟩ := Expr.exists_codes_of_compileList hnested
      have hpop : Closed [.popStack] := closed_effect rfl closed_nil
      refine ⟨⟨other, "$unset", key, codes, [text ""], [.popStack], Expr.yields_of_compile hkey,
        hcodes.yields, yields_text "", hpop.forward, rfl⟩,
        ⟨rfl, rfl, hkey, hcodes, fun h s operand t => ?_⟩, ?_⟩
      · exact leaves_instantiate h (.string "")
      · simp [NestedWrite.code, NestedWrite.parts, Code.deleteKey, nestedPath, hrest,
          ← hcodes.length_eq]
  | _ => exact hwrite.elim

open Code in
/-- A write with nested keys sends one update, to the document that a lookup by the same keys finds,
at the path of the nested keys. The path leads through the fields by which the lookup descends
exactly if no key holds a point, and paths are the same exactly if their keys are once they are taken
apart at the points. -/
theorem written_where_looked_up {ρ : Type} {effects : Effects ρ} (h : KnowsPaths effects)
    {slots after : Slots} {store : String} {first : Expr} {rest : List Expr} (hrest : rest ≠ [])
    {write : Statement} {written : Code} (hwrite : write.WritesTo store (first :: rest))
    (hwritten : write.compile slots = .ok (written, after)) :
    (∃ (key lookup : Code) (keys : List Code) (pos : Nat),
      first.compile slots = .ok key ∧ Expr.Codes slots rest keys ∧
      (Expr.keyOfObject store (first :: rest)).compile slots = .ok lookup ∧
      written.SendsUpdate effects store write.operator key keys
        (write.LeavesOperand effects slots) pos ∧
      lookup.Descends effects store key keys) ∧
    (∀ texts : List String, fieldsOf (dottedPath texts) = "_val" :: texts ↔
      ∀ text ∈ texts, '.' ∉ text.toList) ∧
    ∀ texts others : List String,
      (dottedPath texts = dottedPath others ↔ texts.flatMap fieldsOf = others.flatMap fieldsOf) ∧
      ((∀ text ∈ texts ++ others, '.' ∉ text.toList) →
        (dottedPath texts = dottedPath others ↔ texts = others)) := by
  refine ⟨?_, fun texts => ?_, fun texts others => ⟨dottedPath_eq_iff, fun hplain => ?_⟩⟩
  · obtain ⟨w, hw, rfl⟩ := exists_compilesTo_of_compile hrest hwrite hwritten
    have hlookup : (Expr.keyOfObject store (first :: rest)).compile slots =
        .ok (keyOfObject store w.first rest.length w.keys.flatten) := by
      rw [Expr.compile, Expr.compileList_of_codes hw.keys, hw.first]
      rfl
    have hoperand : w.operand.Leaves effects = write.LeavesOperand effects slots := by
      funext s operand t
      exact propext (hw.operand h s operand t)
    have hkeys : w.keys ≠ [] := fun hnil => hrest (List.eq_nil_of_length_eq_zero
      (hw.keys.length_eq.trans (congrArg List.length hnil)))
    refine ⟨w.first, _, w.keys, w.pos, hw.first, hw.keys, hlookup, ?_, ?_⟩
    · rw [← hoperand, ← hw.store, ← hw.operator]
      exact w.sendsUpdate h
    · rw [← hw.store, hw.keys.length_eq]
      exact w.lookup.descends h w.first_yields.shifts hkeys
  · rw [fieldsOf_dottedPath, List.cons.injEq, flatMap_fieldsOf_eq_self_iff]
    simp
  · have htexts : texts.flatMap fieldsOf = texts :=
      flatMap_fieldsOf_eq_self_iff.mpr fun text htext => hplain text (List.mem_append_left _ htext)
    have hothers : others.flatMap fieldsOf = others :=
      flatMap_fieldsOf_eq_self_iff.mpr fun text htext => hplain text (List.mem_append_right _ htext)
    rw [dottedPath_eq_iff, htexts, hothers]

open Code in
theorem written_where_looked_up_settings :
    ∃ (written lookup : Code) (pos : Nat),
      (setKey "users" [.string "k", .string "settings", .string "colour"]
        (.bool true)).compile Scope.empty = .ok (written, Scope.empty) ∧
      (Expr.keyOfObject "users" [.string "k", .string "settings", .string "colour"]).compile
        Scope.empty = .ok lookup ∧
      lookup.Descends fieldEffects "users" [text "k"] [[text "settings"], [text "colour"]] ∧
      written[pos]? = some (.updateOne "users" false) ∧
      (∀ s : State Unit, written.Reaches fieldEffects s pos (s.withStack
        (.entry "_key" (.string "k") ::
          .entry "$set" (.entry "_val.settings.colour" (.bool true)) :: s.stack))) ∧
      fieldsOf "_val.settings.colour" = ["_val", "settings", "colour"] := by
  obtain ⟨⟨written, after⟩, hwritten⟩ : ∃ result,
      (setKey "users" [.string "k", .string "settings", .string "colour"]
        (.bool true)).compile Scope.empty = .ok result := ⟨_, rfl⟩
  obtain rfl : Scope.empty = after := congrArg Prod.snd (Except.ok.inj hwritten)
  have hwrite : (setKey "users" [.string "k", .string "settings", .string "colour"]
      (.bool true)).WritesTo "users" [.string "k", .string "settings", .string "colour"] :=
    ⟨rfl, rfl⟩
  obtain ⟨⟨key, lookup, keys, pos, hkey, hkeys, hlookup, hsends, hdescends⟩, hfields, -⟩ :=
    written_where_looked_up knowsPaths_fieldEffects (List.cons_ne_nil _ _) hwrite hwritten
  obtain rfl := Except.ok.inj hkey
  rcases hkeys with _ | ⟨hone, _ | ⟨htwo, ⟨⟩⟩⟩
  obtain rfl := Except.ok.inj hone
  obtain rfl := Except.ok.inj htwo
  have hpath : dottedPath ["settings", "colour"] = "_val.settings.colour" := by decide
  refine ⟨written, lookup, pos, hwritten, hlookup, hdescends, hsends.update, fun s => ?_, ?_⟩
  · have htexts := inOrder_texts knowsPaths_fieldEffects ["settings", "colour"]
    have hleaves (value : Datum) (s : State Unit) :=
      (leaves_instantiate (s := s) knowsPaths_fieldEffects value).mpr ⟨rfl, rfl⟩
    refine (hsends.sends s _).mpr ⟨["settings", "colour"], .bool true, _, _,
      ⟨htexts _, rfl, rfl⟩, ⟨_, rfl, hleaves _ _⟩, .string "k", _, hleaves _ _, ?_⟩
    rw [hpath]
    rfl
  · rw [← hpath]
    exact (hfields _).mpr (by decide)

end Statement

end StoredProcedure
