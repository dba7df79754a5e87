import StoredProcedure.Proofs.CodeScope
import StoredProcedure.Proofs.ControlFlow

namespace StoredProcedure

namespace Instruction

/-- How many values an instruction needs on the stack. -/
def operands : Instruction → Nat
  | .popStack | .popArray | .arrayLength | .stackToHeap | .stackToHeapArray _ | .overwriteHeap _
  | .tryGetField _ | .getKeys | .negate | .typeOf | .hasType _ | .isNull | .skipIf _ | .returnTop
  | .signRole | .repackage | .findOne _ _ | .query _ _ | .deleteOne _ => 1
  | .arrayPush | .fieldExists | .equal | .less | .lessEqual | .and | .or | .add | .subtract
  | .multiply | .divide | .updateOne _ _ => 2
  | .deepArrayPush offset => offset + 2
  | .getField depth => depth + 1
  | .setField depth => depth + 2
  | .setSavedField depth _ | .pushSavedField depth _ => depth + 1
  | .deleteSavedField depth _ => depth
  | .concatStrings count _ => count
  | .invoke _ args => args
  | _ => 0

/-- By how much an instruction changes the height of the stack. -/
def net : Instruction → Int
  | .instantiate _ | .copyFromHeap _ | .arrayLength | .isNull | .getAll _ | .enforceSchema _ _
  | .popArray => 1
  | .popStack | .stackToHeap | .stackToHeapArray _ | .overwriteHeap _ | .arrayPush
  | .deepArrayPush _ | .skipIf _ | .returnTop | .equal | .less | .lessEqual | .and | .or | .add
  | .subtract | .multiply | .divide | .fieldExists | .updateOne _ _ => -1
  | .getField depth => -depth
  | .setField depth | .setSavedField depth _ | .pushSavedField depth _ => -(depth + 1)
  | .deleteSavedField depth _ => -depth
  | .concatStrings count _ => 1 - count
  | .invoke _ args => 1 - args
  | _ => 0

theorem neg_net_le_operands (instruction : Instruction) :
    -instruction.net ≤ instruction.operands := by
  cases instruction <;> simp only [net, operands] <;> omega

/-- An instruction that finds its operands above the `base` lowest values of the stack. -/
def StackEffect (base : Nat) (instruction : Instruction) (height after : Nat) : Prop :=
  base + instruction.operands ≤ height ∧ (after : Int) = height + instruction.net

end Instruction

open Instruction (StackEffect)

namespace Code

theorem Flows.weaken {σ : Type} {effect other : Instruction → σ → σ → Prop} {code : Code} {a : σ}
    {exits : List (Nat × σ)} (h : Flows effect code a exits)
    (heffect : ∀ instruction s t, effect instruction s t → other instruction s t) :
    Flows other code a exits := by
  obtain ⟨levels, henter, hflow⟩ := h
  refine ⟨levels, henter, fun pos instruction hpos => ?_⟩
  obtain ⟨s, hs, hmoves⟩ := hflow pos instruction hpos
  exact ⟨s, heffect _ _ _ hs, hmoves⟩

/-- Code that finds `before` values and leaves `after`, whatever lies below them. It is left at its
end only. -/
def Shifts (before after : Nat) (code : Code) : Prop :=
  ∀ base, Flows (StackEffect base) code (base + before) [(0, base + after)]

variable {part more : Code} {a b c : Nat}

theorem shifts_nil (a : Nat) : Shifts a a [] :=
  fun base => flows_nil (base + a)

theorem Shifts.append (hpart : part.Shifts a b) (hmore : more.Shifts b c) :
    (part ++ more).Shifts a c :=
  fun base => (hpart base).andThen (hmore base)

theorem Shifts.lift (h : part.Shifts a b) (more : Nat) : part.Shifts (a + more) (b + more) := by
  intro base
  have hflow := h (base + more)
  rw [Nat.add_assoc, Nat.add_assoc, Nat.add_comm more, Nat.add_comm more] at hflow
  refine hflow.weaken fun instruction height after heffect => ⟨?_, heffect.2⟩
  have hoperands := heffect.1
  omega

theorem shifts_step {instruction : Instruction} (hmoves : instruction.moves = [1])
    (hoperands : instruction.operands ≤ a) (hnet : (b : Int) = a + instruction.net) :
    Shifts a b [instruction] := by
  intro base
  refine flows_step hmoves ⟨by omega, ?_⟩
  push_cast
  omega

theorem shifts_getField (depth : Nat) : Shifts (depth + 1) 1 [.getField depth] :=
  shifts_step rfl (Nat.le_refl _) (by simp only [Instruction.net]; omega)

theorem shifts_concatStrings (count : Nat) (joiner : String) :
    Shifts count 1 [.concatStrings count joiner] :=
  shifts_step rfl (Nat.le_refl _) (by simp only [Instruction.net]; omega)

theorem shifts_invoke (function : String) (args : Nat) : Shifts args 1 [.invoke function args] :=
  shifts_step rfl (Nat.le_refl _) (by simp only [Instruction.net]; omega)

/-- The height after instructions that are run one after the other, if none lacks operands. -/
def heightAfter (height : Nat) : Code → Option Nat
  | [] => some height
  | instruction :: rest =>
      if instruction.moves = [1] ∧ instruction.operands ≤ height then
        heightAfter (height + instruction.net).toNat rest
      else none

theorem shifts_straight {code : Code} (h : heightAfter a code = some b) : code.Shifts a b := by
  induction code generalizing a with
  | nil =>
      obtain rfl := Option.some.inj h
      exact shifts_nil a
  | cons instruction rest ih =>
      rw [heightAfter] at h
      split at h
      · rename_i hfits
        have hnet := instruction.neg_net_le_operands
        have hfirst : Shifts a (a + instruction.net).toNat [instruction] :=
          shifts_step hfits.1 hfits.2 (by omega)
        exact hfirst.append (ih h)
      · cases h

theorem shifts_stop {instruction : Instruction} (hmoves : instruction.moves = [])
    (hoperands : instruction.operands ≤ a) (b : Nat) : Shifts a b [instruction] := by
  intro base
  have hnet := instruction.neg_net_le_operands
  refine flows_stop (b := (base + a + instruction.net).toNat) hmoves ⟨by omega, ?_⟩ _
  push_cast
  omega

theorem shifts_raise (message : String) (a b : Nat) : Shifts a b [.raise message] :=
  shifts_stop rfl (Nat.zero_le a) b

theorem stackEffect_skipIf (base count a : Nat) :
    StackEffect base (.skipIf count) (base + (a + 1)) (base + a) := by
  refine ⟨?_, ?_⟩
  · simp only [Instruction.operands]
    omega
  · simp only [Instruction.net]
    omega

theorem stackEffect_jump (base offset a : Nat) (forward : Bool) :
    StackEffect base (.jump offset forward) (base + a) (base + a) := by
  refine ⟨?_, ?_⟩
  · simp only [Instruction.operands]
    omega
  · simp only [Instruction.net]
    omega

theorem Shifts.skipOver (h : part.Shifts a a) : Shifts (a + 1) a (.skipIf part.length :: part) :=
  fun base => flows_skipOver (stackEffect_skipIf base _ a) (h base)

theorem Shifts.jumpOver (h : part.Shifts a b) : Shifts b b (.jumpForward part.length :: part) :=
  fun base => flows_jumpOver (stackEffect_jump base _ b true) (h base)

theorem Shifts.choice (hpart : part.Shifts a b) (hmore : more.Shifts a b) :
    Shifts (a + 1) b (.skipIf (part.length + 1) :: (part ++ .jumpForward more.length :: more)) :=
  fun base => flows_choice (stackEffect_skipIf base _ a) (hpart base)
    (stackEffect_jump base _ b true) (hmore base)

theorem Shifts.loop (hpart : part.Shifts a (a + 1)) (hmore : more.Shifts a a) :
    Shifts a a
      ((part ++ .skipIf (more.length + 1) :: more) ++
        [.jumpBack (part ++ .skipIf (more.length + 1) :: more).length]) :=
  fun base => flows_loop (hpart base) (stackEffect_skipIf base _ a) (hmore base)
    (stackEffect_jump base _ a false)

section Store

variable {first rest value : Code} {count : Nat}

theorem shifts_keyFilter (h : first.Shifts 0 1) : (keyFilter first).Shifts 0 1 := by
  have hstart : Shifts 0 2 [.instantiate (.entry "_key" .emptyObject), text "_key"] :=
    shifts_straight rfl
  have hend : Shifts 3 1 [.setField 1] := shifts_straight rfl
  exact hstart.append ((h.lift 2).append hend)

theorem shifts_nestedPath (h : rest.Shifts 0 count) : (nestedPath count rest).Shifts 0 1 := by
  have hstart : Shifts 0 1 [text "_val"] := shifts_straight rfl
  exact hstart.append ((h.lift 1).append (shifts_concatStrings (count + 1) "."))

theorem shifts_eachDocument (h : value.Shifts 0 1) : (eachDocument value).Shifts 0 1 := by
  have hstart : Shifts 0 2 [.instantiate .emptyObject, text "$each"] := shifts_straight rfl
  have hend : Shifts 3 1 [.setField 1] := shifts_straight rfl
  exact hstart.append ((h.lift 2).append hend)

theorem shifts_updateDocument (store : String) (upsert : Bool) (h : first.Shifts 0 1) :
    (updateDocument store upsert first).Shifts 1 0 := by
  have hupdate : Shifts 2 2 [.updateOne store upsert, .isNull] := shifts_straight rfl
  have hpop : Shifts 1 0 [.popStack] := shifts_straight rfl
  have hchoice := hpop.choice (shifts_raise "Nested key does not exist" 1 0)
  exact ((shifts_keyFilter h).lift 1).append (hupdate.append hchoice)

theorem shifts_keyOfObject (store : String) (hfirst : first.Shifts 0 1)
    (hrest : rest.Shifts 0 count) : (keyOfObject store first count rest).Shifts 0 1 := by
  have hfind : Shifts 1 2 [.findOne store .emptyObject, .isNull] := shifts_straight rfl
  have hstart := (shifts_keyFilter hfirst).append hfind
  have hnull : Shifts 0 1 [.instantiate .null] := shifts_straight rfl
  rw [keyOfObject]
  by_cases hcount : count = 0
  · have hfield : Shifts 1 1 [.tryGetField "_val"] := shifts_straight rfl
    have h := hstart.append (hfield.skipOver.append hnull.jumpOver)
    simpa [hcount] using h
  · have hfield : Shifts 1 1 [.tryGetField "_val"] := shifts_straight rfl
    have hfound := hfield.append ((hrest.lift 1).append (shifts_getField count))
    have hmissing := (shifts_raise "Key does not exist on global" 1 0).append hnull
    have h := hstart.append (hfound.choice hmissing)
    simpa [hcount, Nat.add_comm 1] using h

theorem shifts_keyExists (store : String) (h : first.Shifts 0 1) :
    (keyExists store first).Shifts 0 1 := by
  have hfind : Shifts 1 2 [.findOne store (.entry "_val" (.bool false)), .isNull] :=
    shifts_straight rfl
  have hfound : Shifts 1 1 [.popStack, .instantiate (.bool true)] := shifts_straight rfl
  have hmissing : Shifts 1 1 [.popStack, .instantiate (.bool false)] := shifts_straight rfl
  exact (shifts_keyFilter h).append (hfind.append (hfound.choice hmissing))

theorem shifts_keysOfObject (store : String) : (keysOfObject store).Shifts 0 1 := by
  have hquery : Shifts 0 2 [.instantiate .emptyArray, .instantiate .emptyObject,
      .query store (.entry "_val" (.bool false))] := shifts_straight rfl
  have htest : Shifts 2 3 [.arrayLength, zero, .equal] := shifts_straight rfl
  have hround : Shifts 2 2 [.popArray, text "_key", .getField 1, .deepArrayPush 1] :=
    shifts_straight rfl
  have hpop : Shifts 2 1 [.popStack] := shifts_straight rfl
  exact hquery.append ((htest.loop hround).append hpop)

theorem shifts_setKey (store : String) (hfirst : first.Shifts 0 1) (hrest : rest.Shifts 0 count)
    (hvalue : value.Shifts 0 1) : (setKey store first count rest value).Shifts 0 0 := by
  have hset : Shifts 4 1 [.setField 2] := shifts_straight rfl
  have hend := (hvalue.lift 3).append (hset.append (shifts_updateDocument store (count = 0) hfirst))
  rw [setKey, List.append_assoc]
  refine Shifts.append ?_ hend
  split
  · exact shifts_straight rfl
  · have hstart : Shifts 0 2 [.instantiate (.entry "$set" .emptyObject), text "$set"] :=
      shifts_straight rfl
    exact hstart.append ((shifts_nestedPath hrest).lift 2)

theorem shifts_pushAtKey (store : String) (hfirst : first.Shifts 0 1)
    (hrest : rest.Shifts 0 count) (hvalue : value.Shifts 0 1) :
    (pushAtKey store first count rest value).Shifts 0 0 := by
  rw [pushAtKey]
  refine Shifts.append ?_ (shifts_updateDocument store (count = 0) hfirst)
  split
  · have hstart : Shifts 0 4 [.instantiate (.entry "$push" (.entry "_val" .emptyObject)),
        text "$push", text "_val", text "$each"] := shifts_straight rfl
    have hend : Shifts 5 1 [.setField 3] := shifts_straight rfl
    exact hstart.append ((hvalue.lift 4).append hend)
  · have hstart : Shifts 0 2 [.instantiate (.entry "$push" .emptyObject), text "$push"] :=
      shifts_straight rfl
    have hend : Shifts 4 1 [.setField 2] := shifts_straight rfl
    exact ((hstart.append ((shifts_nestedPath hrest).lift 2)).append
      ((shifts_eachDocument hvalue).lift 3)).append hend

theorem shifts_deleteKey (store : String) (hfirst : first.Shifts 0 1)
    (hrest : rest.Shifts 0 count) : (deleteKey store first count rest).Shifts 0 0 := by
  have hfilter := shifts_keyFilter hfirst
  have hpop : Shifts 1 0 [.popStack] := shifts_straight rfl
  rw [deleteKey]
  refine Shifts.append ?_ hpop
  split
  · have hdelete : Shifts 1 1 [.deleteOne store] := shifts_straight rfl
    exact hfilter.append hdelete
  · have hstart : Shifts 0 2 [.instantiate (.entry "$unset" .emptyObject), text "$unset"] :=
      shifts_straight rfl
    have hset : Shifts 3 1 [text "", .setField 2] := shifts_straight rfl
    have hupdate : Shifts 2 1 [.updateOne store false] := shifts_straight rfl
    exact (((hstart.append ((shifts_nestedPath hrest).lift 2)).append hset).append
      (hfilter.lift 1)).append hupdate

end Store

end Code

theorem Comparison.shifts_code (sign : Comparison) : sign.code.Shifts 2 1 :=
  Code.shifts_straight (by cases sign <;> rfl)

theorem Arithmetic.shifts_instruction (sign : Arithmetic) :
    Code.Shifts 2 1 [sign.instruction] :=
  Code.shifts_straight (by cases sign <;> rfl)

theorem Logic.shifts_instruction (sign : Logic) : Code.Shifts 2 1 [sign.instruction] :=
  Code.shifts_straight (by cases sign <;> rfl)

namespace Expr

mutual
/-- The code of an expression leaves its value. -/
theorem shifts_compile (slots : Slots) : (e : Expr) → {code : Code} →
    e.compile slots = .ok code → code.Shifts 0 1
  | .bool _ | .int _ | .double _ | .string _ | .nothing | .wholeObject _ => by
      intro h
      simp only [compile, Except.ok.injEq] at h
      subst h
      exact Code.shifts_straight rfl
  | .object fields => by
      intro h
      simp only [compile, bind_eq_ok, pure_eq_ok] at h
      obtain ⟨code, hfields, rfl⟩ := h
      have hempty : Code.Shifts 0 1 [.instantiate .emptyObject] := Code.shifts_straight rfl
      exact hempty.append (shifts_compileFields slots fields hfields)
  | .comparison sign left right => by
      intro h
      simp only [compile, bind_eq_ok, pure_eq_ok] at h
      obtain ⟨_, hleft, _, hright, rfl⟩ := h
      exact ((shifts_compile slots left hleft).append
        ((shifts_compile slots right hright).lift 1)).append sign.shifts_code
  | .arithmetic sign left right => by
      intro h
      simp only [compile, bind_eq_ok, pure_eq_ok] at h
      obtain ⟨_, hleft, _, hright, rfl⟩ := h
      exact ((shifts_compile slots left hleft).append
        ((shifts_compile slots right hright).lift 1)).append sign.shifts_instruction
  | .logic sign left right => by
      intro h
      simp only [compile, bind_eq_ok, pure_eq_ok] at h
      obtain ⟨_, hleft, _, hright, rfl⟩ := h
      exact ((shifts_compile slots left hleft).append
        ((shifts_compile slots right hright).lift 1)).append sign.shifts_instruction
  | .negation value | .typeOf value | .hasType value _ | .keys value => by
      intro h
      simp only [compile, bind_eq_ok, pure_eq_ok] at h
      obtain ⟨_, hvalue, rfl⟩ := h
      exact (shifts_compile slots value hvalue).append (Code.shifts_straight rfl)
  | .saved name => by
      intro h
      simp only [compile, bind_eq_ok, pure_eq_ok] at h
      obtain ⟨slot, hslot, rfl⟩ := h
      exact Code.shifts_straight rfl
  | .selection root level => by
      intro h
      simp only [compile, bind_eq_ok] at h
      obtain ⟨code, hroot, h⟩ := h
      have hvalue := shifts_compile slots root hroot
      split at h
      · obtain rfl := pure_eq_ok.mp h
        exact hvalue
      · simp only [bind_eq_ok, pure_eq_ok] at h
        obtain ⟨path, hlevel, rfl⟩ := h
        exact (hvalue.append ((shifts_compileList slots level hlevel).lift 1)).append
          (Code.shifts_getField level.length)
  | .fieldExists value field => by
      intro h
      simp only [compile, bind_eq_ok, pure_eq_ok] at h
      obtain ⟨_, hvalue, _, hfield, rfl⟩ := h
      exact ((shifts_compile slots value hvalue).append
        ((shifts_compile slots field hfield).lift 1)).append (Code.shifts_straight rfl)
  | .array values => by
      intro h
      simp only [compile, bind_eq_ok, pure_eq_ok] at h
      obtain ⟨_, hvalues, rfl⟩ := h
      have hempty : Code.Shifts 0 1 [.instantiate .emptyArray] := Code.shifts_straight rfl
      exact hempty.append (shifts_compilePushes slots values hvalues)
  | .call function args => by
      intro h
      simp only [compile, bind_eq_ok, pure_eq_ok] at h
      obtain ⟨_, hargs, rfl⟩ := h
      exact (shifts_compileList slots args hargs).append (Code.shifts_invoke function args.length)
  | .role schema state => by
      intro h
      rw [compile] at h
      split at h
      · cases h
      · rename_i name _
        simp only [bind_eq_ok, pure_eq_ok] at h
        obtain ⟨_, hstate, rfl⟩ := h
        have hrole : Code.Shifts 0 1 [.instantiate (.entry "_name" (.string name))] :=
          Code.shifts_straight rfl
        have hsign : Code.Shifts 1 1 [.signRole] := Code.shifts_straight rfl
        exact hrole.append ((shifts_compileState slots state hstate).append hsign)
  | .globalObject _ | .keyOfObject _ [] => by
      intro h
      cases h
  | .keyOfObject store (first :: rest) => by
      intro h
      simp only [compile, bind_eq_ok, pure_eq_ok] at h
      obtain ⟨_, hrest, _, hfirst, rfl⟩ := h
      exact Code.shifts_keyOfObject store (shifts_compile slots first hfirst)
        (shifts_compileList slots rest hrest)
  | .keyExists store key => by
      intro h
      simp only [compile, bind_eq_ok, pure_eq_ok] at h
      obtain ⟨_, hkey, rfl⟩ := h
      exact Code.shifts_keyExists store (shifts_compile slots key hkey)
  | .keysOfObject store => by
      intro h
      obtain rfl := Except.ok.inj h
      exact Code.shifts_keysOfObject store
termination_by structural e => e

theorem shifts_compileList (slots : Slots) : (es : List Expr) → {code : Code} →
    compileList slots es = .ok code → code.Shifts 0 es.length
  | [] => by
      intro h
      obtain rfl := Except.ok.inj h
      exact Code.shifts_nil 0
  | e :: rest => by
      intro h
      simp only [compileList, bind_eq_ok, pure_eq_ok] at h
      obtain ⟨_, hfirst, _, hrest, rfl⟩ := h
      exact (shifts_compile slots e hfirst).append ((shifts_compileList slots rest hrest).lift 1)
termination_by structural es => es

theorem shifts_compilePushes (slots : Slots) : (es : List Expr) → {code : Code} →
    compilePushes slots es = .ok code → code.Shifts 1 1
  | [] => by
      intro h
      obtain rfl := Except.ok.inj h
      exact Code.shifts_nil 1
  | e :: rest => by
      intro h
      simp only [compilePushes, bind_eq_ok, pure_eq_ok] at h
      obtain ⟨_, hfirst, _, hrest, rfl⟩ := h
      have hpush : Code.Shifts 2 1 [.arrayPush] := Code.shifts_straight rfl
      exact ((shifts_compile slots e hfirst).lift 1).append
        (hpush.append (shifts_compilePushes slots rest hrest))
termination_by structural es => es

theorem shifts_compileFields (slots : Slots) : (fields : List (Expr × Expr)) →
    {code : Code} → compileFields slots fields = .ok code → code.Shifts 1 1
  | [] => by
      intro h
      obtain rfl := Except.ok.inj h
      exact Code.shifts_nil 1
  | (key, value) :: rest => by
      intro h
      simp only [compileFields, bind_eq_ok, pure_eq_ok] at h
      obtain ⟨_, hkey, _, hvalue, _, hrest, rfl⟩ := h
      have hset : Code.Shifts 3 1 [.setField 1] := Code.shifts_straight rfl
      exact (((shifts_compile slots key hkey).lift 1).append
        ((shifts_compile slots value hvalue).lift 2)).append
        (hset.append (shifts_compileFields slots rest hrest))
termination_by structural fields => fields

theorem shifts_compileState (slots : Slots) : (state : Option Expr) → {code : Code} →
    compileState slots state = .ok code → code.Shifts 1 1
  | none => by
      intro h
      obtain rfl := Except.ok.inj h
      exact Code.shifts_nil 1
  | some state => by
      intro h
      simp only [compileState, bind_eq_ok, pure_eq_ok] at h
      obtain ⟨_, hstate, rfl⟩ := h
      have hfield : Code.Shifts 1 2 [Code.text "_state"] := Code.shifts_straight rfl
      have hset : Code.Shifts 3 1 [.setField 1] := Code.shifts_straight rfl
      exact hfield.append (((shifts_compile slots state hstate).lift 2).append hset)
termination_by structural state => state
end

end Expr

end StoredProcedure
