import StoredProcedure.Proofs.CodeScope
import StoredProcedure.Proofs.ControlFlow

namespace StoredProcedure

namespace Instruction

/-- The slots of the heap that an instruction uses. -/
def slots : Instruction → List Nat
  | .stackToHeapArray slot | .copyFromHeap slot | .overwriteHeap slot | .enforceSchema _ slot
  | .setSavedField _ slot | .deleteSavedField _ slot | .pushSavedField _ slot => [slot]
  | _ => []

/-- The length of the heap after an instruction. -/
def heapAfter (length : Nat) : Instruction → Nat
  | .stackToHeap => length + 1
  | .truncateHeap count => length - count
  | _ => length

/-- What an instruction asks of the length of the heap. The inputs of the function are never
dropped. -/
structure FitsHeap (inputs : Nat) (instruction : Instruction) (length : Nat) : Prop where
  slots : ∀ slot ∈ instruction.slots, slot < length
  truncation : ∀ count, instruction = .truncateHeap count → inputs + count ≤ length
  assertion : ∀ expected, instruction = .assertHeapLength expected → length = expected

/-- An instruction that fits changes the length. -/
def HeapEffect (inputs : Nat) (instruction : Instruction) (length after : Nat) : Prop :=
  instruction.FitsHeap inputs length ∧ after = instruction.heapAfter length

/-- Instructions that have nothing to do with the heap and let the cursor move on by one. -/
def isPlain : Instruction → Bool
  | .stackToHeap | .stackToHeapArray _ | .copyFromHeap _ | .overwriteHeap _ | .truncateHeap _
  | .assertHeapLength _ | .enforceSchema _ _ | .setSavedField _ _ | .deleteSavedField _ _
  | .pushSavedField _ _ | .skipIf _ | .jump _ _ | .returnTop | .returnVoid | .raise _ => false
  | _ => true

theorem moves_of_isPlain {instruction : Instruction} (h : instruction.isPlain = true) :
    instruction.moves = [1] := by
  cases instruction <;> first | rfl | cases h

theorem heapEffect_of_isPlain {instruction : Instruction} (h : instruction.isPlain = true)
    (inputs length : Nat) : HeapEffect inputs instruction length length := by
  refine ⟨⟨?_, ?_, ?_⟩, ?_⟩
  · have hslots : instruction.slots = [] := by
      cases instruction <;> first | rfl | cases h
    rw [hslots]
    nofun
  · rintro count rfl
    cases h
  · rintro expected rfl
    cases h
  · cases instruction <;> first | rfl | cases h

theorem heapEffect_skipIf (inputs count length : Nat) :
    HeapEffect inputs (.skipIf count) length length :=
  ⟨⟨nofun, nofun, nofun⟩, rfl⟩

theorem heapEffect_jump (inputs offset length : Nat) (forward : Bool) :
    HeapEffect inputs (.jump offset forward) length length :=
  ⟨⟨nofun, nofun, nofun⟩, rfl⟩

theorem heapEffect_slot {inputs length slot : Nat} {instruction : Instruction}
    (hslots : instruction.slots = [slot]) (hslot : slot < length) :
    HeapEffect inputs instruction length length := by
  refine ⟨⟨?_, ?_, ?_⟩, ?_⟩
  · rw [hslots]
    intro other hother
    rwa [List.mem_singleton.mp hother]
  · rintro count rfl
    cases hslots
  · rintro expected rfl
    cases hslots
  · cases instruction <;> first | rfl | cases hslots

end Instruction

open Instruction (HeapEffect)

namespace Code

/-- Code that is left at its end only, with the heap as long as before. -/
def KeepsHeap (inputs length : Nat) (code : Code) : Prop :=
  Flows (HeapEffect inputs) code length [(0, length)]

variable {inputs length : Nat} {part more : Code}

theorem keepsHeap_nil : KeepsHeap inputs length [] :=
  flows_nil length

theorem KeepsHeap.append (hpart : part.KeepsHeap inputs length)
    (hmore : more.KeepsHeap inputs length) : (part ++ more).KeepsHeap inputs length :=
  hpart.andThen hmore

theorem KeepsHeap.cons {instruction : Instruction} (hrest : part.KeepsHeap inputs length)
    (h : instruction.isPlain = true) : KeepsHeap inputs length (instruction :: part) :=
  (flows_step (Instruction.moves_of_isPlain h)
    (Instruction.heapEffect_of_isPlain h inputs length)).andThen hrest

theorem keepsHeap_plain (h : part.all Instruction.isPlain = true) :
    part.KeepsHeap inputs length := by
  induction part with
  | nil => exact keepsHeap_nil
  | cons instruction rest ih =>
      obtain ⟨hfirst, hrest⟩ := Bool.and_eq_true_iff.mp h
      exact (ih hrest).cons hfirst

theorem KeepsHeap.snoc {instruction : Instruction} (hpart : part.KeepsHeap inputs length)
    (h : instruction.isPlain = true) : KeepsHeap inputs length (part ++ [instruction]) :=
  hpart.append (keepsHeap_nil.cons h)

theorem keepsHeap_raise (message : String) : KeepsHeap inputs length [.raise message] :=
  flows_stop rfl ⟨⟨nofun, nofun, nofun⟩, rfl⟩ _

theorem KeepsHeap.skipOver (h : part.KeepsHeap inputs length) :
    KeepsHeap inputs length (.skipIf part.length :: part) :=
  flows_skipOver (Instruction.heapEffect_skipIf _ _ _) h

theorem KeepsHeap.jumpOver (h : part.KeepsHeap inputs length) :
    KeepsHeap inputs length (.jumpForward part.length :: part) :=
  flows_jumpOver (Instruction.heapEffect_jump _ _ _ _) h

theorem KeepsHeap.choice (hpart : part.KeepsHeap inputs length)
    (hmore : more.KeepsHeap inputs length) :
    KeepsHeap inputs length
      (.skipIf (part.length + 1) :: (part ++ .jumpForward more.length :: more)) :=
  flows_choice (Instruction.heapEffect_skipIf _ _ _) hpart (Instruction.heapEffect_jump _ _ _ _)
    hmore

theorem KeepsHeap.loop (hpart : part.KeepsHeap inputs length)
    (hmore : more.KeepsHeap inputs length) :
    KeepsHeap inputs length
      ((part ++ .skipIf (more.length + 1) :: more) ++
        [.jumpBack (part ++ .skipIf (more.length + 1) :: more).length]) :=
  flows_loop hpart (Instruction.heapEffect_skipIf _ _ _) hmore (Instruction.heapEffect_jump _ _ _ _)

section Store

variable {first rest value : Code}

theorem keepsHeap_keyFilter (h : first.KeepsHeap inputs length) :
    (keyFilter first).KeepsHeap inputs length :=
  ((h.cons rfl).cons rfl).snoc rfl

theorem keepsHeap_nestedPath (count : Nat) (h : rest.KeepsHeap inputs length) :
    (nestedPath count rest).KeepsHeap inputs length :=
  (h.cons rfl).snoc rfl

theorem keepsHeap_eachDocument (h : value.KeepsHeap inputs length) :
    (eachDocument value).KeepsHeap inputs length :=
  ((h.cons rfl).cons rfl).snoc rfl

theorem keepsHeap_updateDocument (store : String) (upsert : Bool)
    (h : first.KeepsHeap inputs length) :
    (updateDocument store upsert first).KeepsHeap inputs length := by
  have hpop : KeepsHeap inputs length [.popStack] := keepsHeap_plain rfl
  have hchoice := hpop.choice (keepsHeap_raise "Nested key does not exist")
  exact (keepsHeap_keyFilter h).append ((hchoice.cons rfl).cons rfl)

theorem keepsHeap_keyOfObject (store : String) (count : Nat) (hfirst : first.KeepsHeap inputs length)
    (hrest : rest.KeepsHeap inputs length) :
    (keyOfObject store first count rest).KeepsHeap inputs length := by
  have hnull : KeepsHeap inputs length [.instantiate .null] := keepsHeap_plain rfl
  have hfilter := keepsHeap_keyFilter hfirst
  have hfind : KeepsHeap inputs length [.findOne store .emptyObject, .isNull] :=
    keepsHeap_plain rfl
  rw [keyOfObject]
  by_cases hcount : count = 0
  · have hfield : KeepsHeap inputs length [.tryGetField "_val"] := keepsHeap_plain rfl
    have h := hfilter.append (hfind.append (hfield.skipOver.append hnull.jumpOver))
    simpa [hcount] using h
  · have hfield : KeepsHeap inputs length (.tryGetField "_val" :: (rest ++ [.getField count])) :=
      (hrest.snoc rfl).cons rfl
    have hmissing : KeepsHeap inputs length
        [.raise "Key does not exist on global", .instantiate .null] :=
      (keepsHeap_raise _).append hnull
    have h := hfilter.append (hfind.append (hfield.choice hmissing))
    simpa [hcount, Nat.add_comm 1] using h

theorem keepsHeap_keyExists (store : String) (h : first.KeepsHeap inputs length) :
    (keyExists store first).KeepsHeap inputs length := by
  have hfound : KeepsHeap inputs length [.popStack, .instantiate (.bool true)] :=
    keepsHeap_plain rfl
  have hmissing : KeepsHeap inputs length [.popStack, .instantiate (.bool false)] :=
    keepsHeap_plain rfl
  exact (keepsHeap_keyFilter h).append (((hfound.choice hmissing).cons rfl).cons rfl)

theorem keepsHeap_keysOfObject (store : String) : (keysOfObject store).KeepsHeap inputs length := by
  have htest : KeepsHeap inputs length [.arrayLength, zero, .equal] := keepsHeap_plain rfl
  have hround : KeepsHeap inputs length [.popArray, text "_key", .getField 1, .deepArrayPush 1] :=
    keepsHeap_plain rfl
  have hpop : KeepsHeap inputs length [.popStack] := keepsHeap_plain rfl
  exact ((((htest.loop hround).append hpop).cons rfl).cons rfl).cons rfl

theorem keepsHeap_setKey (store : String) (count : Nat) (hfirst : first.KeepsHeap inputs length)
    (hrest : rest.KeepsHeap inputs length) (hvalue : value.KeepsHeap inputs length) :
    (setKey store first count rest value).KeepsHeap inputs length := by
  have hupdate := keepsHeap_updateDocument store (count = 0) hfirst
  rw [setKey]
  refine KeepsHeap.append (KeepsHeap.append ?_ hvalue) (hupdate.cons rfl)
  split
  · exact keepsHeap_plain rfl
  · exact ((keepsHeap_nestedPath count hrest).cons rfl).cons rfl

theorem keepsHeap_pushAtKey (store : String) (count : Nat) (hfirst : first.KeepsHeap inputs length)
    (hrest : rest.KeepsHeap inputs length) (hvalue : value.KeepsHeap inputs length) :
    (pushAtKey store first count rest value).KeepsHeap inputs length := by
  rw [pushAtKey]
  refine KeepsHeap.append ?_ (keepsHeap_updateDocument store (count = 0) hfirst)
  split
  · exact ((((hvalue.cons rfl).cons rfl).cons rfl).cons rfl).snoc rfl
  · exact ((((keepsHeap_nestedPath count hrest).cons rfl).cons rfl).append
      (keepsHeap_eachDocument hvalue)).snoc rfl

theorem keepsHeap_deleteKey (store : String) (count : Nat) (hfirst : first.KeepsHeap inputs length)
    (hrest : rest.KeepsHeap inputs length) :
    (deleteKey store first count rest).KeepsHeap inputs length := by
  rw [deleteKey]
  refine KeepsHeap.snoc ?_ rfl
  split
  · exact (keepsHeap_keyFilter hfirst).snoc rfl
  · exact (((((keepsHeap_nestedPath count hrest).cons rfl).cons rfl).append
      (keepsHeap_plain rfl)).append (keepsHeap_keyFilter hfirst)).snoc rfl

end Store

end Code

theorem Comparison.keepsHeap_code (inputs length : Nat) (sign : Comparison) :
    sign.code.KeepsHeap inputs length :=
  Code.keepsHeap_plain (by cases sign <;> rfl)

theorem Arithmetic.isPlain_instruction (sign : Arithmetic) : sign.instruction.isPlain = true := by
  cases sign <;> rfl

theorem Logic.isPlain_instruction (sign : Logic) : sign.instruction.isPlain = true := by
  cases sign <;> rfl

namespace Expr

mutual
/-- The code of an expression keeps the heap of the variables that it was compiled for. -/
theorem keepsHeap_compile (inputs : Nat) (slots : Slots) : (e : Expr) → {code : Code} →
    e.compile slots = .ok code → code.KeepsHeap inputs slots.nextSlot
  | .bool _ | .int _ | .double _ | .string _ | .nothing | .wholeObject _ => by
      intro h
      simp only [compile, Except.ok.injEq] at h
      subst h
      exact Code.keepsHeap_plain rfl
  | .object fields => by
      intro h
      simp only [compile, bind_eq_ok, pure_eq_ok] at h
      obtain ⟨code, hfields, rfl⟩ := h
      exact (keepsHeap_compileFields inputs slots fields hfields).cons rfl
  | .comparison sign left right => by
      intro h
      simp only [compile, bind_eq_ok, pure_eq_ok] at h
      obtain ⟨_, hleft, _, hright, rfl⟩ := h
      exact ((keepsHeap_compile inputs slots left hleft).append
        (keepsHeap_compile inputs slots right hright)).append (sign.keepsHeap_code _ _)
  | .arithmetic sign left right => by
      intro h
      simp only [compile, bind_eq_ok, pure_eq_ok] at h
      obtain ⟨_, hleft, _, hright, rfl⟩ := h
      exact ((keepsHeap_compile inputs slots left hleft).append
        (keepsHeap_compile inputs slots right hright)).snoc sign.isPlain_instruction
  | .logic sign left right => by
      intro h
      simp only [compile, bind_eq_ok, pure_eq_ok] at h
      obtain ⟨_, hleft, _, hright, rfl⟩ := h
      exact ((keepsHeap_compile inputs slots left hleft).append
        (keepsHeap_compile inputs slots right hright)).snoc sign.isPlain_instruction
  | .negation value | .typeOf value | .hasType value _ | .keys value => by
      intro h
      simp only [compile, bind_eq_ok, pure_eq_ok] at h
      obtain ⟨_, hvalue, rfl⟩ := h
      exact (keepsHeap_compile inputs slots value hvalue).snoc rfl
  | .saved name => by
      intro h
      simp only [compile, bind_eq_ok, pure_eq_ok] at h
      obtain ⟨slot, hslot, rfl⟩ := h
      exact Code.flows_step rfl (Instruction.heapEffect_slot rfl (Slots.resolve_lt hslot))
  | .selection root level => by
      intro h
      simp only [compile, bind_eq_ok] at h
      obtain ⟨code, hroot, h⟩ := h
      have hkeeps := keepsHeap_compile inputs slots root hroot
      split at h
      · obtain rfl := pure_eq_ok.mp h
        exact hkeeps
      · simp only [bind_eq_ok, pure_eq_ok] at h
        obtain ⟨path, hlevel, rfl⟩ := h
        exact (hkeeps.append (keepsHeap_compileList inputs slots level hlevel)).snoc rfl
  | .fieldExists value field => by
      intro h
      simp only [compile, bind_eq_ok, pure_eq_ok] at h
      obtain ⟨_, hvalue, _, hfield, rfl⟩ := h
      exact ((keepsHeap_compile inputs slots value hvalue).append
        (keepsHeap_compile inputs slots field hfield)).snoc rfl
  | .array values => by
      intro h
      simp only [compile, bind_eq_ok, pure_eq_ok] at h
      obtain ⟨_, hvalues, rfl⟩ := h
      exact (keepsHeap_compilePushes inputs slots values hvalues).cons rfl
  | .call function args => by
      intro h
      simp only [compile, bind_eq_ok, pure_eq_ok] at h
      obtain ⟨_, hargs, rfl⟩ := h
      exact (keepsHeap_compileList inputs slots args hargs).snoc rfl
  | .role schema state => by
      intro h
      rw [compile] at h
      split at h
      · cases h
      · simp only [bind_eq_ok, pure_eq_ok] at h
        obtain ⟨_, hstate, rfl⟩ := h
        exact ((keepsHeap_compileState inputs slots state hstate).cons rfl).snoc rfl
  | .globalObject _ | .keyOfObject _ [] => by
      intro h
      cases h
  | .keyOfObject store (first :: rest) => by
      intro h
      simp only [compile, bind_eq_ok, pure_eq_ok] at h
      obtain ⟨_, hrest, _, hfirst, rfl⟩ := h
      exact Code.keepsHeap_keyOfObject store rest.length (keepsHeap_compile inputs slots first hfirst)
        (keepsHeap_compileList inputs slots rest hrest)
  | .keyExists store key => by
      intro h
      simp only [compile, bind_eq_ok, pure_eq_ok] at h
      obtain ⟨_, hkey, rfl⟩ := h
      exact Code.keepsHeap_keyExists store (keepsHeap_compile inputs slots key hkey)
  | .keysOfObject store => by
      intro h
      obtain rfl := Except.ok.inj h
      exact Code.keepsHeap_keysOfObject store
termination_by structural e => e

theorem keepsHeap_compileList (inputs : Nat) (slots : Slots) : (es : List Expr) → {code : Code} →
    compileList slots es = .ok code → code.KeepsHeap inputs slots.nextSlot
  | [] => by
      intro h
      obtain rfl := Except.ok.inj h
      exact Code.keepsHeap_nil
  | e :: rest => by
      intro h
      simp only [compileList, bind_eq_ok, pure_eq_ok] at h
      obtain ⟨_, hfirst, _, hrest, rfl⟩ := h
      exact (keepsHeap_compile inputs slots e hfirst).append
        (keepsHeap_compileList inputs slots rest hrest)
termination_by structural es => es

theorem keepsHeap_compilePushes (inputs : Nat) (slots : Slots) : (es : List Expr) →
    {code : Code} → compilePushes slots es = .ok code → code.KeepsHeap inputs slots.nextSlot
  | [] => by
      intro h
      obtain rfl := Except.ok.inj h
      exact Code.keepsHeap_nil
  | e :: rest => by
      intro h
      simp only [compilePushes, bind_eq_ok, pure_eq_ok] at h
      obtain ⟨_, hfirst, _, hrest, rfl⟩ := h
      exact (keepsHeap_compile inputs slots e hfirst).append
        ((keepsHeap_compilePushes inputs slots rest hrest).cons rfl)
termination_by structural es => es

theorem keepsHeap_compileFields (inputs : Nat) (slots : Slots) : (fields : List (Expr × Expr)) →
    {code : Code} → compileFields slots fields = .ok code → code.KeepsHeap inputs slots.nextSlot
  | [] => by
      intro h
      obtain rfl := Except.ok.inj h
      exact Code.keepsHeap_nil
  | (key, value) :: rest => by
      intro h
      simp only [compileFields, bind_eq_ok, pure_eq_ok] at h
      obtain ⟨_, hkey, _, hvalue, _, hrest, rfl⟩ := h
      exact ((keepsHeap_compile inputs slots key hkey).append
        (keepsHeap_compile inputs slots value hvalue)).append
        ((keepsHeap_compileFields inputs slots rest hrest).cons rfl)
termination_by structural fields => fields

theorem keepsHeap_compileState (inputs : Nat) (slots : Slots) : (state : Option Expr) →
    {code : Code} → compileState slots state = .ok code → code.KeepsHeap inputs slots.nextSlot
  | none => by
      intro h
      obtain rfl := Except.ok.inj h
      exact Code.keepsHeap_nil
  | some state => by
      intro h
      simp only [compileState, bind_eq_ok, pure_eq_ok] at h
      obtain ⟨_, hstate, rfl⟩ := h
      exact ((keepsHeap_compile inputs slots state hstate).cons rfl).snoc rfl
termination_by structural state => state
end

end Expr

end StoredProcedure
