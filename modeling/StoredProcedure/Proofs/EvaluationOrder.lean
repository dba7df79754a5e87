import Mathlib.Algebra.GroupWithZero.Nat
import StoredProcedure.Proofs.Label
import StoredProcedure.Proofs.StoreFlow

namespace StoredProcedure

namespace Code

/-- Parts in their order. Segment number `i` stands before part number `i`, and one more stands at
the end. -/
def weave (segment : Nat → Code) : List Code → Code
  | [] => segment 0
  | part :: rest => segment 0 ++ part ++ weave (fun i => segment (i + 1)) rest

variable {segment : Nat → Code} {parts : List Code}

theorem length_weave (segment : Nat → Code) (parts : List Code) :
    (weave segment parts).length = (parts.map List.length).sum +
      ((List.range (parts.length + 1)).map fun i => (segment i).length).sum := by
  induction parts generalizing segment with
  | nil => simp [weave]
  | cons part rest ih =>
      rw [weave, List.length_append, List.length_append, ih, List.map_cons, List.sum_cons,
        List.length_cons, List.range_succ_eq_map (n := rest.length + 1), List.map_cons,
        List.sum_cons, List.map_map]
      simp only [Function.comp_def, Nat.succ_eq_add_one]
      omega

theorem weave_eq_flatten (hne : parts ≠ [])
    (h : ∀ i, 0 < i → i < parts.length → segment i = []) :
    weave segment parts = segment 0 ++ parts.flatten ++ segment parts.length := by
  induction parts generalizing segment with
  | nil => exact absurd rfl hne
  | cons part rest ih =>
      rcases rest with _ | ⟨next, more⟩
      · simp [weave]
      · have hshift : ∀ i, 0 < i → i < (next :: more).length → segment (i + 1) = [] :=
          fun i _ hi => h (i + 1) (Nat.succ_pos i) (Nat.succ_lt_succ hi)
        rw [weave, ih (List.cons_ne_nil _ _) hshift,
          h 1 Nat.one_pos (Nat.succ_lt_succ (Nat.succ_pos _))]
        simp

end Code

/-- How many instructions of its own a node has before child number `i`, or after the last child if
`i` is the number of children. -/
def Kind.segmentLength (sign : Option Comparison) (arity i : Nat) : Kind → Nat
  | .bool | .int | .double | .string | .nothing | .saved | .array => 1
  | .object => if i % 2 = 0 then 1 else 0
  | .comparison => if i = 2 then (sign.map fun sign => sign.code.length).getD 0 else 0
  | .arithmetic | .logic | .fieldExists => if i = 2 then 1 else 0
  | .negation | .typeOf | .hasType | .keys => if i = 1 then 1 else 0
  | .selection => if i = arity ∧ 1 < i then 1 else 0
  | .call => if i = arity then 1 else 0
  | .role | .wholeObject => 2
  | .keyOfObject =>
      if i = 0 then 2
      else (if i = 1 then 5 else 0) + if i = arity then if i = 1 then 2 else 4 else 0
  | .keyExists => if i = 0 then 2 else 9
  | .keysOfObject => 13
  | _ => 0

/-- How many instructions of its own a node has. -/
def Kind.ownLength (kind : Kind) (sign : Option Comparison) (arity : Nat) : Nat :=
  ((List.range (arity + 1)).map fun i => kind.segmentLength sign arity i).sum

namespace Expr

/-- The sign of a comparison. -/
def sign? : Expr → Option Comparison
  | .comparison sign _ _ => some sign
  | _ => none

/-- The instructions of the node's own before child number `i`, or after the last child. Nothing of
the children but the lengths of their codes is looked at. -/
def segment (slots : Slots) (lengths : List Nat) (i : Nat) : Expr → Code
  | .bool value => [.instantiate (.bool value)]
  | .int value => [.instantiate (.int (WordInt.ofInt64 value))]
  | .double value => [.instantiate (.double value)]
  | .string value => [.instantiate (.string value)]
  | .nothing => [.instantiate .null]
  | .object _ =>
      if i = 0 then [.instantiate .emptyObject] else if i % 2 = 0 then [.setField 1] else []
  | .comparison sign _ _ => if i = 2 then sign.code else []
  | .arithmetic sign _ _ => if i = 2 then [sign.instruction] else []
  | .logic sign _ _ => if i = 2 then [sign.instruction] else []
  | .negation _ => if i = 1 then [.negate] else []
  | .typeOf _ => if i = 1 then [.typeOf] else []
  | .hasType _ type => if i = 1 then [.hasType type] else []
  | .saved name => [.copyFromHeap ((slots.slot? name).getD 0)]
  | .selection _ _ => if i = lengths.length ∧ 1 < i then [.getField (i - 1)] else []
  | .fieldExists _ _ => if i = 2 then [.fieldExists] else []
  | .keys _ => if i = 1 then [.getKeys] else []
  | .array _ => if i = 0 then [.instantiate .emptyArray] else [.arrayPush]
  | .call function _ => if i = lengths.length then [.invoke function i] else []
  | .role schema _ =>
      if i = 0 then
        [.instantiate (.entry "_name" (.string (schema.roleName?.getD ""))),
          if lengths.isEmpty then .signRole else Code.text "_state"]
      else [.setField 1, .signRole]
  | .globalObject _ => []
  | .wholeObject store => Code.wholeObject store
  | .keyOfObject store _ =>
      if i = 0 then [.instantiate (.entry "_key" .emptyObject), Code.text "_key"]
      else
        (if i = 1 then
          [.setField 1, .findOne store .emptyObject, .isNull,
            .skipIf (if lengths.length = 1 then 1 else lengths.tail.sum + 3), .tryGetField "_val"]
        else []) ++
        if i = lengths.length then
          if i = 1 then [.jumpForward 1, .instantiate .null]
          else [.getField (i - 1), .jumpForward 2, .raise "Key does not exist on global",
            .instantiate .null]
        else []
  | .keyExists store _ =>
      if i = 0 then [.instantiate (.entry "_key" .emptyObject), Code.text "_key"]
      else
        [.setField 1, .findOne store (.entry "_val" (.bool false)), .isNull, .skipIf 3, .popStack,
          .instantiate (.bool true), .jumpForward 2, .popStack, .instantiate (.bool false)]
  | .keysOfObject store => Code.keysOfObject store

theorem segment_head (slots : Slots) (lengths : List Nat) (i : Nat) (e : Expr) :
    e.head.segment slots lengths i = e.segment slots lengths i := by
  cases e <;> rfl

theorem length_segment (slots : Slots) (lengths : List Nat) (i : Nat) (e : Expr) :
    (e.segment slots lengths i).length = e.kind.segmentLength e.sign? lengths.length i := by
  cases e with
  | object _ =>
      rw [segment, kind, Kind.segmentLength]
      split
      · simp_all
      · split <;> rfl
  | keyOfObject _ _ =>
      rw [segment, kind, Kind.segmentLength]
      split
      · rfl
      · simp only [List.length_append, apply_ite List.length, List.length_cons, List.length_nil]
  | _ =>
      simp only [segment, kind, Kind.segmentLength, sign?]
      try split
      all_goals rfl

variable {slots : Slots} {code : Code}

theorem exists_weave_of_compilePushes {values : List Expr}
    (h : compilePushes slots values = .ok code) :
    ∃ codes, Codes slots values codes ∧ ∀ segment : Nat → Code,
      (∀ i, segment (i + 1) = [.arrayPush]) → Code.weave segment codes = segment 0 ++ code := by
  induction values generalizing code with
  | nil =>
      obtain rfl := Except.ok.inj h
      exact ⟨[], .nil, fun _ _ => (List.append_nil _).symm⟩
  | cons e rest ih =>
      simp only [compilePushes, bind_eq_ok, pure_eq_ok] at h
      obtain ⟨first, hfirst, more, hmore, rfl⟩ := h
      obtain ⟨codes, hcodes, hweave⟩ := ih hmore
      refine ⟨first :: codes, .cons hfirst hcodes, ?_⟩
      intro segment hpush
      rw [Code.weave, hweave _ fun i => hpush (i + 1), hpush]
      simp

theorem exists_weave_of_compileFields {fields : List (Expr × Expr)}
    (h : compileFields slots fields = .ok code) :
    ∃ codes, Codes slots (object fields).children codes ∧ ∀ segment : Nat → Code,
      (∀ i, segment (2 * i + 1) = []) → (∀ i, segment (2 * i + 2) = [.setField 1]) →
        Code.weave segment codes = segment 0 ++ code := by
  induction fields generalizing code with
  | nil =>
      obtain rfl := Except.ok.inj h
      exact ⟨[], .nil, fun _ _ _ => (List.append_nil _).symm⟩
  | cons field rest ih =>
      obtain ⟨key, value⟩ := field
      simp only [compileFields, bind_eq_ok, pure_eq_ok] at h
      obtain ⟨first, hfirst, second, hsecond, more, hmore, rfl⟩ := h
      obtain ⟨codes, hcodes, hweave⟩ := ih hmore
      refine ⟨first :: second :: codes, .cons hfirst (.cons hsecond hcodes), ?_⟩
      intro segment hkey hvalue
      rw [Code.weave, Code.weave, hweave _ (fun i => hkey (i + 1)) fun i => hvalue (i + 1), hkey 0,
        hvalue 0]
      simp

theorem exists_weave_of_compile {e : Expr} (h : e.compile slots = .ok code) :
    ∃ codes, Codes slots e.children codes ∧
      code = Code.weave (fun i => e.segment slots (codes.map List.length) i) codes := by
  cases e with
  | globalObject _ => cases h
  | bool _ | int _ | double _ | string _ | nothing | wholeObject _ | keysOfObject _ =>
      cases h
      exact ⟨[], .nil, rfl⟩
  | saved name =>
      simp only [compile, bind_eq_ok, pure_eq_ok, Slots.resolve_eq_ok] at h
      obtain ⟨slot, hslot, rfl⟩ := h
      refine ⟨[], .nil, ?_⟩
      simp [Code.weave, segment, hslot]
  | comparison _ _ _ | arithmetic _ _ _ | logic _ _ _ | fieldExists _ _ =>
      simp only [compile, bind_eq_ok, pure_eq_ok] at h
      obtain ⟨left, hleft, right, hright, rfl⟩ := h
      refine ⟨[left, right], .cons hleft (.cons hright .nil), ?_⟩
      simp [Code.weave, segment]
  | negation _ | typeOf _ | hasType _ _ | keys _ | keyExists _ _ =>
      simp only [compile, bind_eq_ok, pure_eq_ok] at h
      obtain ⟨value, hvalue, rfl⟩ := h
      refine ⟨[value], .cons hvalue .nil, ?_⟩
      simp [Code.weave, segment, Code.keyExists, Code.keyFilter]
  | object fields =>
      simp only [compile, bind_eq_ok, pure_eq_ok] at h
      obtain ⟨more, hmore, rfl⟩ := h
      obtain ⟨codes, hcodes, hweave⟩ := exists_weave_of_compileFields hmore
      refine ⟨codes, hcodes, ?_⟩
      rw [hweave]
      · rfl
      · intro i
        simp [segment, Nat.add_mod]
      · intro i
        simp [segment]
  | array values =>
      simp only [compile, bind_eq_ok, pure_eq_ok] at h
      obtain ⟨more, hmore, rfl⟩ := h
      obtain ⟨codes, hcodes, hweave⟩ := exists_weave_of_compilePushes hmore
      refine ⟨codes, hcodes, ?_⟩
      rw [hweave]
      · rfl
      · intro i
        rfl
  | role schema state =>
      rw [compile] at h
      cases hname : schema.roleName? with
      | none => simp [hname] at h
      | some name =>
          simp only [hname, bind_eq_ok, pure_eq_ok] at h
          obtain ⟨more, hmore, rfl⟩ := h
          cases state with
          | none =>
              obtain rfl := Except.ok.inj hmore
              refine ⟨[], .nil, ?_⟩
              simp [Code.weave, segment, hname]
          | some state =>
              simp only [compileState, bind_eq_ok, pure_eq_ok] at hmore
              obtain ⟨value, hvalue, rfl⟩ := hmore
              refine ⟨[value], .cons hvalue .nil, ?_⟩
              simp [Code.weave, segment, hname]
  | call function args =>
      simp only [compile, bind_eq_ok, pure_eq_ok] at h
      obtain ⟨flat, hflat, rfl⟩ := h
      obtain ⟨codes, hcodes, rfl, -⟩ := exists_codes_of_compileList hflat
      refine ⟨codes, hcodes, ?_⟩
      have hlength : args.length = codes.length := hcodes.length_eq
      rcases codes with _ | ⟨first, rest⟩
      · simp [Code.weave, segment, hlength]
      · rw [Code.weave_eq_flatten (List.cons_ne_nil _ _)]
        · simp [segment, hlength]
        · intro i _ hi
          exact if_neg (by rw [List.length_map]; omega)
  | selection root level =>
      simp only [compile, bind_eq_ok] at h
      obtain ⟨first, hfirst, h⟩ := h
      split at h
      · rename_i hempty
        obtain rfl := Except.ok.inj h
        obtain rfl := List.isEmpty_iff.mp hempty
        refine ⟨[first], .cons hfirst .nil, ?_⟩
        simp [Code.weave, segment]
      · rename_i hne
        simp only [bind_eq_ok, pure_eq_ok] at h
        obtain ⟨flat, hflat, rfl⟩ := h
        obtain ⟨codes, hcodes, rfl, -⟩ := exists_codes_of_compileList hflat
        refine ⟨first :: codes, .cons hfirst hcodes, ?_⟩
        have hlength : level.length = codes.length := hcodes.length_eq
        have hpos : 0 < codes.length := by
          rw [← hlength]
          exact List.length_pos_iff.mpr fun heq => hne (List.isEmpty_iff.mpr heq)
        rw [Code.weave_eq_flatten (List.cons_ne_nil _ _)]
        · simp [segment, hlength, hpos]
        · intro i _ hi
          exact if_neg (by rw [List.length_map]; omega)
  | keyOfObject store key =>
      rcases key with _ | ⟨key, rest⟩
      · cases h
      · simp only [compile, bind_eq_ok, pure_eq_ok] at h
        obtain ⟨flat, hflat, first, hfirst, rfl⟩ := h
        obtain ⟨codes, hcodes, rfl, -⟩ := exists_codes_of_compileList hflat
        refine ⟨first :: codes, .cons hfirst hcodes, ?_⟩
        have hlength : rest.length = codes.length := hcodes.length_eq
        rw [hlength, Code.weave]
        rcases codes with _ | ⟨next, more⟩
        · simp [Code.weave, segment, Code.keyOfObject, Code.keyFilter]
        · rw [Code.weave_eq_flatten (List.cons_ne_nil _ _)]
          · have hskip : 1 + (next.length + ((more.map List.length).sum + 1)) =
                next.length + (more.map List.length).sum + 2 := by omega
            simp [segment, Code.keyOfObject, Code.keyFilter, List.length_flatten, hskip]
          · intro i hpos hi
            have hlast : i ≠ more.length + 1 := Nat.ne_of_lt hi
            simp [segment, Nat.ne_of_gt hpos, hlast]

/-- An expression that has code is evaluated child by child: every child has code in the same scope,
and the code is woven from the codes of the children in their order and segments that do not depend
on what the children are. The kind, the sign of a comparison and the number of children give the
length of each segment, and so how much longer the code is than the codes of the children. -/
theorem compile_weaves_children {slots : Slots} {e : Expr} {code : Code}
    (h : e.compile slots = .ok code) :
    ∃ codes, Codes slots e.children codes ∧
      code = Code.weave (fun i => e.head.segment slots (codes.map List.length) i) codes ∧
      (∀ i, (e.head.segment slots (codes.map List.length) i).length =
        e.kind.segmentLength e.sign? e.children.length i) ∧
      code.length =
        (codes.map List.length).sum + e.kind.ownLength e.sign? e.children.length := by
  obtain ⟨codes, hcodes, hweave⟩ := exists_weave_of_compile h
  have hcount : (codes.map List.length).length = e.children.length := by
    rw [List.length_map]
    exact hcodes.length_eq.symm
  have hlength : ∀ i, (e.segment slots (codes.map List.length) i).length =
      e.kind.segmentLength e.sign? e.children.length i := by
    intro i
    rw [length_segment, hcount]
  simp only [segment_head]
  refine ⟨codes, hcodes, hweave, hlength, ?_⟩
  rw [hweave, Code.length_weave]
  simp only [hlength, Kind.ownLength, ← hcount, List.length_map]

/-- The lookup of two nested keys, the second of which is a comparison. -/
theorem compile_weaves_children_lookup :
    let key : Expr := .comparison .greaterEqual (.int 2) (.saved "n")
    let lookup : Expr := .keyOfObject "stock" [.string "tea", key, .saved "n"]
    let slots : Slots := Scope.empty.add "n" ()
    ∃ code, lookup.compile slots = .ok code ∧
      ∃ codes, Codes slots [.string "tea", key, .saved "n"] codes ∧
        code = Code.weave (fun i => lookup.head.segment slots (codes.map List.length) i) codes ∧
        (∀ i, (lookup.head.segment slots (codes.map List.length) i).length =
          Kind.keyOfObject.segmentLength none 3 i) ∧
        code.length = (codes.map List.length).sum + 11 := by
  intro key lookup slots
  have h : ∃ code, lookup.compile slots = .ok code := ⟨_, rfl⟩
  obtain ⟨code, hcode⟩ := h
  exact ⟨code, hcode, compile_weaves_children hcode⟩

end Expr

end StoredProcedure
