import StoredProcedure.Proofs.Result
import StoredProcedure.Syntax.Choice

namespace StoredProcedure.Choice

/-- The branches of a choice in the order of the grammar. -/
def ordered (arms : List (Expr × List Statement)) (otherwise last : Option (List Statement)) :
    List Branch :=
  arms.map (fun arm => (.when arm.1, arm.2)) ++
    otherwise.toList.map (fun body => (.otherwise, body)) ++
    last.toList.map fun body => (.lastly, body)

/-- The branches follow the grammar. -/
def WellShaped (branches : List Branch) : Prop :=
  ∃ arms otherwise last, arms ≠ [] ∧ branches = ordered arms otherwise last

variable {index : Nat} {branches : List Branch}

theorem exists_shapeFrom_true_iff :
    (∃ shape, shapeFrom (index + 1) true branches = .ok shape) ↔
      ∃ last, branches = ordered [] none last := by
  match branches with
  | [] => exact iff_of_true ⟨_, rfl⟩ ⟨none, rfl⟩
  | (.lastly, body) :: [] => exact iff_of_true ⟨_, rfl⟩ ⟨some body, rfl⟩
  | (.when _, _) :: _ | (.otherwise, _) :: _ | (.lastly, _) :: _ :: _ =>
      apply iff_of_false
      · rintro ⟨shape, hshape⟩
        cases hshape
      · rintro ⟨_ | last, hlast⟩ <;> cases hlast

theorem exists_shapeFrom_false_iff :
    (∃ shape, shapeFrom (index + 1) false branches = .ok shape) ↔
      ∃ arms otherwise last, branches = ordered arms otherwise last := by
  induction branches generalizing index with
  | nil => exact iff_of_true ⟨_, rfl⟩ ⟨[], none, none, rfl⟩
  | cons branch rest ih =>
      obtain ⟨guard, body⟩ := branch
      cases guard with
      | when condition =>
          have hrest : (∃ shape, shapeFrom (index + 1) false ((.when condition, body) :: rest) =
              .ok shape) ↔ ∃ shape, shapeFrom (index + 2) false rest = .ok shape := by
            simp only [shapeFrom, Bool.false_eq_true, if_false, exists_bind_eq_ok, exists_pure_eq_ok,
              and_true]
          rw [hrest, ih]
          constructor
          · rintro ⟨arms, otherwise, last, rfl⟩
            exact ⟨(condition, body) :: arms, otherwise, last, rfl⟩
          · rintro ⟨_ | ⟨arm, arms⟩, otherwise, last, horder⟩
            · cases otherwise <;> cases last <;> cases horder
            · exact ⟨arms, otherwise, last, (List.cons.inj horder).2⟩
      | otherwise =>
          have hrest : (∃ shape, shapeFrom (index + 1) false ((.otherwise, body) :: rest) =
              .ok shape) ↔ ∃ shape, shapeFrom (index + 2) true rest = .ok shape := by
            simp only [shapeFrom, Nat.add_one_ne_zero, Bool.false_eq_true, if_false, exists_bind_eq_ok,
              exists_pure_eq_ok, and_true]
          rw [hrest, exists_shapeFrom_true_iff]
          constructor
          · rintro ⟨last, rfl⟩
            exact ⟨[], some body, last, rfl⟩
          · rintro ⟨_ | ⟨arm, arms⟩, _ | other, last, horder⟩
            · cases last <;> cases horder
            · exact ⟨last, (List.cons.inj horder).2⟩
            · cases horder
            · cases horder
      | lastly =>
          cases rest with
          | nil => exact iff_of_true ⟨_, rfl⟩ ⟨[], none, some body, rfl⟩
          | cons other more =>
              apply iff_of_false
              · rintro ⟨shape, hshape⟩
                cases hshape
              · rintro ⟨_ | ⟨arm, arms⟩, _ | _, _ | _, horder⟩ <;> cases horder

/-- The check accepts exactly the choices that follow the grammar. -/
theorem exists_shape_iff : (∃ result, shape branches = .ok result) ↔ WellShaped branches := by
  match branches with
  | [] | (.otherwise, _) :: _ | (.lastly, _) :: _ =>
      apply iff_of_false
      · rintro ⟨shape, hshape⟩
        cases hshape
      · rintro ⟨_ | ⟨arm, arms⟩, otherwise, last, harms, horder⟩
        · exact harms rfl
        · cases horder
  | (.when condition, body) :: rest =>
      have hrest : (∃ result, shape ((.when condition, body) :: rest) = .ok result) ↔
          ∃ result, shapeFrom 1 false rest = .ok result := by
        simp only [shape, shapeFrom, Bool.false_eq_true, if_false, exists_bind_eq_ok,
          exists_pure_eq_ok, and_true]
      rw [hrest, exists_shapeFrom_false_iff]
      constructor
      · rintro ⟨arms, otherwise, last, rfl⟩
        exact ⟨(condition, body) :: arms, otherwise, last, by simp, rfl⟩
      · rintro ⟨_ | ⟨arm, arms⟩, otherwise, last, harms, horder⟩
        · exact absurd rfl harms
        · exact ⟨arms, otherwise, last, (List.cons.inj horder).2⟩

theorem not_lastly_mem_ordered (arms : List (Expr × List Statement))
    (otherwise : Option (List Statement)) (body : List Statement) :
    (.lastly, body) ∉ ordered arms otherwise none := by
  simp [ordered]

theorem WellShaped.last_ends (h : WellShaped branches) {body : List Statement}
    {rest : List Branch} (hsuffix : (.lastly, body) :: rest <:+ branches) : rest = [] := by
  obtain ⟨arms, otherwise, last, -, rfl⟩ := h
  obtain ⟨front, hfront⟩ := hsuffix
  cases last with
  | none =>
      apply absurd _ (not_lastly_mem_ordered arms otherwise body)
      rw [← hfront]
      simp
  | some final =>
      rcases List.eq_nil_or_concat rest with rfl | ⟨middle, branch, rfl⟩
      · rfl
      · have hinit : front ++ (.lastly, body) :: middle ++ [branch] =
            ordered arms otherwise none ++ [(.lastly, final)] := by
          simpa [ordered] using hfront
        apply absurd _ (not_lastly_mem_ordered arms otherwise body)
        rw [← (List.append_inj' hinit rfl).1]
        simp

end StoredProcedure.Choice
