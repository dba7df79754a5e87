import StoredProcedure.Proofs.Choice
import StoredProcedure.Proofs.Faults

namespace StoredProcedure.Choice

/-- The branches that a shape was made from. -/
def Shape.branches (result : Shape) : List Branch :=
  result.arms ++ result.last.toList.map fun body => (.lastly, body)

/-- Nothing among the arms is run last. -/
def Shape.Split (result : Shape) : Prop :=
  ∀ body, (.lastly, body) ∉ result.arms

variable {index : Nat} {otherwiseSeen : Bool} {branches : List Branch} {result : Shape}

theorem Shape.restores_cons {branch : Branch} (hbranch : ∀ body, branch ≠ (.lastly, body))
    (h : result.branches = branches ∧ result.Split) :
    let longer : Shape := { result with arms := branch :: result.arms }
    longer.branches = branch :: branches ∧ longer.Split := by
  refine ⟨congrArg (branch :: ·) h.1, ?_⟩
  intro body hbody
  rcases List.mem_cons.mp hbody with heq | hmem
  · exact hbranch body heq.symm
  · exact h.2 body hmem

theorem restored_of_shapeFrom (h : shapeFrom index otherwiseSeen branches = .ok result) :
    result.branches = branches ∧ result.Split := by
  induction branches generalizing index otherwiseSeen result with
  | nil =>
      rw [shapeFrom] at h
      split at h
      · cases h
      · cases h
        exact ⟨rfl, fun _ => List.not_mem_nil⟩
  | cons branch rest ih =>
      obtain ⟨guard, body⟩ := branch
      cases guard with
      | when condition =>
          rw [shapeFrom] at h
          split at h
          · cases h
          · obtain ⟨tail, htail, hresult⟩ := bind_eq_ok.mp h
            cases hresult
            exact Shape.restores_cons (fun _ => by simp) (ih htail)
      | otherwise =>
          rw [shapeFrom] at h
          split at h
          · cases h
          · split at h
            · cases h
            · obtain ⟨tail, htail, hresult⟩ := bind_eq_ok.mp h
              cases hresult
              exact Shape.restores_cons (fun _ => by simp) (ih htail)
      | lastly =>
          rw [shapeFrom] at h
          split at h
          · cases h
          · split at h
            · rename_i hrest
              cases h
              rw [List.isEmpty_iff.mp hrest]
              exact ⟨rfl, fun _ => List.not_mem_nil⟩
            · cases h

/-- A choice is accepted exactly if it follows the grammar. Then the arms, and after them what is
run last if there is such a body, are its branches in order; otherwise it is refused as
malformed. -/
theorem shape_restores_branches (branches : List Branch) :
    ((∃ result, shape branches = .ok result) ↔ WellShaped branches) ∧
      (∀ result, shape branches = .ok result → result.branches = branches ∧ result.Split) ∧
      ∀ fault, shape branches = .error fault → fault.kind = .malformedBranch :=
  ⟨exists_shape_iff, fun _ => restored_of_shapeFrom, failsWithin_shapeFrom 0 false branches⟩

/-- A choice with all kinds of branches, and one in which a branch follows what is run last. -/
theorem shape_restores_branches_all_kinds :
    let arm : Branch := (.when (.bool true), [.noop])
    let other : Branch := (.otherwise, [.ret none])
    let last : Branch := (.lastly, [])
    let result : Shape := ⟨[arm, arm, other], some []⟩
    (shape [arm, arm, other, last] = .ok result ∧
        result.branches = [arm, arm, other, last] ∧ result.Split) ∧
      shape [arm, last, other] = .error (.branchAfterLast 2) ∧
        (Fault.branchAfterLast 2).kind = .malformedBranch := by
  intro arm other last result
  have haccepted := shape_restores_branches [arm, arm, other, last]
  have hrefused := shape_restores_branches [arm, last, other]
  exact ⟨⟨rfl, haccepted.2.1 result rfl⟩, rfl, hrefused.2.2 (.branchAfterLast 2) rfl⟩

end StoredProcedure.Choice
