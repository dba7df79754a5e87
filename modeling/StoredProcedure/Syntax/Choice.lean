import StoredProcedure.Fault

namespace StoredProcedure

namespace Choice

/-- A choice in order: the branches of which at most one is run, and the body that is run last. -/
structure Shape where
  arms : List Branch
  last : Option (List Statement)

/-- The shape of the branches from a position on. -/
def shapeFrom (index : Nat) (otherwiseSeen : Bool) : List Branch → Except Fault Shape
  | [] => if index = 0 then .error .emptyChoice else .ok ⟨[], none⟩
  | (.when condition, body) :: rest =>
      if otherwiseSeen then .error (.conditionAfterOtherwise index)
      else do
        let shape ← shapeFrom (index + 1) false rest
        return { shape with arms := (.when condition, body) :: shape.arms }
  | (.otherwise, body) :: rest =>
      if index = 0 then .error .choiceWithoutStart
      else if otherwiseSeen then .error (.secondOtherwise index)
      else do
        let shape ← shapeFrom (index + 1) true rest
        return { shape with arms := (.otherwise, body) :: shape.arms }
  | (.lastly, body) :: rest =>
      if index = 0 then .error .choiceWithoutStart
      else if rest.isEmpty then .ok ⟨[], some body⟩
      else .error (.branchAfterLast (index + 1))

/-- The shape of a choice, or what is wrong with its first branch that breaks the grammar. -/
def shape (branches : List Branch) : Except Fault Shape :=
  shapeFrom 0 false branches

end Choice

end StoredProcedure
