import StoredProcedure.Syntax.Expr

namespace StoredProcedure

/-- What an update changes. -/
inductive Target where
  | saved (name : String)
  | globalObject (name : String)
deriving DecidableEq

inductive Edit where
  | push (values : List Expr)
  | deleteField
  | set (value : Expr)

inductive Guard where
  | when (condition : Expr)
  | otherwise
  | lastly

inductive Statement where
  | ret (value : Option Expr)
  | save (name : String) (value : Expr)
  | update (target : Target) (level : List Expr) (edit : Edit)
  | choice (branches : List (Guard × List Statement))
  | forEach (source : Expr) (item : String) (body : List Statement)
  | call (function : String) (args : List Expr)
  | noop
  | setKey (store : String) (key : List Expr) (value : Expr)
  | deleteKey (store : String) (key : List Expr)
  | pushAtKey (store : String) (key : List Expr) (values : List Expr)
deriving Inhabited

/-- A guarded body. -/
abbrev Branch := Guard × List Statement

/-- The kinds of the nodes of a target. -/
def Target.kinds : Target → List Kind
  | .saved _ => [.saved]
  | .globalObject _ => [.globalObject]

def Edit.kinds : Edit → List Kind
  | .push values => .push :: Expr.kindsList values
  | .deleteField => [.deleteField]
  | .set value => value.kinds

def Guard.kinds : Guard → List Kind
  | .when condition => .conditional :: condition.kinds
  | .otherwise => [.otherwise]
  | .lastly => [.lastly]

namespace Statement

def kind : Statement → Kind
  | .ret _ => .ret
  | .save _ _ => .save
  | .update _ _ _ => .update
  | .choice _ => .choice
  | .forEach _ _ _ => .forEach
  | .call _ _ => .call
  | .noop => .noop
  | .setKey _ _ _ => .setKey
  | .deleteKey _ _ => .deleteKey
  | .pushAtKey _ _ _ => .pushAtKey

mutual
/-- The kinds of all nodes of a statement, each node before its parts. -/
def kinds : Statement → List Kind
  | .ret value => .ret :: Expr.kindsOption value
  | .save _ value => .save :: value.kinds
  | .update target level edit => .update :: target.kinds ++ Expr.kindsList level ++ edit.kinds
  | .choice branches => .choice :: kindsBranches branches
  | .forEach source _ body => .forEach :: source.kinds ++ kindsList body
  | .call _ args => .call :: Expr.kindsList args
  | .noop => [.noop]
  | .setKey _ key value => .setKey :: Expr.kindsList key ++ value.kinds
  | .deleteKey _ key => .deleteKey :: Expr.kindsList key
  | .pushAtKey _ key values => .pushAtKey :: Expr.kindsList key ++ Expr.kindsList values
termination_by structural s => s

def kindsList : List Statement → List Kind
  | [] => []
  | s :: rest => s.kinds ++ kindsList rest
termination_by structural body => body

def kindsBranches : List (Guard × List Statement) → List Kind
  | [] => []
  | (guard, body) :: rest => guard.kinds ++ kindsList body ++ kindsBranches rest
termination_by structural branches => branches
end

/-- How often each kind occurs in a list of statements, for the kinds that do. -/
def census (body : List Statement) : List (Kind × Nat) :=
  let kinds := kindsList body
  Kind.all.filterMap fun kind =>
    let n := kinds.count kind
    if n = 0 then none else some (kind, n)

end Statement

end StoredProcedure
