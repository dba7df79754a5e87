import StoredProcedure.Json.Printer
import StoredProcedure.Syntax.Program
import StoredProcedure.Text.Quoted

namespace StoredProcedure

inductive Stage where
  | parse
  | lower
  | codegen
  | analyze
deriving DecidableEq

def Stage.name : Stage → String
  | .parse => "parse"
  | .lower => "lower"
  | .codegen => "codegen"
  | .analyze => "analyze"

inductive FaultKind where
  | parse
  | unknownGlobal
  | globalAsValue
  | abstractNode
  | malformedBranch
  | notAddressable
  | unknownVariable
  | invalidSchema
deriving DecidableEq

namespace FaultKind

def name : FaultKind → String
  | .parse => "Parse"
  | .unknownGlobal => "UnknownGlobal"
  | .globalAsValue => "GlobalAsValue"
  | .abstractNode => "AbstractNode"
  | .malformedBranch => "MalformedBranch"
  | .notAddressable => "NotAddressable"
  | .unknownVariable => "UnknownVariable"
  | .invalidSchema => "InvalidSchema"

def code : FaultKind → String
  | .parse => "TUNA-PARSE-0001"
  | .unknownGlobal => "TUNA-LOWER-0001"
  | .globalAsValue => "TUNA-LOWER-0002"
  | .abstractNode => "TUNA-LOWER-0003"
  | .malformedBranch => "TUNA-CODEGEN-0001"
  | .notAddressable => "TUNA-CODEGEN-0002"
  | .unknownVariable => "TUNA-CODEGEN-0003"
  | .invalidSchema => "TUNA-CODEGEN-0004"

def stage : FaultKind → Stage
  | .parse => .parse
  | .unknownGlobal | .globalAsValue | .abstractNode => .lower
  | .malformedBranch | .notAddressable | .unknownVariable | .invalidSchema => .codegen

end FaultKind

inductive Fault where
  /-- The document is no JSON text or has not the shape of a program. -/
  | invalidProgram
  | unsupportedVersion (version : String)
  | undeclaredGlobal (name : String)
  /-- A global object is an element of an array literal. -/
  | globalInArray (name : String)
  /-- A global object is among the values of a push. -/
  | globalInPush (name : String)
  /-- A rewriter has no rule for a global object where it stands for a value. -/
  | globalWithoutRule (name : String)
  /-- A rewriter has no rule for an update of a global object. -/
  | updateWithoutRule (name : String)
  /-- A global object is left where only lowered expressions have a meaning. -/
  | globalNotLowered (name : String)
  /-- An update of a global object is left where only lowered statements have a meaning. -/
  | updateNotLowered (name : String)
  | branchAfterLast (index : Nat)
  | choiceWithoutStart
  | conditionAfterOtherwise (index : Nat)
  | secondOtherwise (index : Nat)
  | emptyChoice
  /-- A whole variable is to be deleted. -/
  | variableDeleted (name : String)
  /-- A store is accessed by an empty list of keys. -/
  | keyMissing (store : String)
  | unknownVariable (name : String)
  /-- The schema of a role instance names no role. -/
  | roleMissing (schema : Datum)

namespace Fault

def kind : Fault → FaultKind
  | .invalidProgram | .unsupportedVersion _ => .parse
  | .undeclaredGlobal _ => .unknownGlobal
  | .globalInArray _ | .globalInPush _ => .globalAsValue
  | .globalWithoutRule _ | .updateWithoutRule _ => .abstractNode
  | .globalNotLowered _ | .updateNotLowered _ => .abstractNode
  | .branchAfterLast _ | .choiceWithoutStart | .conditionAfterOtherwise _ => .malformedBranch
  | .secondOtherwise _ | .emptyChoice => .malformedBranch
  | .variableDeleted _ | .keyMissing _ => .notAddressable
  | .unknownVariable _ => .unknownVariable
  | .roleMissing _ => .invalidSchema

def message : Fault → String
  | .invalidProgram => "invalid program JSON"
  | .unsupportedVersion version =>
      "unsupported schema_version " ++ Text.quoted version ++
        " (supported: " ++ Program.supportedVersion ++ ")"
  | .undeclaredGlobal name => "reference to undeclared global object `" ++ name ++ "`"
  | .globalInArray name => "cannot use global object `" ++ name ++ "` in an array literal"
  | .globalInPush name => "cannot use global object `" ++ name ++ "` in a push"
  | .globalWithoutRule name =>
      "global object `" ++ name ++ "` has no replacement rule as a value"
  | .updateWithoutRule name =>
      "global object `" ++ name ++ "` has no replacement rule as an update target"
  | .globalNotLowered name => "global object `" ++ name ++ "` was not lowered"
  | .updateNotLowered name => "update of global object `" ++ name ++ "` was not lowered"
  | .branchAfterLast index => "branch " ++ index.repr ++ " follows the Finally branch"
  | .choiceWithoutStart => "an If must start with a Conditional branch"
  | .conditionAfterOtherwise index => "branch " ++ index.repr ++ ": Conditional after Else"
  | .secondOtherwise index => "branch " ++ index.repr ++ ": second Else"
  | .emptyChoice => "an If needs at least one Conditional branch"
  | .variableDeleted name =>
      "cannot delete variable `" ++ name ++ "` itself, only its fields"
  | .keyMissing store => "access to global object `" ++ store ++ "` needs at least one key"
  | .unknownVariable name => "cannot find variable of name: " ++ name
  | .roleMissing schema =>
      "role instance needs a Role schema, got " ++ schema.json.compact

end Fault

/-- What is said of a fault, and the function in which it was found, if that is known. -/
structure Failure where
  kind : FaultKind
  message : String
  function : Option String

namespace Failure

def ofFault (fault : Fault) : Failure := ⟨fault.kind, fault.message, none⟩

/-- Records the function in which the fault was found and puts its name before the wording. -/
def inFunction (name : String) (failure : Failure) : Failure :=
  { failure with
    message := name ++ ": " ++ failure.message
    function := some name }

/-- The kind and the wording. -/
def text (failure : Failure) : String :=
  failure.kind.name ++ ": " ++ failure.message

end Failure

end StoredProcedure
