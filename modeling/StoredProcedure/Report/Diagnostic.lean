import StoredProcedure.Fault
import StoredProcedure.Syntax.Writer

namespace StoredProcedure

inductive Severity where
  | error
  | warning
deriving DecidableEq

def Severity.name : Severity → String
  | .error => "error"
  | .warning => "warning"

structure Diagnostic where
  code : String
  severity : Severity
  stage : Stage
  message : String
  function : Option String
  notes : List String
  data : NameMap Datum

namespace Diagnostic

/-- Diagnostics of no function come first. -/
def compareFunctions : Option String → Option String → Ordering
  | none, none => .eq
  | none, some _ => .lt
  | some _, none => .gt
  | some a, some b => compare a b

/-- The order of diagnostics in a report. -/
def order (a b : Diagnostic) : Ordering :=
  (compareFunctions a.function b.function).then
    ((compare a.code b.code).then (compare a.message b.message))

def toJson (d : Diagnostic) : Json :=
  let location := match d.function with
    | some name => [("loc", Json.object [("kind", .string "function"), ("name", .string name)])]
    | none => []
  let notes := if d.notes.isEmpty then [] else [("notes", Json.array (d.notes.map .string))]
  let data := if d.data.isEmpty then [] else [("data", d.data.toJson Datum.json)]
  .object
    ([("code", .string d.code), ("severity", .string d.severity.name),
      ("stage", .string d.stage.name), ("message", .string d.message)] ++
      location ++ notes ++ data)

end Diagnostic

/-- The diagnostic of a failure. -/
def Failure.diagnostic (failure : Failure) : Diagnostic where
  code := failure.kind.code
  severity := .error
  stage := failure.kind.stage
  message := failure.message
  function := failure.function
  notes := []
  data := NameMap.empty

/-- Diagnostics in order, and remarks on the whole. -/
structure Report where
  ok : Bool
  diagnostics : List Diagnostic
  remarks : NameMap Datum

namespace Report

/-- The version of reports that are written. -/
def version : String := "tuna.diag@0.1.0"

/-- The report of nothing. -/
def empty : Report where
  ok := true
  diagnostics := []
  remarks := NameMap.empty

/-- The report with these diagnostics in place of its own. It is in order if there is no error among
them. -/
def withDiagnostics (report : Report) (diagnostics : List Diagnostic) : Report :=
  { report with
    ok := diagnostics.all fun d => d.severity ≠ .error
    diagnostics := diagnostics.mergeSort fun a b => (a.order b).isLE }

/-- The report of diagnostics. -/
def ofDiagnostics (diagnostics : List Diagnostic) : Report :=
  empty.withDiagnostics diagnostics

def withRemark (report : Report) (key : String) (value : Datum) : Report :=
  { report with remarks := report.remarks.insert key value }

def ofFailure (failure : Failure) : Report :=
  ofDiagnostics [failure.diagnostic]

def toJson (report : Report) : Json :=
  let remarks :=
    if report.remarks.isEmpty then [] else [("meta", report.remarks.toJson Datum.json)]
  .object
    ([("schema_version", .string version), ("ok", .bool report.ok),
      ("diagnostics", .array (report.diagnostics.map Diagnostic.toJson))] ++ remarks)

end Report

end StoredProcedure
