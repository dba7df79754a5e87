namespace StoredProcedure

namespace Log

inductive Level where
  | error
  | warn
  | info
  | debug
  | trace
deriving DecidableEq

def Level.name : Level → String
  | .error => "ERROR"
  | .warn => "WARN"
  | .info => "INFO"
  | .debug => "DEBUG"
  | .trace => "TRACE"

/-- How much has to be asked for to see lines of a level. -/
def Level.verbosity : Level → Nat
  | .error => 1
  | .warn => 2
  | .info => 3
  | .debug => 4
  | .trace => 5

/-- A message with named values. -/
structure Line where
  level : Level
  message : String
  values : List (String × String)

def Line.text (line : Line) : String :=
  line.level.name ++ " " ++ line.message ++
    String.join (line.values.map fun value => " " ++ value.1 ++ "=" ++ value.2)

/-- The verbosity of the name of a level; `off` shows nothing. -/
def verbosity? : String → Option Nat
  | "off" => some 0
  | "error" => some Level.error.verbosity
  | "warn" => some Level.warn.verbosity
  | "info" => some Level.info.verbosity
  | "debug" => some Level.debug.verbosity
  | "trace" => some Level.trace.verbosity
  | _ => none

/-- The verbosity of a filter: the name of a level, alone or for this program. An empty filter shows
errors. -/
def filter? (text : String) : Option Nat :=
  match text.splitOn "=" with
  | [""] => some Level.error.verbosity
  | [level] => verbosity? level
  | ["tunac", level] => verbosity? level
  | _ => none

/-- The filter that is in force: the one of the command line unless it is empty, else the one of the
environment, else warnings. -/
def filterText (option environment : Option String) : String :=
  match option, environment with
  | some text, _ => if text.isEmpty then environment.getD "warn" else text
  | none, some text => text
  | none, none => "warn"

/-- The verbosity in force, and the complaint about a filter that is none. -/
def settings (option environment : Option String) : Nat × List String :=
  let text := filterText option environment
  match filter? text with
  | some verbosity => (verbosity, [])
  | none =>
      (Level.warn.verbosity,
        ["WARN: invalid RUST_LOG/--log-level '" ++ text ++ "'; falling back to 'warn'"])

/-- The lines that are shown. -/
def shown (verbosity : Nat) (lines : List Line) : List String :=
  (lines.filter fun line => line.level.verbosity ≤ verbosity).map Line.text

end Log

end StoredProcedure
