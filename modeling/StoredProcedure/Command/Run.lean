import StoredProcedure.Bundle
import StoredProcedure.Command.Folder
import StoredProcedure.Command.Log
import StoredProcedure.Report.Lock
import StoredProcedure.Syntax.Source

namespace StoredProcedure

inductive Command where
  | lower (out : Option String)
  | build (out : Option String)
  | warn (reportJson : Bool)

namespace Command

/-- How a command ends. -/
inductive Ending where
  | print (exitCode : Nat) (text : String)
  | save (path : String) (text : String)
  | fail (message : String)

/-- A command that has run, with its log. -/
structure Run where
  log : List Log.Line
  ending : Ending

/-- The version of tool reports that are written. -/
def toolReportVersion : String := "tunac.report@0.1.0"

/-- What a command says about its program for other tools, on one line. -/
def toolReport (input : String) (ok : Bool) (report : Report) (exitCode : Nat) : String :=
  let json := Json.object
    [("schema_version", .string toolReportVersion), ("command", .string "warn"), ("ok", .bool ok),
      ("in", .string input), ("report", report.toJson),
      ("exit_code", .int (WordInt.ofCount exitCode))]
  json.compact ++ "\n"

/-- A value that is printed or saved, a member or item on a line. -/
def deliver (out : Option String) (json : Json) : Ending :=
  match out with
  | some path => .save path (json.pretty ++ "\n")
  | none => .print 0 (json.pretty ++ "\n")

def lowerLog (p : Program) : List Log.Line :=
  (p.functions.successes p.lowerFunction).map fun done =>
    ⟨.debug, "lowered function", [("function", done.1)]⟩

def compileLog (lowered : Program) : List Log.Line :=
  (lowered.functions.successes Program.compileFunction).map fun done =>
    ⟨.debug, "compiled function", [("function", done.1), ("ops", done.2.length.repr)]⟩

def analyzeLog (lowered : Program) : List Log.Line :=
  (lowered.functions.successes Program.analyzeFunction).flatMap fun done =>
    [⟨.trace, "summarized function", [("actions", done.2.actions.length.repr)]⟩,
      ⟨.debug, "analyzed function", [("function", done.1), ("locks", done.2.locks.size.repr)]⟩]

def runLower (out : Option String) (p : Program) : Run where
  log := lowerLog p
  ending := match p.lower with
    | .error failure => .fail ("lower failed: " ++ failure.text)
    | .ok lowered => deliver out lowered.toJson

def runBuild (out : Option String) (p : Program) : Run :=
  match p.lower with
  | .error failure => ⟨lowerLog p, .fail ("compile failed: " ++ failure.text)⟩
  | .ok lowered =>
      let log := lowerLog p ++ compileLog lowered
      match lowered.compileLowered with
      | .error failure => ⟨log, .fail ("compile failed: " ++ failure.text)⟩
      | .ok bundle => ⟨log, deliver out bundle.toJson⟩

/-- The end of `warn` on a program that was refused. -/
def refused (reportJson : Bool) (input : String) (failure : Failure) : Ending :=
  if reportJson then .print 2 (toolReport input false (Report.ofFailure failure) 2)
  else .fail ("analysis failed: " ++ failure.text)

/-- The end of `warn` on a program that was analyzed. -/
def advised (reportJson : Bool) (input : String) (requirements : Requirements) : Ending :=
  let ok := requirements.needed.isEmpty
  let exitCode := if ok then 0 else 1
  if reportJson then
    let report := requirements.report.withRemark "functions_checked"
      (.int (WordInt.ofCount requirements.size))
    .print exitCode (toolReport input ok report exitCode)
  else .print exitCode requirements.text

def needLog (requirements : Requirements) : List Log.Line :=
  requirements.needed.map fun entry =>
    ⟨.warn, "function needs locks", [("function", entry.1), ("locks", entry.2.size.repr)]⟩

def runWarn (reportJson : Bool) (input : String) (p : Program) : Run :=
  match p.lower with
  | .error failure => ⟨lowerLog p, refused reportJson input failure⟩
  | .ok lowered =>
      let log := lowerLog p ++ analyzeLog lowered
      match lowered.analyzeLowered with
      | .error failure => ⟨log, refused reportJson input failure⟩
      | .ok analyses =>
          let requirements := requirementsOf analyses
          ⟨log ++ needLog requirements, advised reportJson input requirements⟩

/-- Runs a command on the content of the input file. -/
def run (command : Command) (input : String) (content : Except SystemError ByteArray) : Run :=
  match content with
  | .error error => ⟨[], .fail ("read program: " ++ input ++ ": " ++ error.text)⟩
  | .ok bytes =>
      match Program.ofBytes bytes with
      | .error fault =>
          ⟨[], .fail ("parse program " ++ input ++ ": " ++ (Failure.ofFault fault).text)⟩
      | .ok p =>
          match command with
          | .lower out => runLower out p
          | .build out => runBuild out p
          | .warn reportJson => runWarn reportJson input p

/-- What a user sees of a command. -/
structure Outcome where
  exitCode : Nat
  stdout : String
  stderr : String

/-- The settings of the log: the option of the command line and the variable of the environment. -/
structure LogSettings where
  option : Option String
  environment : Option String

/-- The outcome of a command, given how saving ended if it had a file to save. -/
def outcome (settings : LogSettings) (run : Run) (saved : Except Folder.SaveError Unit) : Outcome :=
  let (verbosity, complaints) := Log.settings settings.option settings.environment
  let lines (log : List Log.Line) (errors : List String) : String :=
    String.join ((complaints ++ Log.shown verbosity log ++ errors).map fun line => line ++ "\n")
  match run.ending, saved with
  | .print exitCode text, _ => ⟨exitCode, text, lines run.log []⟩
  | .fail message, _ => ⟨2, "", lines run.log [message]⟩
  | .save _ _, .error error => ⟨2, "", lines run.log [error.text]⟩
  | .save path _, .ok () => ⟨0, "", lines (run.log ++ [⟨.info, "wrote output", [("path", path)]⟩]) []⟩

/-- Runs a command in a folder: the outcome and the folder afterwards. -/
def runIn (folder : Folder) (settings : LogSettings) (command : Command) (input : String) :
    Outcome × Folder :=
  let run := command.run input (folder.read input)
  match run.ending with
  | .save path text =>
      match folder.save path text.toUTF8 with
      | .ok after => (outcome settings run (.ok ()), after)
      | .error error => (outcome settings run (.error error), folder)
  | .print _ _ | .fail _ => (outcome settings run (.ok ()), folder)

end Command

end StoredProcedure
