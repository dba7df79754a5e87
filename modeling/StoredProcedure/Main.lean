import StoredProcedure.Command.Run

namespace StoredProcedure

/-- The options of a command line. -/
structure Options where
  logLevel : Option String := none
  command : Option String := none
  input : Option String := none
  out : Option String := none
  reportJson : Bool := false

namespace Options

/-- The options in the arguments. An option that is unknown or given twice is refused. -/
def ofArguments? (options : Options) : List String → Option Options
  | [] => some options
  | "--report-json" :: rest =>
      if options.reportJson then none else ofArguments? { options with reportJson := true } rest
  | "--log-level" :: level :: rest =>
      if options.logLevel.isSome then none
      else ofArguments? { options with logLevel := some level } rest
  | "--input" :: path :: rest =>
      if options.input.isSome then none else ofArguments? { options with input := some path } rest
  | "--out" :: path :: rest =>
      if options.out.isSome then none else ofArguments? { options with out := some path } rest
  | name :: rest =>
      if options.command.isSome then none
      else ofArguments? { options with command := some name } rest

/-- The command and its input file. -/
def command? (options : Options) : Option (Command × String) := do
  let input ← options.input
  match ← options.command with
  | "lower" => if options.reportJson then none else return (.lower options.out, input)
  | "build" => if options.reportJson then none else return (.build options.out, input)
  | "warn" => if options.out.isSome then none else return (.warn options.reportJson, input)
  | _ => none

end Options

def usage : String :=
  "usage: tunac [--log-level LEVEL] (lower | build) --input PATH [--out PATH]\n" ++
  "       tunac [--log-level LEVEL] warn --input PATH [--report-json]\n"

/-- The cause of a failed file operation, as far as it is told apart. -/
def systemError (error : IO.Error) : SystemError :=
  match error with
  | .alreadyExists .. => .alreadyExists
  | .inappropriateType _ code _ => if code = 20 then .notADirectory else .isADirectory
  | _ => .noSuchEntry

def readFile (path : String) : IO (Except SystemError ByteArray) := do
  return (← (IO.FS.readBinFile path).toBaseIO).mapError systemError

def makeDirectory (path : String) : IO (Except SystemError Unit) := do
  return (← (IO.FS.createDir path).toBaseIO).mapError systemError

/-- Makes one directory, unless it is there. The path `path/.` exists if and only if `path` is a
directory. -/
def ensureDirectory (path : String) : IO (Except SystemError Unit) := do
  match ← makeDirectory path with
  | .ok () => return .ok ()
  | .error error =>
      match ← makeDirectory (path ++ "/.") with
      | .error .alreadyExists => return .ok ()
      | _ => return .error error

/-- Makes a directory that is given by its components, the innermost first. Only if it cannot be
made because something around it is missing, what is around it is made before it. -/
def makeDirectories : List String → IO (Except SystemError Unit)
  | [] | [""] => return .ok ()
  | name :: around => do
      let path := "/".intercalate (name :: around).reverse
      match ← ensureDirectory path with
      | .error .noSuchEntry =>
          match ← makeDirectories around with
          | .ok () => ensureDirectory path
          | .error error => return .error error
      | result => return result

/-- Writes a file after making the directories around it. -/
def saveFile (path text : String) : IO (Except Folder.SaveError Unit) := do
  let parent := (Path.parent? path).getD ""
  match ← makeDirectories (Path.components parent).reverse with
  | .error error => return .error (.directory parent error)
  | .ok () =>
      return (← (IO.FS.writeFile path text).toBaseIO).mapError fun error =>
        .file path (systemError error)

end StoredProcedure

open StoredProcedure in
def main (arguments : List String) : IO UInt32 := do
  let options := Options.ofArguments? {} arguments
  match options, options.bind Options.command? with
  | some options, some (command, input) =>
      let run := command.run input (← readFile input)
      let saved ← match run.ending with
        | .save path text => saveFile path text
        | .print _ _ | .fail _ => pure (.ok ())
      let outcome := Command.outcome ⟨options.logLevel, ← IO.getEnv "RUST_LOG"⟩ run saved
      (← IO.getStderr).putStr outcome.stderr
      (← IO.getStdout).putStr outcome.stdout
      return outcome.exitCode.toUInt32
  | _, _ =>
      (← IO.getStderr).putStr usage
      return 2
