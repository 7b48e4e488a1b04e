import BasicComputer.Command.Session

/-!
# The program

Reads the command line, the environment and one file, and writes what the session has written.
-/

namespace BasicComputer.Program

/-- What went wrong with a file, from the operating system's error. -/
def fileFault : IO.Error → FileFault
  | .noFileOrDirectory .. => .notFound
  | .permissionDenied .. => .denied
  | .inappropriateType _ 21 _ => .isDirectory
  | .inappropriateType .. => .notDirectory
  | .invalidArgument _ _ "name too long" => .nameTooLong
  | e => .other (toString e)

/-- The text of a file, or what is wrong with it. -/
def readContents (path : String) : IO (Except FileFault String) := do
  try
    match String.fromUTF8? (← IO.FS.readBinFile path) with
    | some text => return .ok text
    | none => return .error .notText
  catch e =>
    return .error (fileFault e)

def writeConsole (console : Console) : IO Unit := do
  let output ← IO.getStdout
  let error ← IO.getStderr
  for (stream, text) in console.written do
    match stream with
    | .output => output.putStr text; output.flush
    | .error => error.putStr text; error.flush

/-- The variables that are set, and where the stream leads to. -/
def readEnvironment (stream : IO.FS.Stream) : IO Environment := do
  let texts ← Environment.names.filterMapM fun name => do
    return (← IO.getEnv name).map fun text => (name, text)
  return ⟨texts, ← stream.isTty⟩

/-- Carries out a command line and returns its exit code. -/
def perform (arguments : List String) : IO UInt32 := do
  match Invocation.ofArguments arguments with
  | .error refusal =>
    let environment ← readEnvironment (← IO.getStderr)
    IO.eprint (refusal.message environment.colorsRefusal)
    return 2
  | .ok invocation =>
    let environment ← readEnvironment (← IO.getStdout)
    let contents ← match invocation.path? with
      | some path => readContents path
      | none => pure (.ok "")
    let session := invocation.session environment contents
    writeConsole session.console
    match session.failure with
    | none => return 0
    | some diagnostic =>
      IO.eprintln ("Error: " ++ diagnostic.message)
      if let some help := diagnostic.help then IO.eprintln ("  help: " ++ help)
      return 1

end BasicComputer.Program

def main (arguments : List String) : IO UInt32 := BasicComputer.Program.perform arguments
