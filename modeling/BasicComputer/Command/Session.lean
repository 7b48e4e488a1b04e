import BasicComputer.Command.Arguments
import BasicComputer.Command.Banner
import BasicComputer.Command.Directory
import BasicComputer.Console.Panel
import BasicComputer.Machine.Run

/-!
# Sessions

What an invocation writes and how it ends, given the environment and the contents of the file that it
names.
-/

namespace BasicComputer

/-- What is told of a failure. -/
structure Diagnostic where
  message : String
  help : Option String
  deriving DecidableEq, Repr

/-- The end of a session: everything written, and the failure if there is one. -/
structure Session where
  console : Console
  failure : Option Diagnostic
  deriving DecidableEq, Repr

namespace Session

/-- Ends without a failure. -/
def succeed (console : Console) : Session := ⟨console, none⟩

def fail (console : Console) (message : String) (help : Option String) : Session :=
  ⟨console, some ⟨message, help⟩⟩

/-- Announces what is being done; the verb stands to the right of twelve columns. -/
def status (console : Console) (color : Color) (verb text : String) : Console :=
  console.announce
    (color.style.paint console.colored (Column.alignRight 12 verb) ++ " " ++ text)

def target (path : String) : String := "target " ++ path

/-- The contents of a source file. Only files of the extension `asm` are read. -/
def source (path : String) (contents : Except FileFault String) : Except Diagnostic String :=
  match Path.extension? path with
  | some "asm" =>
    match contents with
    | .ok text => .ok text
    | .error fault => .error ⟨fault.message, none⟩
  | some _ => .error ⟨"File has unknown extension. Exiting...", none⟩
  | none => .error ⟨"File has no extension. Exiting...", none⟩

def diagnose (e : SourceError) : Diagnostic := ⟨e.message, some e.problem.help⟩

/-- The source of a file and the image that it assembles to. -/
def assembled (path : String) (contents : Except FileFault String) :
    Except Diagnostic (String × Image) := do
  let text ← source path contents
  match assemble text with
  | .ok image => return (text, image)
  | .error e => throw (diagnose e)

/-- The source line of a word, without the blanks around it. -/
def sourceLine (text : String) (span : Span) : String :=
  String.ofList (trimBlanks (span.slice text.toList))

/-! ### Checks and listings -/

def check (console : Console) (path : String) (contents : Except FileFault String) : Session :=
  let console := status console .green "Checking" (target path)
  match assembled path contents with
  | .error diagnostic => ⟨console, some diagnostic⟩
  | .ok _ => succeed (status console .green "Success" "no errors found!")

/-- A word of a listing: address, contents, disassembly and source line. -/
def listingLine (colored : Bool) (text : String) (w : PlacedWord) : String :=
  let address := (Style.mk (some .dimmed) none).paint colored
    (Column.alignRight 12 (Hex.upper 3 w.address.toNat))
  let instruction :=
    match Instruction.decode? w.word with
    | some instruction => instruction.text
    | none => "-"
  address ++ " " ++ Hex.upper 4 w.word.toNat ++ "  " ++ Column.alignLeft 10 instruction ++ " " ++
    sourceLine text w.span

def listing (console : Console) (path : String) (contents : Except FileFault String) : Session :=
  let console := status console .green "Assembling" (target path)
  match assembled path contents with
  | .error diagnostic => ⟨console, some diagnostic⟩
  | .ok (text, image) =>
    let console := status console .cyan "Entry" (hexAddress image.entry.toNat)
    let console := image.words.foldl
      (fun console w => console.announce (listingLine console.colored text w)) console
    succeed (status console .green "Finished" (toString image.size ++ " words"))

/-! ### Runs -/

/-- A machine that is ready to run an image. -/
def prepare (settings : Settings) (options : RunRequest) (image : Image) : Machine :=
  let m := (Machine.initial.withTracing (options.trace || settings.trace)).load image
  let m := m.typeText (options.input.getD "").toList
  { m with breakpoints := .ofList options.breakpoints }

/-- Writes what the program has printed, on a line of its own. -/
def printOutput (console : Console) (m : Machine) : Console :=
  let console :=
    if m.computer.output.isEmpty then console
    else (console.startLine .program).print .program m.outputText
  console.startLine .program

/-- Tells how a run has ended. -/
def conclude (console : Console) (path text : String) (image : Image) (budget : Nat) (m : Machine)
    (stop : Stop) : Session :=
  match stop with
  | .halted =>
    let steps := "Halted after " ++ toString m.computer.cycles ++ " steps."
    succeed (status (console.printLine .sometimes steps) .green "Completed" (target path))
  | .breakpoint address =>
    let line :=
      match image.spanOf? address.word with
      | some span => sourceLine text span
      | none => ""
    succeed (status console .cyan "Paused" ("at " ++ hexAddress address.toNat ++ "  " ++ line))
  | .budgetExhausted | .cancelled =>
    fail console ("Program did not halt within " ++ toString budget ++ " steps")
      (some "raise the limit with `--max-steps` or `MANO_MAX_STEPS`")

def run (console : Console) (settings : Settings) (path : String) (options : RunRequest)
    (contents : Except FileFault String) : Session :=
  let console := { console with minimal := options.minimal }
  let console := status console .green "Assembling" (target path)
  match assembled path contents with
  | .error diagnostic => ⟨console, some diagnostic⟩
  | .ok (text, image) =>
    let budget := options.maxSteps.getD settings.maxSteps
    let console :=
      status console .green "Running" ("from " ++ hexAddress image.entry.toNat)
    let (m, result) := (prepare settings options image).run budget
    let console := console.showRecords .always (m.journal.toList.map Event.record)
    match result with
    | .error fault => fail console fault.message none
    | .ok stop =>
      let console := (printOutput console m).showRegisters .always m.computer
      conclude console path text image budget m stop

end Session

/-- The file that an invocation reads. -/
def Invocation.path? : Invocation → Option String
  | run path _ | check path | listing path => some path
  | banner | version | help => none

/-- Carries out an invocation on the contents of its file, or the reason that there are none. -/
def Invocation.session (invocation : Invocation) (environment : Environment)
    (contents : Except FileFault String) : Session :=
  let console := Console.initial environment.colorsSession
  match invocation with
  | banner => .succeed ((Banner.lines environment.palette).foldl Console.announce console)
  | version => .succeed (console.announce Banner.versionLine)
  | help => .succeed (Banner.helpLines.foldl Console.announce console)
  | run path options => Session.run console environment.settings path options contents
  | check path => Session.check console path contents
  | listing path => Session.listing console path contents

end BasicComputer
