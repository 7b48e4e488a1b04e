import BasicComputer.Command.Refusal
import BasicComputer.Settings
import BasicComputer.Text.Hex
import BasicComputer.Text.Similarity
import BasicComputer.Word

/-!
# Arguments

How the words of a command line are read. A value that stands as a word of its own is looked at when the
next word has been understood, so a word that is not understood is told first.
-/

namespace BasicComputer

/-- What may stand at the head of a command line. -/
inductive Command
  | run
  | check
  | listing
  deriving DecidableEq, Repr

namespace Command

def ofName? : String → Option Command
  | "run" => some .run
  | "check" => some .check
  | "listing" => some .listing
  | _ => none

/-- The word that asks for help, on its own or on the command that it stands in front of. -/
def helpName : String := "help"

/-- The words that may be meant for a command. -/
def names : List String := ["run", "check", "listing", helpName]

/-- The word is not the name of a command, but like one. -/
def isMisspelled (word : String) : Bool :=
  !names.contains word && names.any fun name => Similarity.alike word.toList name.toList

end Command

inductive Switch
  | input
  | maxSteps
  | trace
  | breakpoint
  | minimal
  | help
  | version
  deriving DecidableEq, Repr

namespace Switch

def long : Switch → String
  | input => "input"
  | maxSteps => "max-steps"
  | trace => "trace"
  | breakpoint => "break"
  | minimal => "minimal"
  | help => "help"
  | version => "version"

def short : Switch → Option Char
  | input => some 'i'
  | maxSteps => none
  | trace => some 't'
  | breakpoint => some 'b'
  | minimal => some 'm'
  | help => some 'h'
  | version => some 'V'

/-- What the value of the switch is called, if it takes one. -/
def valueName : Switch → Option String
  | input => some "INPUT"
  | maxSteps => some "MAX_STEPS"
  | breakpoint => some "ADDRESS"
  | _ => none

def takesValue (s : Switch) : Bool := s.valueName.isSome

def describe (s : Switch) : String :=
  match s.valueName with
  | some name => "--" ++ s.long ++ " <" ++ name ++ ">"
  | none => "--" ++ s.long

/-- The switches that a command understands; `none` is a command line without a command. -/
def allowed : Option Command → List Switch
  | none => [help, version]
  | some .run => [input, maxSteps, trace, breakpoint, minimal, help]
  | some .check | some .listing => [help]

end Switch

structure RunRequest where
  input : Option String
  maxSteps : Option Nat
  trace : Bool
  breakpoints : List Word
  minimal : Bool
  deriving DecidableEq, Repr

def RunRequest.default : RunRequest := ⟨none, none, false, [], false⟩

/-- What a command line asks for. -/
inductive Invocation
  | banner
  | version
  | help
  | run (path : String) (options : RunRequest)
  | check (path : String)
  | listing (path : String)
  deriving DecidableEq, Repr

/-- Why reading a command line ends early. -/
inductive Interruption
  | refused (refusal : Refusal)
  | version
  | help
  deriving DecidableEq, Repr

/-! ### Values -/

/-- Why a text is not the address of a breakpoint. -/
inductive AddressFault
  | unreadable (text : String) (fault : NumeralFault)
  | outsideMemory (value : Nat)
  deriving DecidableEq, Repr

def AddressFault.message : AddressFault → String
  | unreadable text fault => "`" ++ text ++ "` is not a hex address: " ++ fault.message
  | outsideMemory value => "0x" ++ Hex.upper 1 value ++ " is outside the 4096-word memory"

/-- The text without one mark `0x` in front. -/
def withoutHexMark : List Char → List Char
  | '0' :: 'x' :: digits => digits
  | '0' :: 'X' :: digits => digits
  | digits => digits

/-- An address in hexadecimal digits, with an optional mark `0x`. -/
def readBreakpoint (text : String) : Except AddressFault Word :=
  match Numeral.readNat 16 0xFFFF (withoutHexMark text.toList) with
  | .error fault => .error (.unreadable text fault)
  | .ok value =>
    if value ≤ 0xFFF then .ok (BitVec.ofNat 16 value) else .error (.outsideMemory value)

/-! ### Reading -/

/-- A word that has been understood but not yet looked at. -/
inductive Pending
  | path (path : String)
  /-- A switch and its value, which may still have to come. -/
  | value (switch : Switch) (value : Option String)
  deriving DecidableEq, Repr

/-- What has been read of a command line. -/
structure Draft where
  command : Option Command
  path : Option String
  options : RunRequest
  pending : Option Pending
  deriving DecidableEq, Repr

namespace Draft

def empty (command : Option Command) : Draft := ⟨command, none, .default, none⟩

def refuse {α : Type} (refusal : Refusal) : Except Interruption α := .error (.refused refusal)

/-- How the path is shown: it may be left out where there is no command. -/
def pathName (d : Draft) : String := if d.command.isNone then "[PATH]" else "<NAME>"

/-- Takes in the value of a switch. -/
def assign (d : Draft) (s : Switch) (value : String) : Except Interruption Draft :=
  let o := d.options
  let invalid (reason : String) : Except Interruption Draft :=
    refuse (.invalidValue value s.describe reason)
  match s with
  | .input =>
    if o.input.isSome then refuse (.repeated s.describe)
    else .ok { d with options := { o with input := some value } }
  | .maxSteps =>
    if o.maxSteps.isSome then refuse (.repeated s.describe)
    else
      match Settings.readMaxSteps value.toList with
      | .ok n => .ok { d with options := { o with maxSteps := some n } }
      | .error fault => invalid fault.message
  | .breakpoint =>
    match readBreakpoint value with
    | .ok a => .ok { d with options := { o with breakpoints := o.breakpoints ++ [a] } }
    | .error fault => invalid fault.message
  | _ => .ok d

/-- Takes in a switch without a value. -/
def turnOn (d : Draft) (s : Switch) : Except Interruption Draft :=
  let o := d.options
  match s with
  | .trace =>
    if o.trace then refuse (.repeated s.describe)
    else .ok { d with options := { o with trace := true } }
  | .minimal =>
    if o.minimal then refuse (.repeated s.describe)
    else .ok { d with options := { o with minimal := true } }
  | .help => .error .help
  | .version => .error .version
  | _ => .ok d

/-- Looks at the pending word. -/
def settle (d : Draft) : Except Interruption Draft :=
  let settled := { d with pending := none }
  match d.pending with
  | none => .ok d
  | some (.path path) =>
    if path.isEmpty then refuse (.missingValue d.pathName)
    else .ok { settled with path := some path }
  | some (.value s none) => refuse (.missingValue s.describe)
  | some (.value s (some value)) => settled.assign s value

/-- Takes in a switch with what is attached to it. -/
def takeSwitch (d : Draft) (s : Switch) (attached : Option String) : Except Interruption Draft :=
  match s.takesValue, attached with
  | true, some value => do (← d.settle).assign s value
  | true, none => do return { ← d.settle with pending := some (.value s none) }
  | false, some value => refuse (.unexpectedValue value s.describe)
  | false, none => do (← d.settle).turnOn s

/-- Takes in a word that begins with two dashes, given without them. -/
def takeLong (d : Draft) (text : List Char) : Except Interruption Draft :=
  let name := String.ofList (text.takeWhile (· != '='))
  let attached :=
    match text.dropWhile (· != '=') with
    | [] => none
    | _ :: value => some (String.ofList value)
  match (Switch.allowed d.command).find? (·.long == name) with
  | some s => d.takeSwitch s attached
  | none => refuse (.unexpectedArgument ("--" ++ name))

/-- Takes in the letters of a word that begins with one dash. What follows a switch that takes a value is
its value, with or without an equals sign between them. -/
def takeShort (d : Draft) : List Char → Except Interruption Draft
  | [] => .ok d
  | c :: rest =>
    match (Switch.allowed d.command).find? (·.short == some c) with
    | none => refuse (.unexpectedArgument ("-" ++ c.toString))
    | some s =>
      if s.takesValue then
        match rest with
        | [] => d.takeSwitch s none
        | '=' :: value => d.takeSwitch s (some (String.ofList value))
        | value => d.takeSwitch s (some (String.ofList value))
      else do (← d.takeSwitch s none).takeShort rest

/-- Why a word that is one too many is refused: where a command may stand, it may be meant for one. -/
def surplus (d : Draft) (word : String) : Refusal :=
  if d.command.isNone && Command.isMisspelled word then .unknownCommand word
  else .unexpectedArgument word

/-- Takes in a word that is no switch. Only one path is understood. -/
def takePath (d : Draft) (word : String) : Except Interruption Draft :=
  match d.path, d.pending with
  | some _, _ => refuse (d.surplus word)
  | none, some (.path _) => refuse (d.surplus word)
  | none, _ => do return { ← d.settle with pending := some (.path word) }

/-- The switch whose value is still to come. -/
def awaiting (d : Draft) : Option Switch :=
  match d.pending with
  | some (.value s none) => some s
  | _ => none

/-- Takes in one word while switches are still allowed. -/
def takeWord (d : Draft) (word : String) : Except Interruption Draft :=
  match word.toList with
  | '-' :: '-' :: text => d.takeLong text
  | '-' :: c :: text => d.takeShort (c :: text)
  | _ =>
    match d.awaiting with
    | some s => .ok { d with pending := some (.value s (some word)) }
    | none => d.takePath word

/-- Takes in all words; after two dashes on their own there are no more switches. -/
def takeWords (d : Draft) : List String → Except Interruption Draft
  | [] => d.settle
  | word :: rest =>
    if word = "--" then do (← rest.foldlM takePath d).settle
    else do (← d.takeWord word).takeWords rest

/-- The invocation that a command's words ask for. -/
def invocation (d : Draft) : Except Interruption Invocation :=
  match d.command, d.path with
  | none, none => .ok .banner
  | none, some path => .ok (.run path .default)
  | some _, none => refuse .missingPath
  | some .run, some path => .ok (.run path d.options)
  | some .check, some path => .ok (.check path)
  | some .listing, some path => .ok (.listing path)

/-- Reads the words of a given command. -/
def readCommand (command : Command) (words : List String) : Except Interruption Invocation := do
  (← (empty (some command)).takeWords words).invocation

/-- Reads the words behind the one that asks for help: at most one command. -/
def readHelp : List String → Interruption
  | [] => .help
  | word :: rest =>
    if Command.names.contains word then
      match rest with
      | [] => .help
      | next :: _ => .refused (.unknownCommand next)
    else .refused (.unknownCommand word)

/-- Reads words up to a command. -/
def readWords (d : Draft) : List String → Except Interruption Invocation
  | [] => do (← d.settle).invocation
  | word :: rest =>
    match Command.ofName? word with
    | some command => do
      let invocation ← readCommand command rest
      let _ ← d.settle
      return invocation
    | none =>
      if word = Command.helpName then .error (readHelp rest)
      else if word = "--" then do (← (← rest.foldlM takePath d).settle).invocation
      else do (← d.takeWord word).readWords rest

end Draft

/-- What a command line asks for, without the name of the program. -/
def Invocation.ofArguments (words : List String) : Except Refusal Invocation :=
  match (Draft.empty none).readWords words with
  | .ok invocation => .ok invocation
  | .error .version => .ok .version
  | .error .help => .ok .help
  | .error (.refused refusal) => .error refusal

end BasicComputer
