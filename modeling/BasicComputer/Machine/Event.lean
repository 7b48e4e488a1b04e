import BasicComputer.Journal
import BasicComputer.Machine.Control

/-!
# Events

What a machine enters in its journal. Details are entered only while the machine is tracing.
-/

namespace BasicComputer

inductive Event
  | pulse (phase : Phase) (time : Nat)
  | transfer (t : Transfer)
  | interruptRaised
  | characterReady (character : Byte)
  | printerReady
  | executed (word : Word) (address : Address)
  | interruptServiced (returnAddress : Word)
  | halted (address : Address)
  | undecodable (word : Word) (address : Address)
  | loaded (size : Nat) (entry : Address)
  | characterTruncated (character : Char)
  | breakpointReached (address : Address)
  | budgetExhausted (budget : Nat) (address : Address)
  deriving DecidableEq, Repr

/-- A word that no instruction has, and its address. -/
structure DecodeFault where
  word : Word
  address : Address
  deriving DecidableEq, Repr

/-- At least three digits, as addresses are shown. -/
def hexAddress (address : Nat) : String := "0x" ++ Hex.upper 3 address

def DecodeFault.message (fault : DecodeFault) : String :=
  "cannot decode instruction 0x" ++ Hex.upper 4 fault.word.toNat ++ " at address " ++
    hexAddress fault.address.toNat

namespace Event

def isDetail : Event → Bool
  | pulse .. | transfer .. | interruptRaised | characterReady .. | printerReady | executed .. => true
  | _ => false

def record : Event → Record
  | pulse phase time => .context phase.name time
  | transfer t => .step t.text
  | interruptRaised => .step "R ← 1"
  | characterReady character =>
    .info ("Input device: INPR ← 0x" ++ Hex.upper 2 character.toNat ++ ", FGI ← 1.")
  | printerReady => .info "Output device: FGO ← 1."
  | executed word address =>
    let text :=
      match Instruction.decode? word with
      | some instruction => instruction.text
      | none => "0x" ++ Hex.upper 4 word.toNat
    .info ("Executed " ++ text ++ " at " ++ hexAddress address.toNat ++ ".")
  | interruptServiced returnAddress =>
    .info ("Interrupt serviced, return address " ++ hexAddress returnAddress.toNat ++
      " saved at 0x000.")
  | halted address => .info ("Halted at " ++ hexAddress address.toNat ++ ".")
  | undecodable word address =>
    .error ("Fatal: " ++ (DecodeFault.mk word address).message ++ ". Machine stopped.")
  | loaded size entry =>
    .info ("Loaded " ++ toString size ++ (if size = 1 then " word" else " words") ++ ", entry at " ++
      hexAddress entry.toNat ++ ".")
  | characterTruncated character =>
    .warning ("Input character `" ++ character.toString ++
      "` does not fit in INPR, truncated to 8 bits.")
  | breakpointReached address =>
    .warning ("Reached breakpoint at " ++ hexAddress address.toNat ++ ". Pausing execution.")
  | budgetExhausted budget address =>
    .warning ("Step budget of " ++ toString budget ++ " exhausted at " ++
      hexAddress address.toNat ++ ".")

end Event

end BasicComputer
