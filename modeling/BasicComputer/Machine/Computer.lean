import BasicComputer.Instruction.Basic
import BasicComputer.Machine.Memory

/-!
# The computer

The state of the basic computer's hardware: memory, registers and flip-flops, together with what the
two devices hold.
-/

namespace BasicComputer

/-- An instruction cycle fetches and executes an instruction; an interrupt cycle goes to the service
routine instead. -/
inductive Cycle
  | instruction
  | interrupt
  deriving DecidableEq, Repr

structure Computer where
  memory : Memory
  /-- Accumulator. -/
  ac : Word
  /-- Data register: operands from memory pass through it. -/
  dr : Word
  /-- Address register. -/
  ar : Address
  /-- Instruction register. -/
  ir : Word
  /-- Program counter. -/
  pc : Address
  /-- Temporary register: holds the return address of an interrupt. -/
  tr : Word
  /-- Input register. -/
  inpr : Byte
  /-- Output register. -/
  outr : Byte
  /-- Sequence counter: the time of the next pulse within its cycle. -/
  sc : Nat
  /-- Indirect bit of the instruction. -/
  i : Bool
  /-- The computer has stopped. -/
  s : Bool
  /-- Carry out of the accumulator. -/
  e : Bool
  /-- The next cycle is an interrupt cycle. -/
  r : Bool
  /-- Interrupts are enabled. -/
  ien : Bool
  /-- A character is ready in INPR. -/
  fgi : Bool
  /-- The printer is ready for a character. -/
  fgo : Bool
  /-- What the instruction decoder has made of IR(12-14). -/
  opcode : BitVec 3
  cycle : Cycle
  /-- The address of the instruction in IR. -/
  origin : Address
  /-- Characters that have not reached INPR. -/
  input : List Byte
  /-- Characters that have left OUTR. -/
  output : Array Byte
  /-- Cycles completed. Their count is taken to stay below `2 ^ 64`. -/
  cycles : Nat
  deriving DecidableEq, Repr

namespace Computer

/-- All clear, with the printer ready. -/
def initial : Computer where
  memory := .blank
  ac := 0
  dr := 0
  ar := 0
  ir := 0
  pc := 0
  tr := 0
  inpr := 0
  outr := 0
  sc := 0
  i := false
  s := false
  e := false
  r := false
  ien := false
  fgi := false
  fgo := true
  opcode := 0
  cycle := .instruction
  origin := 0
  input := []
  output := #[]
  cycles := 0

/-- No cycle is under way. -/
def atBoundary (c : Computer) : Bool := c.sc == 0

end Computer

end BasicComputer
