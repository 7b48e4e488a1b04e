import BasicComputer.Machine.Pulse

/-! # The instruction table

The computer as a program sees it: without the registers of the control unit, and advanced by whole
instructions. Sums, rotations and signs are told by the values of the registers, not by their bits. -/

namespace BasicComputer

/-- The part of a computer that the instruction table speaks of. -/
structure Architecture where
  memory : Memory
  ac : Word
  e : Bool
  pc : Address
  inpr : Byte
  outr : Byte
  fgi : Bool
  fgo : Bool
  ien : Bool
  s : Bool
  input : List Byte
  output : Array Byte
  cycles : Nat

def Computer.architecture (c : Computer) : Architecture where
  memory := c.memory
  ac := c.ac
  e := c.e
  pc := c.pc
  inpr := c.inpr
  outr := c.outr
  fgi := c.fgi
  fgo := c.fgo
  ien := c.ien
  s := c.s
  input := c.input
  output := c.output
  cycles := c.cycles

namespace Architecture

/-- A free INPR takes the next character, if there is one; the printer becomes ready. -/
def devicesAct (a : Architecture) : Architecture :=
  match a.fgi, a.input with
  | false, character :: rest =>
    { a with inpr := character, fgi := true, input := rest, fgo := true }
  | _, _ => { a with fgo := true }

def effectiveAddress (a : Architecture) (address : Address) (indirect : Bool) : Address :=
  if indirect then (a.memory.read address).address else address

def skipWhen (a : Architecture) (condition : Bool) : Architecture :=
  if condition then { a with pc := a.pc + 1 } else a

/-- The effect of a memory-reference operation on the cell with this address. -/
def performMemory (a : Architecture) (cell : Address) : MemoryOp → Architecture
  | .and => { a with ac := a.ac &&& a.memory.read cell }
  | .add =>
    let sum := a.ac.toNat + (a.memory.read cell).toNat
    { a with ac := BitVec.ofNat 16 sum, e := decide (0x10000 ≤ sum) }
  | .lda => { a with ac := a.memory.read cell }
  | .sta => { a with memory := a.memory.write cell a.ac }
  | .bun => { a with pc := cell }
  | .bsa => { a with memory := a.memory.write cell a.pc.word, pc := cell + 1 }
  | .isz =>
    let next := a.memory.read cell + 1
    { a with memory := a.memory.write cell next }.skipWhen (next == 0)

def performRegister (a : Architecture) : RegisterOp → Architecture
  | .cla => { a with ac := 0 }
  | .cle => { a with e := false }
  | .cma => { a with ac := BitVec.ofNat 16 (0xFFFF - a.ac.toNat) }
  | .cme => { a with e := !a.e }
  | .cir =>
    { a with
      ac := BitVec.ofNat 16 (a.ac.toNat / 2 + a.e.toNat * 0x8000)
      e := decide (a.ac.toNat % 2 = 1) }
  | .cil =>
    { a with
      ac := BitVec.ofNat 16 (a.ac.toNat * 2 + a.e.toNat)
      e := decide (0x8000 ≤ a.ac.toNat) }
  | .inc => { a with ac := a.ac + 1 }
  | .spa => a.skipWhen (a.ac.toNat < 0x8000)
  | .sna => a.skipWhen (0x8000 ≤ a.ac.toNat)
  | .sza => a.skipWhen (a.ac == 0)
  | .sze => a.skipWhen (!a.e)
  | .hlt => { a with s := true }

def performIo (a : Architecture) : IoOp → Architecture
  | .inp =>
    { a with ac := BitVec.ofNat 16 (a.ac.toNat / 0x100 * 0x100 + a.inpr.toNat), fgi := false }
  | .out => { a with outr := a.ac.byte, fgo := false, output := a.output.push a.ac.byte }
  | .ski => a.skipWhen a.fgi
  | .sko => a.skipWhen a.fgo
  | .ion => { a with ien := true }
  | .iof => { a with ien := false }

def perform (a : Architecture) : Instruction → Architecture
  | .memory op address indirect => a.performMemory (a.effectiveAddress address indirect) op
  | .register op => a.performRegister op
  | .io op => a.performIo op

/-- A whole instruction cycle: the devices act, PC moves on, and the instruction has its effect. -/
def execute (a : Architecture) (i : Instruction) : Architecture :=
  let done := { a.devicesAct with pc := a.pc + 1 }.perform i
  { done with cycles := done.cycles + 1 }

/-- A whole interrupt cycle: the devices act, cell 0 takes the return address, and the service routine
at address 1 is next. -/
def interrupt (a : Architecture) : Architecture :=
  { a.devicesAct with
    memory := a.memory.write 0 a.pc.word
    pc := 1
    ien := false
    cycles := a.cycles + 1 }

end Architecture

namespace Computer

/-! ## The state at the start of a cycle -/

/-- What the beginning of a cycle does, to the computer and as the instruction table has it. -/
theorem startCycle_spec (c : Computer) :
    ∃ inpr fgi input,
      c.startCycle = { c with
        inpr, fgi, input, fgo := true, cycle := if c.r then .interrupt else .instruction } ∧
      c.architecture.devicesAct = { c.architecture with inpr, fgi, input, fgo := true } := by
  unfold startCycle feed Architecture.devicesAct
  cases hf : c.fgi with
  | true => exact ⟨c.inpr, true, c.input, by simp [hf], by simp [architecture, hf]⟩
  | false =>
      cases hi : c.input with
      | nil => exact ⟨c.inpr, false, [], by simp [hf, hi], by simp [architecture, hf, hi]⟩
      | cons character rest =>
          exact ⟨character, true, rest, by simp, by simp [architecture, hf, hi]⟩

end Computer

end BasicComputer
