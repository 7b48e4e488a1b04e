import BasicComputer.Word

/-!
# Mnemonics

The seven memory-reference, twelve register-reference and six input-output operations of the basic
computer and their names. A memory-reference operation has an opcode of its own; the others share opcode
7 and have a selector, one bit in place of the address.
-/

namespace BasicComputer

/-- Operations on a memory cell. -/
inductive MemoryOp
  | and | add | lda | sta | bun | bsa | isz
  deriving DecidableEq, Repr

/-- Operations on AC, E, PC and S. -/
inductive RegisterOp
  | cla | cle | cma | cme | cir | cil | inc | spa | sna | sza | sze | hlt
  deriving DecidableEq, Repr

/-- Operations on the devices and the interrupt enable. -/
inductive IoOp
  | inp | out | ski | sko | ion | iof
  deriving DecidableEq, Repr

namespace MemoryOp

def all : List MemoryOp := [.and, .add, .lda, .sta, .bun, .bsa, .isz]

def name : MemoryOp → String
  | .and => "AND" | .add => "ADD" | .lda => "LDA" | .sta => "STA"
  | .bun => "BUN" | .bsa => "BSA" | .isz => "ISZ"

def opcode : MemoryOp → BitVec 3
  | .and => 0 | .add => 1 | .lda => 2 | .sta => 3 | .bun => 4 | .bsa => 5 | .isz => 6

theorem mem_all (op : MemoryOp) : op ∈ all := by cases op <;> decide

end MemoryOp

namespace RegisterOp

/-- In the order of their selector bits, bit 11 first. -/
def all : List RegisterOp :=
  [.cla, .cle, .cma, .cme, .cir, .cil, .inc, .spa, .sna, .sza, .sze, .hlt]

def name : RegisterOp → String
  | .cla => "CLA" | .cle => "CLE" | .cma => "CMA" | .cme => "CME" | .cir => "CIR" | .cil => "CIL"
  | .inc => "INC" | .spa => "SPA" | .sna => "SNA" | .sza => "SZA" | .sze => "SZE" | .hlt => "HLT"

def selector : RegisterOp → Address
  | .cla => 0x800 | .cle => 0x400 | .cma => 0x200 | .cme => 0x100 | .cir => 0x080 | .cil => 0x040
  | .inc => 0x020 | .spa => 0x010 | .sna => 0x008 | .sza => 0x004 | .sze => 0x002 | .hlt => 0x001

theorem mem_all (op : RegisterOp) : op ∈ all := by cases op <;> decide

end RegisterOp

namespace IoOp

/-- In the order of their selector bits, bit 11 first. -/
def all : List IoOp := [.inp, .out, .ski, .sko, .ion, .iof]

def name : IoOp → String
  | .inp => "INP" | .out => "OUT" | .ski => "SKI" | .sko => "SKO" | .ion => "ION" | .iof => "IOF"

def selector : IoOp → Address
  | .inp => 0x800 | .out => 0x400 | .ski => 0x200 | .sko => 0x100 | .ion => 0x080 | .iof => 0x040

theorem mem_all (op : IoOp) : op ∈ all := by cases op <;> decide

end IoOp

/-! ### Mnemonics -/

inductive Mnemonic
  | memory (op : MemoryOp)
  | register (op : RegisterOp)
  | io (op : IoOp)
  deriving DecidableEq, Repr

namespace Mnemonic

def all : List Mnemonic :=
  MemoryOp.all.map .memory ++ RegisterOp.all.map .register ++ IoOp.all.map .io

def name : Mnemonic → String
  | memory op => op.name
  | register op => op.name
  | io op => op.name

/-- The opcode of a memory-reference operation, the selector of any other. -/
def code : Mnemonic → Nat
  | memory op => op.opcode.toNat
  | register op => op.selector.toNat
  | io op => op.selector.toNat

/-- The mnemonic of exactly this spelling. -/
def ofName? (name : String) : Option Mnemonic := all.find? (·.name == name)

theorem ofName?_name (m : Mnemonic) : ofName? m.name = some m := by
  cases m with
  | memory op => cases op <;> decide
  | register op => cases op <;> decide
  | io op => cases op <;> decide

theorem name_of_ofName?_eq_some {name : String} {m : Mnemonic} (h : ofName? name = some m) :
    m.name = name := by
  simpa using List.find?_some h

end Mnemonic

end BasicComputer
