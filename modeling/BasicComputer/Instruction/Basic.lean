import BasicComputer.Instruction.Mnemonic
import BasicComputer.Text.Hex

/-!
# Instructions

Instructions and the words that stand for them. Every instruction has one word, and a word stands for at
most one instruction.
-/

namespace BasicComputer

inductive Instruction
  | memory (op : MemoryOp) (address : Address) (indirect : Bool)
  | register (op : RegisterOp)
  | io (op : IoOp)
  deriving DecidableEq, Repr

/-- The opcode that leaves the choice of the operation to a selector. -/
def escapeOpcode : BitVec 3 := 7

namespace Instruction

def mnemonic : Instruction → Mnemonic
  | memory op _ _ => .memory op
  | register op => .register op
  | io op => .io op

def encode : Instruction → Word
  | memory op address indirect => .ofFields indirect op.opcode address
  | register op => .ofFields false escapeOpcode op.selector
  | io op => .ofFields true escapeOpcode op.selector

/-- The instruction a word stands for, found by its opcode or its selector. -/
def decode? (w : Word) : Option Instruction :=
  if w.opcode = escapeOpcode then
    if w.indirect then (IoOp.all.find? (·.selector == w.address)).map io
    else (RegisterOp.all.find? (·.selector == w.address)).map register
  else
    (MemoryOp.all.find? (·.opcode == w.opcode)).map (memory · w.address w.indirect)

/-- The form a listing shows: mnemonic, three hexadecimal digits of the address, the mark `I`. -/
def text : Instruction → String
  | memory op address indirect =>
    op.name ++ " " ++ Hex.upper 3 address.toNat ++ (if indirect then " I" else "")
  | register op => op.name
  | io op => op.name

theorem decode?_encode (i : Instruction) : decode? i.encode = some i := by
  cases i with
  | memory op address indirect => cases op <;> simp [decode?, encode] <;> rfl
  | register op => cases op <;> decide
  | io op => cases op <;> decide

/-- A word that stands for an instruction is that instruction's word. -/
theorem encode_of_decode?_eq_some {w : Word} {i : Instruction} (h : decode? w = some i) :
    i.encode = w := by
  unfold decode? at h
  split at h
  next ho =>
    split at h
    next hi =>
      obtain ⟨op, hop, rfl⟩ := Option.map_eq_some_iff.1 h
      have := List.find?_some hop
      simp only [beq_iff_eq] at this
      rw [encode, this, ← ho, ← hi, Word.ofFields_fields]
    next hi =>
      obtain ⟨op, hop, rfl⟩ := Option.map_eq_some_iff.1 h
      have := List.find?_some hop
      simp only [beq_iff_eq] at this
      rw [Bool.not_eq_true] at hi
      rw [encode, this, ← ho, ← hi, Word.ofFields_fields]
  next =>
    obtain ⟨op, hop, rfl⟩ := Option.map_eq_some_iff.1 h
    have := List.find?_some hop
    simp only [beq_iff_eq] at this
    rw [encode, this, Word.ofFields_fields]

end Instruction

/-- Why a mnemonic and an operand do not make an instruction. -/
inductive InstructionFault
  | addressOutOfRange (operand : Word)
  | illegalIndirection
  deriving DecidableEq, Repr

/-- The instruction with this operand and marking. Only memory-reference instructions use the operand,
and only they may be indirect. -/
def Mnemonic.instruction? (m : Mnemonic) (operand : Word) (indirect : Bool) :
    Except InstructionFault Instruction :=
  match m with
  | memory op =>
    if operand.toNat < 4096 then .ok (.memory op operand.address indirect)
    else .error (.addressOutOfRange operand)
  | register op => if indirect then .error .illegalIndirection else .ok (.register op)
  | io op => if indirect then .error .illegalIndirection else .ok (.io op)

end BasicComputer
