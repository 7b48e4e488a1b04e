import BasicComputer.Assembly.Image
import BasicComputer.Proofs.Source.Literals

/-! # Encoding instructions

The second reading encodes an instruction with the number that its operand stands for. The number is that
of a cell, so the encoder refuses nothing but the mark `I` of an instruction without an operand. -/

namespace BasicComputer

variable {symbols : SymbolTable}

namespace SymbolTable

theorem lt_of_resolve {operand : Token} {w : Word} (h : symbols.resolve operand = .ok w) :
    w.toNat < 4096 := by
  unfold resolve at h
  split at h
  · obtain ⟨n, hn, rfl⟩ := map_eq_ok_iff.mp h
    obtain ⟨-, hle⟩ := Token.hexadecimal_eq_ok_iff.mp hn
    rw [BitVec.toNat_ofNat]
    omega
  · split at h
    next a _ =>
      cases h
      rw [Address.toNat_word]
      exact a.isLt
    next => cases h

theorem operandWord_lt {operand : Option Token} {w : Word} (h : symbols.operandWord operand = .ok w) :
    w.toNat < 4096 := by
  cases operand with
  | some operand => exact lt_of_resolve h
  | none =>
      cases h
      decide

/-- Behind the operand, the encoder alone decides. -/
theorem encode_eq {m : Mnemonic} {operand : Option Token} {mark : Option Span} {w : Word}
    (h : symbols.operandWord operand = .ok w) :
    symbols.encode m operand mark =
      match m.instruction? w mark.isSome with
      | .ok i => .ok i.encode
      | .error fault => .error (fault.sourceError m operand mark) := by
  rw [encode, h]
  rfl

end SymbolTable

namespace Mnemonic

variable {m : Mnemonic} {w : Word} {indirect : Bool}

theorem instruction?_memory (op : MemoryOp) (h : w.toNat < 4096) :
    (memory op).instruction? w indirect = .ok (.memory op w.address indirect) :=
  if_pos h

theorem instruction?_ne_addressOutOfRange (h : w.toNat < 4096) (value : Word) :
    m.instruction? w indirect ≠ .error (.addressOutOfRange value) := by
  cases m with
  | memory op => simp [instruction?_memory op h]
  | register op | io op => cases indirect <;> simp [instruction?]

theorem indirect_of_illegalIndirection (h : m.instruction? w indirect = .error .illegalIndirection) :
    indirect = true := by
  cases m with
  | memory op =>
      rw [instruction?] at h
      split at h <;> cases h
  | register op | io op =>
      cases indirect with
      | true => rfl
      | false => cases h

end Mnemonic

namespace Statement

variable (symbols : SymbolTable)

theorem word_memory (op : MemoryOp) (operand : Token) (mark : Option Span) :
    (memory op operand mark).word symbols =
      (symbols.resolve operand).map fun w => (Instruction.memory op w.address mark.isSome).encode := by
  rw [word]
  cases h : symbols.resolve operand with
  | error e =>
      rw [SymbolTable.encode, SymbolTable.operandWord, h]
      rfl
  | ok w =>
      have hoperand : symbols.operandWord (some operand) = .ok w := h
      rw [SymbolTable.encode_eq hoperand, Mnemonic.instruction?_memory op (SymbolTable.lt_of_resolve h)]
      rfl

/-- A memory-reference instruction is refused only for its operand. -/
theorem word_memory_eq_error_iff {op : MemoryOp} {operand : Token} {mark : Option Span} {e : SourceError} :
    (memory op operand mark).word symbols = .error e ↔ symbols.resolve operand = .error e := by
  rw [word_memory, map_eq_error_iff]

theorem word_register (op : RegisterOp) :
    (register op none).word symbols = .ok (Instruction.register op).encode := rfl

theorem word_io (op : IoOp) : (io op none).word symbols = .ok (Instruction.io op).encode := rfl

end Statement

end BasicComputer
