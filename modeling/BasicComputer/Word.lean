/-!
# Words and addresses

A memory cell holds sixteen bits and an address has twelve, so every address names a cell. Read as an
instruction, a word is an indirect bit, a three-bit opcode and an address; the three fields determine the
word. Characters travel to and from the devices as eight-bit bytes.
-/

namespace BasicComputer

/-- The contents of a memory cell, and of the registers AC, DR, IR and TR. -/
abbrev Word := BitVec 16

/-- The number of a memory cell, and the contents of the registers AR and PC. -/
abbrev Address := BitVec 12

/-- A character as the devices see it, and the contents of the registers INPR and OUTR. -/
abbrev Byte := BitVec 8

/-- The address field: bits 0 to 11 of a word. -/
def Word.address (w : Word) : Address := w.setWidth 12

/-- The indirect bit: bit 15. -/
def Word.indirect (w : Word) : Bool := w.msb

/-- The opcode: bits 12 to 14. -/
def Word.opcode (w : Word) : BitVec 3 := w.extractLsb' 12 3

/-- The word with these three fields. -/
def Word.ofFields (indirect : Bool) (opcode : BitVec 3) (address : Address) : Word :=
  BitVec.ofNat 16 (indirect.toNat * 0x8000 + opcode.toNat * 0x1000 + address.toNat)

/-- The place, counted from bit 11 down, of the only bit set in the address field. -/
def Word.soleBit? (w : Word) : Option Nat :=
  (List.range 12).find? fun i => w.address == BitVec.twoPow 12 (11 - i)

/-- An address as a word, with the upper four bits clear. -/
def Address.word (a : Address) : Word := a.setWidth 16

/-- A byte as a word, with the upper eight bits clear. -/
def Byte.word (b : Byte) : Word := b.setWidth 16

/-- Bits 0 to 7 of a word. -/
def Word.byte (w : Word) : Byte := w.setWidth 8

/-- The code point of a character modulo 256. -/
def Byte.ofChar (c : Char) : Byte := BitVec.ofNat 8 c.toNat

/-- The character whose code point is the byte. -/
def Byte.char (b : Byte) : Char := Char.ofNat b.toNat

@[simp] theorem Address.address_word (a : Address) : Word.address (Address.word a) = a := by
  simp [Word.address, Address.word]

@[simp] theorem Address.toNat_word (a : Address) : (Address.word a).toNat = a.toNat := by
  have := a.isLt
  simp only [Address.word, BitVec.toNat_setWidth]
  omega

/-! ### The fields of a word -/

@[simp] theorem Word.toNat_address (w : Word) : (Word.address w).toNat = w.toNat % 0x1000 := by
  simp [Word.address]

theorem Word.address_ofNat (n : Nat) : Word.address (BitVec.ofNat 16 n) = BitVec.ofNat 12 n := by
  apply BitVec.eq_of_toNat_eq
  rw [Word.toNat_address, BitVec.toNat_ofNat, BitVec.toNat_ofNat]
  omega

@[simp] theorem Word.toNat_opcode (w : Word) : (Word.opcode w).toNat = w.toNat / 0x1000 % 8 := by
  simp [Word.opcode, BitVec.extractLsb'_toNat, Nat.shiftRight_eq_div_pow]

theorem Word.indirect_eq (w : Word) : Word.indirect w = decide (0x8000 ≤ w.toNat) := by
  simp [Word.indirect, BitVec.msb_eq_decide]

theorem Word.toNat_ofFields (i : Bool) (o : BitVec 3) (a : Address) :
    (Word.ofFields i o a).toNat = i.toNat * 0x8000 + o.toNat * 0x1000 + a.toNat := by
  have := i.toNat_lt
  have := o.isLt
  have := a.isLt
  simp only [Word.ofFields, BitVec.toNat_ofNat]
  omega

@[simp] theorem Word.address_ofFields (i : Bool) (o : BitVec 3) (a : Address) :
    Word.address (Word.ofFields i o a) = a := by
  apply BitVec.eq_of_toNat_eq
  have := a.isLt
  rw [Word.toNat_address, Word.toNat_ofFields]
  omega

@[simp] theorem Word.opcode_ofFields (i : Bool) (o : BitVec 3) (a : Address) :
    Word.opcode (Word.ofFields i o a) = o := by
  apply BitVec.eq_of_toNat_eq
  have := a.isLt
  have := o.isLt
  rw [Word.toNat_opcode, Word.toNat_ofFields]
  omega

@[simp] theorem Word.indirect_ofFields (i : Bool) (o : BitVec 3) (a : Address) :
    Word.indirect (Word.ofFields i o a) = i := by
  have := a.isLt
  have := o.isLt
  rw [Word.indirect_eq, Word.toNat_ofFields]
  cases i <;> simp <;> omega

@[simp] theorem Word.ofFields_fields (w : Word) :
    Word.ofFields (Word.indirect w) (Word.opcode w) (Word.address w) = w := by
  apply BitVec.eq_of_toNat_eq
  have := w.isLt
  rw [Word.toNat_ofFields, Word.toNat_opcode, Word.toNat_address, Word.indirect_eq]
  by_cases h : 0x8000 ≤ w.toNat <;> simp [h] <;> omega

end BasicComputer
