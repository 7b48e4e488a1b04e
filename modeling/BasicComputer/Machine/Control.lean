import BasicComputer.Machine.Transfer

/-!
# The control unit

The control unit chooses the transfer of the next pulse from the cycle, SC, the opcode, the indirect bit
and, for opcode 7, the selector in IR.
-/

namespace BasicComputer

/-- The part of a cycle that a pulse belongs to. -/
inductive Phase
  | fetch
  | decode
  | indirect
  | execute
  | interrupt
  deriving DecidableEq, Repr

def Phase.name : Phase → String
  | fetch => "FETCH"
  | decode => "DECODE"
  | indirect => "INDIRECT"
  | execute => "EXECUTE"
  | interrupt => "INTERRUPT"

/-- The transfer of a skip instruction. -/
def Transfer.skipWhen (condition : Bool) : Transfer := if condition then .skip else .noSkip

/-- From time 4 on, with the effective address in AR. -/
def MemoryOp.transfer (op : MemoryOp) (c : Computer) : Transfer :=
  match op with
  | .and => if c.sc = 4 then .drFromMemory else .acAndDr
  | .add => if c.sc = 4 then .drFromMemory else .acAddDr
  | .lda => if c.sc = 4 then .drFromMemory else .acFromDr
  | .sta => .memoryFromAc
  | .bun => .pcFromAr
  | .bsa => if c.sc = 4 then .memoryFromPc else .pcFromAr
  | .isz =>
    if c.sc = 4 then .drFromMemory
    else if c.sc = 5 then .incrementDr
    else if c.dr = 0 then .memoryFromDrSkip
    else .memoryFromDr

def RegisterOp.transfer (op : RegisterOp) (c : Computer) : Transfer :=
  match op with
  | .cla => .clearAc
  | .cle => .clearE
  | .cma => .complementAc
  | .cme => .complementE
  | .cir => .rotateRight
  | .cil => .rotateLeft
  | .inc => .incrementAc
  | .spa => .skipWhen (!c.ac.msb)
  | .sna => .skipWhen c.ac.msb
  | .sza => .skipWhen (c.ac == 0)
  | .sze => .skipWhen (!c.e)
  | .hlt => .halt

def IoOp.transfer (op : IoOp) (c : Computer) : Transfer :=
  match op with
  | .inp => .acFromInpr
  | .out => .outrFromAc
  | .ski => .skipWhen c.fgi
  | .sko => .skipWhen c.fgo
  | .ion => .enableInterrupt
  | .iof => .disableInterrupt

namespace Computer

def phase (c : Computer) : Phase :=
  match c.cycle, c.sc with
  | .interrupt, _ => .interrupt
  | .instruction, 0 => .fetch
  | .instruction, 1 => .fetch
  | .instruction, 2 => .decode
  | .instruction, 3 =>
    if c.opcode = escapeOpcode then .execute else if c.i then .indirect else .decode
  | .instruction, _ => .execute

/-- The transfer that the selector in IR chooses, if it has exactly one bit set and that bit means
something. -/
def selectedTransfer? (c : Computer) : Option Transfer :=
  match c.ir.soleBit? with
  | none => none
  | some n =>
    if c.i then IoOp.all[n]?.map (·.transfer c) else RegisterOp.all[n]?.map (·.transfer c)

/-- The transfer of the next pulse; none where IR cannot be decoded. -/
def transfer? (c : Computer) : Option Transfer :=
  match c.cycle, c.sc with
  | .interrupt, 0 => some .trFromPc
  | .interrupt, 1 => some .memoryFromTr
  | .interrupt, _ => some .enterService
  | .instruction, 0 => some .arFromPc
  | .instruction, 1 => some .fetch
  | .instruction, 2 => some .decode
  | .instruction, 3 =>
    if c.opcode = escapeOpcode then c.selectedTransfer?
    else some (if c.i then .arFromMemory else .idle)
  | .instruction, _ => MemoryOp.all[c.opcode.toNat]?.map (·.transfer c)

end Computer

theorem MemoryOp.sc_le_of_not_endsCycle {op : MemoryOp} {c : Computer}
    (h : (op.transfer c).endsCycle = false) : c.sc ≤ 5 := by
  cases op <;> simp only [MemoryOp.transfer] at h <;> grind [Transfer.endsCycle]

/-- A cycle has no pulse after time 6. -/
theorem Computer.sc_le_of_transfer? {c : Computer} {t : Transfer} (h : c.transfer? = some t)
    (ht : t.endsCycle = false) : c.sc ≤ 5 := by
  unfold Computer.transfer? at h
  split at h
  case h_3 =>
    cases h
    simp [Transfer.endsCycle] at ht
  case h_8 =>
    obtain ⟨op, -, rfl⟩ := Option.map_eq_some_iff.1 h
    exact MemoryOp.sc_le_of_not_endsCycle ht
  all_goals omega

end BasicComputer
