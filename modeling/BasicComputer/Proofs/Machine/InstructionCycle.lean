import BasicComputer.Proofs.Machine.Architecture
import BasicComputer.Proofs.Machine.Timing

/-! # Instruction cycles

The four to seven pulses of an instruction cycle have together the effect that the instruction table
gives for the decoded instruction. -/

namespace BasicComputer

/-! ## Bits and values -/

namespace Word

theorem complement_eq (w : Word) : ~~~w = BitVec.ofNat 16 (0xFFFF - w.toNat) := by
  apply BitVec.eq_of_toNat_eq
  simp only [BitVec.toNat_not, BitVec.toNat_ofNat]
  omega

theorem rotateRight_eq (e : Bool) (w : Word) :
    BitVec.cons e (w.extractLsb' 1 15) = BitVec.ofNat 16 (w.toNat / 2 + e.toNat * 0x8000) := by
  apply BitVec.eq_of_toNat_eq
  have hw := w.isLt
  have he := e.toNat_lt
  rw [BitVec.toNat_cons', BitVec.extractLsb'_toNat, Nat.shiftLeft_eq, Nat.shiftRight_eq_div_pow,
    BitVec.toNat_ofNat]
  omega

theorem rotateLeft_eq (e : Bool) (w : Word) :
    BitVec.concat (w.setWidth 15) e = BitVec.ofNat 16 (w.toNat * 2 + e.toNat) := by
  apply BitVec.eq_of_toNat_eq
  have hw := w.isLt
  have he := e.toNat_lt
  simp only [BitVec.toNat_concat, BitVec.toNat_setWidth, BitVec.toNat_ofNat]
  omega

theorem replaceByte_eq (w : Word) (b : Byte) :
    w.extractLsb' 8 8 ++ b = BitVec.ofNat 16 (w.toNat / 0x100 * 0x100 + b.toNat) := by
  apply BitVec.eq_of_toNat_eq
  have hw := w.isLt
  have hb := b.isLt
  rw [BitVec.toNat_append, ← Nat.shiftLeft_add_eq_or_of_lt hb, Nat.shiftLeft_eq,
    BitVec.extractLsb'_toNat, Nat.shiftRight_eq_div_pow, BitVec.toNat_ofNat]
  omega

theorem lowBit_eq (w : Word) : w.getLsbD 0 = decide (w.toNat % 2 = 1) := by
  simp [BitVec.getLsbD, Nat.testBit_zero]

theorem sign_eq (w : Word) : w.msb = decide (0x8000 ≤ w.toNat) := by
  simp [BitVec.msb_eq_decide]

end Word

/-! ## Operations as their last transfers -/

namespace Computer

variable (c : Computer)

/-- The last transfer of a memory-reference instruction completes what its preparation began. -/
theorem architecture_memoryOp (op : MemoryOp) :
    ((c.lastTransfer op).apply (c.prepared op)).finishCycle.architecture =
      { c.architecture.performMemory c.ar op with cycles := c.cycles + 1 } := by
  cases op with
  | isz =>
      by_cases hz : c.memory.read c.ar + 1 = 0
      · have hz' : (c.memory.read c.ar + 1 == 0) = true := by simpa using hz
        simp only [lastTransfer, if_pos hz, Architecture.performMemory, Architecture.skipWhen,
          architecture, hz', if_true]
        rfl
      · have hz' : (c.memory.read c.ar + 1 == 0) = false := by simpa using hz
        simp only [lastTransfer, if_neg hz, Architecture.performMemory, Architecture.skipWhen,
          architecture, hz']
        rfl
  | _ => rfl

theorem architecture_skipWhen (condition : Bool) :
    ((Transfer.skipWhen condition).apply c).finishCycle.architecture =
      { c.architecture.skipWhen condition with cycles := c.cycles + 1 } := by
  cases condition <;> rfl

theorem architecture_registerOp (op : RegisterOp) :
    ((op.transfer c).apply c).finishCycle.architecture =
      { c.architecture.performRegister op with cycles := c.cycles + 1 } := by
  cases op with
  | cma => simp only [RegisterOp.transfer, Transfer.apply, finishCycle, architecture,
      Architecture.performRegister, Word.complement_eq]
  | cir => simp only [RegisterOp.transfer, Transfer.apply, finishCycle, architecture,
      Architecture.performRegister, Word.rotateRight_eq, Word.lowBit_eq]; rfl
  | cil => simp only [RegisterOp.transfer, Transfer.apply, finishCycle, architecture,
      Architecture.performRegister, Word.rotateLeft_eq, Word.sign_eq]; rfl
  | spa =>
      have hs : (!c.ac.msb) = decide (c.ac.toNat < 0x8000) := by
        rw [Word.sign_eq, ← decide_not]
        simp
      simp only [RegisterOp.transfer, hs]
      exact c.architecture_skipWhen (decide (c.ac.toNat < 0x8000))
  | sna =>
      simp only [RegisterOp.transfer, Word.sign_eq]
      exact c.architecture_skipWhen (decide (0x8000 ≤ c.ac.toNat))
  | sza => exact c.architecture_skipWhen (c.ac == 0)
  | sze => exact c.architecture_skipWhen (!c.e)
  | _ => rfl

theorem architecture_ioOp (op : IoOp) :
    ((op.transfer c).apply c).finishCycle.architecture =
      { c.architecture.performIo op with cycles := c.cycles + 1 } := by
  cases op with
  | inp => simp only [IoOp.transfer, Transfer.apply, finishCycle, architecture,
      Architecture.performIo, Word.replaceByte_eq]
  | ski => exact c.architecture_skipWhen c.fgi
  | sko => exact c.architecture_skipWhen c.fgo
  | _ => rfl

/-! ## The selector -/

theorem soleBit?_register (op : RegisterOp) :
    (Instruction.register op).encode.soleBit? = RegisterOp.all.idxOf? op := by
  cases op <;> decide

theorem soleBit?_io (op : IoOp) : (Instruction.io op).encode.soleBit? = IoOp.all.idxOf? op := by
  cases op <;> decide

variable {c}

theorem selectedTransfer?_register {op : RegisterOp} (hi : c.i = false)
    (h : c.ir = (Instruction.register op).encode) : c.selectedTransfer? = some (op.transfer c) := by
  simp only [selectedTransfer?, h, soleBit?_register, hi]
  cases op <;> rfl

theorem selectedTransfer?_io {op : IoOp} (hi : c.i = true)
    (h : c.ir = (Instruction.io op).encode) : c.selectedTransfer? = some (op.transfer c) := by
  simp only [selectedTransfer?, h, soleBit?_io, hi]
  cases op <;> rfl

theorem selector_registerOp {n : Nat} {op : RegisterOp} (h : RegisterOp.all[n]? = some op) :
    op.selector = BitVec.twoPow 12 (11 - n) := by
  obtain ⟨hn, rfl⟩ := List.getElem?_eq_some_iff.mp h
  revert n
  decide

theorem selector_ioOp {n : Nat} {op : IoOp} (h : IoOp.all[n]? = some op) :
    op.selector = BitVec.twoPow 12 (11 - n) := by
  obtain ⟨hn, rfl⟩ := List.getElem?_eq_some_iff.mp h
  revert n
  decide

/-- The place of the only bit chooses the operation whose selector the word has. -/
theorem ir_of_selectedTransfer? {t : Transfer} (h : c.selectedTransfer? = some t)
    (ho : c.ir.opcode = escapeOpcode) (hi : c.i = c.ir.indirect) :
    (∃ op : RegisterOp, c.ir = (Instruction.register op).encode ∧ t = op.transfer c) ∨
      ∃ op : IoOp, c.ir = (Instruction.io op).encode ∧ t = op.transfer c := by
  unfold selectedTransfer? at h
  split at h
  next => cases h
  next n hn =>
    have hbit : c.ir.address = BitVec.twoPow 12 (11 - n) := by simpa using List.find?_some hn
    split at h
    next hio =>
      obtain ⟨op, hop, rfl⟩ := Option.map_eq_some_iff.mp h
      refine .inr ⟨op, ?_, rfl⟩
      rw [Instruction.encode, selector_ioOp hop, ← hbit, ← ho, ← hio, hi, Word.ofFields_fields]
    next hio =>
      obtain ⟨op, hop, rfl⟩ := Option.map_eq_some_iff.mp h
      rw [Bool.not_eq_true] at hio
      refine .inl ⟨op, ?_, rfl⟩
      rw [Instruction.encode, selector_registerOp hop, ← hbit, ← ho, ← hio, hi,
        Word.ofFields_fields]

/-- The place of the only bit and the search through the selectors find operations in the same words. -/
theorem selectedTransfer?_eq_none_iff (ho : c.ir.opcode = escapeOpcode) (hi : c.i = c.ir.indirect) :
    c.selectedTransfer? = none ↔ Instruction.decode? c.ir = none := by
  constructor
  · intro h
    by_contra hd
    obtain ⟨i, hdecoded⟩ := Option.ne_none_iff_exists'.mp hd
    have hw := (Instruction.encode_of_decode?_eq_some hdecoded).symm
    cases i with
    | memory op address indirect =>
        rw [hw, Instruction.encode, Word.opcode_ofFields] at ho
        exact opcode_ne_escape op ho
    | register op =>
        have hdirect : c.i = false := by rw [hi, hw, Instruction.encode, Word.indirect_ofFields]
        cases h.symm.trans (selectedTransfer?_register hdirect hw)
    | io op =>
        have hindirect : c.i = true := by rw [hi, hw, Instruction.encode, Word.indirect_ofFields]
        cases h.symm.trans (selectedTransfer?_io hindirect hw)
  · intro h
    by_contra hsel
    obtain ⟨t, ht⟩ := Option.ne_none_iff_exists'.mp hsel
    rcases ir_of_selectedTransfer? ht ho hi with ⟨op, hw, -⟩ | ⟨op, hw, -⟩ <;>
      rw [hw, Instruction.decode?_encode] at h <;> cases h

/-! ## Whole cycles -/

end Computer

namespace Architecture

@[simp] theorem cycles_skipWhen (a : Architecture) (condition : Bool) :
    (a.skipWhen condition).cycles = a.cycles := by
  cases condition <;> rfl

@[simp] theorem cycles_perform (a : Architecture) (i : Instruction) :
    (a.perform i).cycles = a.cycles := by
  cases i with
  | memory op address indirect =>
      cases op with
      | isz => exact cycles_skipWhen _ _
      | _ => rfl
  | register op =>
      cases op with
      | spa | sna | sza | sze => exact cycles_skipWhen _ _
      | _ => rfl
  | io op =>
      cases op with
      | ski | sko => exact cycles_skipWhen _ _
      | _ => rfl

end Architecture

namespace Computer

variable {c : Computer}

theorem architecture_fetched (c : Computer) :
    c.startCycle.fetched.architecture =
      { c.architecture.devicesAct with pc := c.architecture.pc + 1 } := by
  obtain ⟨inpr, fgi, input, hstart, hdevices⟩ := startCycle_spec c
  rw [hstart, hdevices]
  rfl

/-- From the boundary, so many pulses have together the effect of the instruction. -/
def Executes (c : Computer) (i : Instruction) : Prop :=
  ∃ n d, Ticks n c d ∧ d.pulse.fault = none ∧ d.pulse.computer.sc = 0 ∧
    d.pulse.computer.architecture = c.architecture.execute i

theorem execute_eq (c : Computer) (i : Instruction) :
    c.architecture.execute i =
      { c.startCycle.fetched.architecture.perform i with
        cycles := c.startCycle.fetched.architecture.cycles + 1 } := by
  rw [architecture_fetched]
  simp only [Architecture.execute, Architecture.cycles_perform]

theorem executes_memory (hs : c.s = false) (hb : c.sc = 0) (hr : c.r = false) {op : MemoryOp}
    {address : Address} {indirect : Bool}
    (hd : Instruction.decode? c.startCycle.nextWord = some (.memory op address indirect)) :
    c.Executes (.memory op address indirect) := by
  obtain ⟨ho, ha, hi⟩ := fields_of_decode?_memory hd
  obtain ⟨hticks, hf, hc⟩ := memory_cycle hs hb hr ho rfl
  have har : c.startCycle.addressed.ar =
      c.startCycle.fetched.architecture.effectiveAddress address indirect := by
    rw [← ha, ← hi]
    rfl
  refine ⟨_, _, hticks, hf, by rw [hc]; rfl, ?_⟩
  rw [hc, architecture_memoryOp, har, execute_eq]
  rfl

theorem executes_selected (hs : c.s = false) (hb : c.sc = 0) (hr : c.r = false) {i : Instruction}
    {t : Transfer} (ho : c.startCycle.nextWord.opcode = escapeOpcode)
    (hsel : c.startCycle.fetched.selectedTransfer? = some t)
    (ht : (t.apply c.startCycle.fetched).finishCycle.architecture =
      { c.startCycle.fetched.architecture.perform i with
        cycles := c.startCycle.fetched.cycles + 1 }) : c.Executes i := by
  obtain ⟨hticks, hbegun, htransfer⟩ := escape_cycle hs hb hr ho rfl
  rw [hsel] at htransfer
  obtain ⟨hc, hf⟩ := pulse_of_ends (hticks.running hs) (by rw [hbegun, htransfer])
    (selectedTransfer?_ends hsel).1
  refine ⟨3, _, hticks, hf, by rw [hc]; rfl, ?_⟩
  rw [hc, hbegun, ht, execute_eq]
  rfl

/-- Every cycle of a computer that fetches an instruction executes it. -/
theorem executes_of_decode? (hs : c.s = false) (hb : c.sc = 0) (hr : c.r = false) {i : Instruction}
    (hd : Instruction.decode? (c.memory.read c.pc) = some i) : c.Executes i := by
  rw [← nextWord_startCycle] at hd
  have hw := Instruction.encode_of_decode?_eq_some hd
  cases i with
  | memory op address indirect => exact executes_memory hs hb hr hd
  | register op =>
      have ho : c.startCycle.nextWord.opcode = escapeOpcode := by simp [← hw, Instruction.encode]
      have hi : c.startCycle.fetched.i = false := by simp [fetched, ← hw, Instruction.encode]
      exact executes_selected hs hb hr ho (selectedTransfer?_register hi hw.symm)
        (architecture_registerOp _ op)
  | io op =>
      have ho : c.startCycle.nextWord.opcode = escapeOpcode := by simp [← hw, Instruction.encode]
      have hi : c.startCycle.fetched.i = true := by simp [fetched, ← hw, Instruction.encode]
      exact executes_selected hs hb hr ho (selectedTransfer?_io hi hw.symm) (architecture_ioOp _ op)

end Computer

/-! ## What an instruction leaves alone -/

namespace Architecture

@[simp] theorem s_skipWhen (a : Architecture) (condition : Bool) :
    (a.skipWhen condition).s = a.s := by
  cases condition <;> rfl

@[simp] theorem memory_skipWhen (a : Architecture) (condition : Bool) :
    (a.skipWhen condition).memory = a.memory := by
  cases condition <;> rfl

@[simp] theorem s_devicesAct (a : Architecture) : a.devicesAct.s = a.s := by
  unfold devicesAct
  split <;> rfl

@[simp] theorem memory_devicesAct (a : Architecture) : a.devicesAct.memory = a.memory := by
  unfold devicesAct
  split <;> rfl

/-- Only the halt instruction stops the computer. -/
theorem s_perform (a : Architecture) (i : Instruction) :
    (a.perform i).s = if i = .register .hlt then true else a.s := by
  cases i with
  | memory op address indirect =>
      cases op with
      | isz => exact s_skipWhen _ _
      | _ => rfl
  | register op =>
      cases op with
      | spa | sna | sza | sze => exact s_skipWhen _ _
      | _ => rfl
  | io op =>
      cases op with
      | ski | sko => exact s_skipWhen _ _
      | _ => rfl

/-- Only three operations write to memory, and only to the cell they are about. -/
theorem read_perform (a : Architecture) {i : Instruction} {cell : Address}
    (h : (a.perform i).memory.read cell ≠ a.memory.read cell) :
    ∃ op address indirect, i = .memory op address indirect ∧ op ∈ [.sta, .bsa, .isz] ∧
      cell = a.effectiveAddress address indirect := by
  have hwrite (b : Address) (w : Word) (h : (a.memory.write b w).read cell ≠ a.memory.read cell) :
      cell = b := by
    by_contra hne
    exact h (Memory.read_write_of_ne _ (Ne.symm hne) w)
  cases i with
  | memory op address indirect =>
      refine ⟨op, address, indirect, rfl, ?_⟩
      cases op with
      | sta => exact ⟨by decide, hwrite _ _ h⟩
      | bsa => exact ⟨by decide, hwrite _ _ h⟩
      | isz =>
          simp only [perform, performMemory, memory_skipWhen] at h
          exact ⟨by decide, hwrite _ _ h⟩
      | and | add | lda | bun => exact absurd rfl h
  | register op =>
      cases op with
      | spa | sna | sza | sze => exact absurd (by rw [perform, performRegister, memory_skipWhen]) h
      | _ => exact absurd rfl h
  | io op =>
      cases op with
      | ski | sko => exact absurd (by rw [perform, performIo, memory_skipWhen]) h
      | _ => exact absurd rfl h

end Architecture

/-! ## Steps -/

namespace Machine

variable {m : Machine}

theorem architecture_step (hs : m.computer.s = false) (hb : m.computer.sc = 0)
    (hr : m.computer.r = false) {i : Instruction}
    (hd : Instruction.decode? (m.computer.memory.read m.computer.pc) = some i) :
    m.step.2 = .ok m.step.1.computer.status ∧ m.step.1.computer.sc = 0 ∧
      m.step.1.computer.architecture = m.computer.architecture.execute i := by
  obtain ⟨n, d, hticks, hf, hsc, ha⟩ := Computer.executes_of_decode? hs hb hr hd
  obtain ⟨hc, hresult⟩ := step_of_ticks hticks hsc
  rw [hf] at hresult
  rw [hc]
  exact ⟨hresult, hsc, ha⟩

/-- A step from a boundary executes the instruction that PC points at, whatever the registers of the
control unit hold, and ends at a boundary again. -/
theorem step_execute (hs : m.computer.s = false) (hb : m.computer.sc = 0) (hr : m.computer.r = false)
    {i : Instruction}
    (hd : Instruction.decode? (m.computer.memory.read m.computer.pc) = some i) :
    m.step.2 = .ok (if i = .register .hlt then .halted else .running) ∧
      m.step.1.computer.sc = 0 ∧
      m.step.1.computer.architecture = m.computer.architecture.execute i ∧
      ∀ cell, m.step.1.computer.memory.read cell ≠ m.computer.memory.read cell →
        ∃ op address indirect, i = .memory op address indirect ∧ op ∈ [.sta, .bsa, .isz] ∧
          cell = m.computer.architecture.effectiveAddress address indirect := by
  obtain ⟨hresult, hsc, ha⟩ := architecture_step hs hb hr hd
  have hstop : m.step.1.computer.s = if i = .register .hlt then true else false := by
    have h := congrArg Architecture.s ha
    simpa [Architecture.execute, Architecture.s_perform, Computer.architecture, hs] using h
  have hmemory : m.step.1.computer.memory = (m.computer.architecture.execute i).memory :=
    congrArg Architecture.memory ha
  refine ⟨?_, hsc, ha, ?_⟩
  · rw [hresult, Computer.status, hstop]
    split <;> rfl
  · intro cell hcell
    rw [hmemory] at hcell
    let fetched := { m.computer.architecture.devicesAct with pc := m.computer.architecture.pc + 1 }
    have hperform : (fetched.perform i).memory.read cell ≠ fetched.memory.read cell := by
      simpa [fetched, Architecture.execute, Computer.architecture] using hcell
    simpa [fetched, Architecture.effectiveAddress] using Architecture.read_perform fetched hperform

theorem step_execute_selfIncrement :
    (Machine.initial.load selfIncrement).step.2 = .ok .running ∧
      (Machine.initial.load selfIncrement).step.1.computer.memory.read 0 = 0x6001 ∧
      (Machine.initial.load selfIncrement).step.1.computer.pc = 1 := by
  have hread : (Machine.initial.load selfIncrement).computer.memory.read 0#12 = 0x6000#16 :=
    read_selfIncrement
  have hd : Instruction.decode? 0x6000 = some (.memory .isz 0 false) := by decide
  obtain ⟨hresult, -, ha, -⟩ := step_execute (m := Machine.initial.load selfIncrement) rfl rfl rfl
    ((congrArg Instruction.decode? hread).trans hd)
  have hmemory := congrArg (fun a => a.memory.read 0) ha
  have hpc := congrArg Architecture.pc ha
  refine ⟨hresult, hmemory.trans ?_, hpc.trans ?_⟩
  · simp [Architecture.execute, Architecture.perform, Architecture.performMemory,
      Architecture.effectiveAddress, Computer.architecture, hread]
  · have hp : (Machine.initial.load selfIncrement).computer.pc = 0 := rfl
    simp [Architecture.execute, Architecture.perform, Architecture.performMemory,
      Architecture.effectiveAddress, Architecture.skipWhen, Computer.architecture, hread, hp]

end Machine

end BasicComputer
