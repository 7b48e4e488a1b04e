import BasicComputer.Proofs.Machine.Cycle

/-! # The sequence counter

SC, the kind of cycle, the opcode and the indirect bit are stored apart from IR. In every reachable
machine they agree, so that SC never passes 6 and a cycle has a fixed number of pulses. -/

namespace BasicComputer

namespace Computer

/-- How the registers of the control unit belong together. -/
structure Timing (c : Computer) : Prop where
  tr_le : c.tr.toNat ≤ 0xFFF
  instruction_sc : c.cycle = .instruction → c.sc ≤ 6
  decoded : c.cycle = .instruction → 3 ≤ c.sc → c.opcode = c.ir.opcode ∧ c.i = c.ir.indirect
  memory_reference : c.cycle = .instruction → 4 ≤ c.sc → c.opcode ≠ escapeOpcode
  fifth : c.cycle = .instruction → c.sc = 5 → c.opcode ∈ [0#3, 1#3, 2#3, 5#3, 6#3]
  sixth : c.cycle = .instruction → c.sc = 6 → c.opcode = 6
  interrupt_sc : c.cycle = .interrupt → c.sc ≤ 2
  halted_sc : c.s = true → c.sc = 0

/-! ## Preservation -/

theorem Timing.of_boundary {c : Computer} (htr : c.tr.toNat ≤ 0xFFF) (h : c.sc = 0) : c.Timing := by
  refine ⟨htr, ?_, ?_, ?_, ?_, ?_, ?_, fun _ => h⟩ <;> intros <;> omega

theorem tr_apply (t : Transfer) (c : Computer) :
    (t.apply c).tr = c.tr ∨ (t.apply c).tr = c.pc.word := by
  cases t <;> first | exact .inl rfl | exact .inr rfl

theorem tr_apply_le (t : Transfer) {c : Computer} (h : c.tr.toNat ≤ 0xFFF) :
    (t.apply c).tr.toNat ≤ 0xFFF := by
  rcases tr_apply t c with ht | ht
  · rwa [ht]
  · have := c.pc.isLt
    rw [ht, Address.toNat_word]
    omega

theorem Timing.begun {c : Computer} (h : c.Timing) : c.begun.Timing := by
  by_cases hb : c.sc = 0
  · have htr : c.begun.tr = c.tr := by
      rw [begun_of_boundary hb]
      unfold startCycle feed
      split <;> rfl
    exact .of_boundary (htr ▸ h.tr_le) (by simp [hb])
  · rwa [begun_of_within hb]

/-- A transfer that goes on with the cycle leaves the control unit ready for the next time. -/
theorem Timing.proceed {c : Computer} {t : Transfer} (h : c.Timing) (hs : c.s = false)
    (hp : c.Proceeds t) : (t.apply c).tick.Timing := by
  have htr : (t.apply c).tick.tr.toNat ≤ 0xFFF := tr_apply_le t h.tr_le
  cases hp with
  | saveReturn hc hsc | storeReturn hc hsc =>
      refine ⟨htr, ?_, ?_, ?_, ?_, ?_, ?_, ?_⟩ <;> simp [Transfer.apply, hc, hsc, hs]
  | locate hc hsc | fetch hc hsc | decode hc hsc =>
      refine ⟨htr, ?_, ?_, ?_, ?_, ?_, ?_, ?_⟩ <;> simp [Transfer.apply, tick, hc, hsc, hs]
  | indirect hc hsc ho | direct hc hsc ho =>
      have hd := h.decoded hc (Nat.le_of_eq hsc.symm)
      refine ⟨htr, ?_, ?_, ?_, ?_, ?_, ?_, ?_⟩ <;> simp [Transfer.apply, tick, hc, hsc, hs, hd]
      exact hd.1 ▸ ho
  | operand hc hsc ho | link hc hsc ho | increment hc hsc ho =>
      obtain ⟨hop, hi⟩ := h.decoded hc (by omega)
      have hne := h.memory_reference hc (by omega)
      refine ⟨htr, ?_, ?_, ?_, ?_, ?_, ?_, ?_⟩ <;>
        simp [Transfer.apply, tick, hc, hsc, hs, ← hop, hi, hne]
      all_goals grind

theorem Timing.pulse {c : Computer} (h : c.Timing) : c.pulse.computer.Timing := by
  cases hs : c.s with
  | true => rwa [pulse_of_halted hs]
  | false =>
      rcases pulse_cases hs with ⟨-, hc⟩ | ⟨t, -, -, hc⟩ | ⟨t, ht, hp, hc⟩
      · rw [hc]
        exact .of_boundary h.begun.tr_le rfl
      · rw [hc]
        exact .of_boundary (tr_apply_le t h.begun.tr_le) rfl
      · rw [hc]
        exact h.begun.proceed (by simp [hs]) (proceeds_of_transfer? ht hp)

theorem Timing.sc_le {c : Computer} (h : c.Timing) : c.sc ≤ 6 := by
  cases hc : c.cycle with
  | instruction => exact h.instruction_sc hc
  | interrupt => exact Nat.le_trans (h.interrupt_sc hc) (by omega)

end Computer

theorem Machine.Reachable.timing {m : Machine} (h : Reachable m) : m.computer.Timing := by
  refine h.computer_induction ?_ ?_ fun c hc => hc.pulse
  · intro memory pc
    exact .of_boundary (Nat.zero_le _) rfl
  · intro c characters hc
    exact ⟨hc.tr_le, hc.instruction_sc, hc.decoded, hc.memory_reference, hc.fifth, hc.sixth,
      hc.interrupt_sc, hc.halted_sc⟩

/-! ## The length of a cycle -/

/-- The number of pulses of a memory-reference instruction. -/
def MemoryOp.pulses : MemoryOp → Nat
  | .sta | .bun => 5
  | .and | .add | .lda | .bsa => 6
  | .isz => 7

/-- The number of pulses of the cycle that begins next. -/
def Computer.cyclePulses (c : Computer) : Nat :=
  if c.r then 3
  else
    match Instruction.decode? (c.memory.read c.pc) with
    | some (.memory op _ _) => op.pulses
    | some (.register _) | some (.io _) | none => 4

namespace Computer

variable {c : Computer}

theorem opcode_ne_escape (op : MemoryOp) : op.opcode ≠ escapeOpcode := by
  cases op <;> decide

theorem fields_of_decode?_memory {w : Word} {op : MemoryOp} {address : Address} {indirect : Bool}
    (h : Instruction.decode? w = some (.memory op address indirect)) :
    w.opcode = op.opcode ∧ w.address = address ∧ w.indirect = indirect := by
  rw [← Instruction.encode_of_decode?_eq_some h]
  simp [Instruction.encode]

/-- Every opcode but 7 belongs to a memory-reference instruction. -/
theorem decode?_of_opcode_ne_escape {w : Word} (h : w.opcode ≠ escapeOpcode) :
    ∃ op : MemoryOp, op.opcode = w.opcode ∧
      Instruction.decode? w = some (.memory op w.address w.indirect) := by
  have hfind : ∃ op, MemoryOp.all.find? (·.opcode == w.opcode) = some op := by
    revert h
    generalize w.opcode = o
    revert o
    simp only [← Option.isSome_iff_exists]
    decide
  obtain ⟨op, hop⟩ := hfind
  refine ⟨op, by simpa using List.find?_some hop, ?_⟩
  simp [Instruction.decode?, h, hop]

@[simp] theorem nextWord_startCycle (c : Computer) :
    c.startCycle.nextWord = c.memory.read c.pc := by
  unfold nextWord startCycle feed
  split <;> rfl

theorem cyclePulses_of_escape (hr : c.r = false)
    (ho : (c.memory.read c.pc).opcode = escapeOpcode) : c.cyclePulses = 4 := by
  simp only [cyclePulses, hr, Bool.false_eq_true, if_false]
  split
  next op a i hd =>
    rw [(fields_of_decode?_memory hd).1] at ho
    exact (opcode_ne_escape op ho).elim
  all_goals rfl

end Computer

namespace Machine

open Computer

variable {m : Machine}

theorem stepsIn_cyclePulses (hs : m.computer.s = false) (hb : m.computer.sc = 0) :
    m.StepsIn m.computer.cyclePulses := by
  cases hr : m.computer.r with
  | true =>
      obtain ⟨hticks, -, hc⟩ := interrupt_cycle hs hb hr rfl
      have hp : m.computer.cyclePulses = 2 + 1 := by simp [cyclePulses, hr]
      rw [hp]
      exact stepsIn_of_ticks hticks (hc ▸ rfl)
  | false =>
      by_cases ho : (m.computer.memory.read m.computer.pc).opcode = escapeOpcode
      · obtain ⟨hticks, hbegun, ht⟩ := escape_cycle hs hb hr (by simpa using ho) rfl
        rw [cyclePulses_of_escape hr ho]
        refine stepsIn_of_ticks hticks ?_
        rcases pulse_cases (hticks.running hs) with ⟨-, hc⟩ | ⟨t, -, -, hc⟩ | ⟨t, hsel, hp, -⟩
        · rw [hc]
          rfl
        · rw [hc]
          rfl
        · rw [hbegun, ht] at hsel
          rw [(selectedTransfer?_ends hsel).1] at hp
          cases hp
      · obtain ⟨op, hop, hd⟩ := decode?_of_opcode_ne_escape ho
        obtain ⟨hticks, -, hc⟩ := memory_cycle hs hb hr (by simpa using hop.symm) rfl
        have hp : m.computer.cyclePulses = 4 + preparation op + 1 := by
          simp only [cyclePulses, hr, hd]
          cases op <;> rfl
        rw [hp]
        exact stepsIn_of_ticks hticks (hc ▸ rfl)

/-- The step from a boundary, once the number of its pulses is known. -/
theorem step_eq_pulse {k : Nat} (hs : m.computer.s = false) (hb : m.computer.sc = 0)
    (hk : m.computer.cyclePulses = k + 1) : m.step = (m.afterPulses k).pulse := by
  have hsteps := stepsIn_cyclePulses hs hb
  rw [hk] at hsteps
  exact hsteps.step_eq

theorem exists_stepsIn (h : m.computer.s = true → m.computer.sc = 0) : ∃ n, n ≤ 7 ∧ m.StepsIn n := by
  obtain ⟨n, d, hticks, hb⟩ := exists_ticks h
  refine ⟨n + 1, ?_, stepsIn_of_ticks hticks hb⟩
  have hsc := hticks.sc_eq
  rcases hticks.sc_le with hn | hn <;> omega

theorem fault_of_pulse_eq_error {fault : DecodeFault} (h : m.pulse.2 = .error fault) :
    m.computer.pulse.fault = some fault := by
  simp only [pulse] at h
  split at h
  next => cases h
  next heq => rw [heq, Except.error.inj h]

/-- A word is refused at time 3 of an instruction cycle only. -/
theorem time_of_refused (ht : m.computer.Timing) {fault : DecodeFault}
    (h : m.pulse.2 = .error fault) : m.computer.cycle = .instruction ∧ m.computer.sc = 3 := by
  have hf := fault_of_pulse_eq_error h
  have hs : m.computer.s = false := by
    by_contra hs
    simp [pulse_of_halted (by simpa using hs)] at hf
  cases hn : m.computer.begun.transfer? with
  | none =>
      obtain ⟨hc, hsc, ho⟩ := escape_of_transfer?_eq_none hn
      have hbegun : m.computer.begun = m.computer := begun_of_within (by simp at hsc; omega)
      rw [hbegun] at hc hsc ho
      refine ⟨hc, ?_⟩
      by_contra hne
      exact ht.memory_reference hc (by omega) ho
  | some t =>
      cases he : t.endsCycle with
      | true => simp [(pulse_of_ends hs hn he).2] at hf
      | false => simp [(pulse_of_proceeds hs hn he).2] at hf

/-- The registers of the control unit agree in every reachable machine. From time 4 on there is always
an operation to choose, so only the word at time 3 can be refused; SC stays below 7, every step ends,
and the step from a boundary is the pulse that the kind of cycle determines. -/
theorem Reachable.sequence_counter (h : Reachable m) :
    (m.computer.pc.toNat ≤ 0xFFF ∧ m.computer.ar.toNat ≤ 0xFFF ∧ m.computer.tr.toNat ≤ 0xFFF ∧
        m.computer.origin.toNat ≤ 0xFFF) ∧
      m.computer.Timing ∧ m.computer.sc ≤ 6 ∧
      (m.computer.cycle = .instruction → 4 ≤ m.computer.sc →
        MemoryOp.all[m.computer.opcode.toNat]?.isSome) ∧
      (∀ fault, m.pulse.2 = .error fault →
        m.computer.cycle = .instruction ∧ m.computer.sc = 3) ∧
      (∃ n, n ≤ 7 ∧ m.StepsIn n) ∧
      (m.computer.s = false → m.computer.sc = 0 → m.StepsIn m.computer.cyclePulses) := by
  have ht := h.timing
  have hbound (a : Address) : a.toNat ≤ 0xFFF := Nat.le_of_lt_succ a.isLt
  refine ⟨⟨hbound _, hbound _, ht.tr_le, hbound _⟩, ht, ht.sc_le, ?_, ?_, ?_, ?_⟩
  · intro hc hsc
    rw [Option.isSome_iff_ne_none]
    intro hnone
    exact ht.memory_reference hc hsc (opcode_of_all_eq_none hnone)
  · intro fault hf
    exact time_of_refused ht hf
  · exact exists_stepsIn ht.halted_sc
  · exact stepsIn_cyclePulses

/-- A program of one instruction, which increments its own cell. -/
def selfIncrement : Image := ⟨0, [⟨0, 0x6000, ⟨0, 7⟩⟩]⟩

theorem read_selfIncrement : selfIncrement.memory.read 0 = 0x6000 := by
  simp [Image.memory, selfIncrement, Word.address]

theorem sequence_counter_selfIncrement :
    (Machine.initial.load selfIncrement).computer.Timing ∧
      (Machine.initial.load selfIncrement).StepsIn 7 := by
  have h := (Reachable.initial.perform (.load selfIncrement)).sequence_counter
  have hd : Instruction.decode? 0x6000 = some (.memory .isz 0 false) := by decide
  have hp : (Machine.initial.load selfIncrement).computer.cyclePulses = 7 := by
    change (match Instruction.decode? (selfIncrement.memory.read 0) with
      | some (.memory op _ _) => op.pulses
      | some (.register _) | some (.io _) | none => 4) = 7
    rw [read_selfIncrement, hd]
    rfl
  exact ⟨h.2.1, hp ▸ h.2.2.2.2.2.2 rfl rfl⟩

end Machine

end BasicComputer
