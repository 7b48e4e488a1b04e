import BasicComputer.Proofs.Machine.Pulse
import BasicComputer.Proofs.Machine.Reachable

/-! # Cycles

How pulses make up a cycle. A machine's step is the last of the pulses that lead to the next boundary,
and the pulses before it leave the cycle under way. -/

namespace BasicComputer

namespace Computer

/-! ## Pulses within a cycle -/

/-- `n` pulses lead from the first computer to the second, and the cycle goes on after each. -/
inductive Ticks : Nat → Computer → Computer → Prop
  | none (c : Computer) : Ticks 0 c c
  | more {n : Nat} {c d : Computer} {t : Transfer} (h : Ticks n c d) (hs : d.s = false)
      (ht : d.begun.transfer? = some t) (hp : t.endsCycle = false) :
      Ticks (n + 1) c (t.apply d.begun).tick

@[simp] theorem s_apply_of_proceeds {t : Transfer} (h : t.endsCycle = false) (c : Computer) :
    (t.apply c).s = c.s := by
  cases t <;> first | rfl | cases h

variable {n : Nat} {c d : Computer}

theorem Ticks.sc_eq (h : Ticks n c d) : d.sc = c.sc + n := by
  induction h with
  | none c => rfl
  | more h hs ht hp ih =>
      simp only [sc_tick, Transfer.sc_apply, sc_begun, ih]
      omega

theorem Ticks.sc_le (h : Ticks n c d) : n = 0 ∨ d.sc ≤ 6 := by
  cases h with
  | none => exact .inl rfl
  | more h hs ht hp =>
      have := sc_le_of_transfer? ht hp
      simp only [sc_begun] at this
      simp only [sc_tick, Transfer.sc_apply, sc_begun]
      omega

theorem Ticks.trans {m n : Nat} {c d e : Computer} (h : Ticks m c d) (h' : Ticks n d e) :
    Ticks (m + n) c e := by
  induction h' with
  | none => exact h
  | more h' hs ht hp ih => exact (ih h).more hs ht hp

/-- Every cycle comes to its end, at the latest with the pulse at time 6. -/
theorem exists_ticks {c : Computer} (h : c.s = true → c.sc = 0) :
    ∃ n d, Ticks n c d ∧ d.pulse.computer.sc = 0 := by
  cases hs : c.s with
  | true => exact ⟨0, c, .none c, by rw [pulse_of_halted hs, h hs]⟩
  | false =>
      rcases pulse_cases hs with ⟨-, hc⟩ | ⟨t, -, -, hc⟩ | ⟨t, ht, hp, hc⟩
      · exact ⟨0, c, .none c, by rw [hc]; rfl⟩
      · exact ⟨0, c, .none c, by rw [hc]; rfl⟩
      · have hsc : c.sc ≤ 5 := by simpa using sc_le_of_transfer? ht hp
        have htick : Ticks 1 c (t.apply c.begun).tick := (Ticks.none c).more hs ht hp
        obtain ⟨n, d, hd, hb⟩ := @exists_ticks (t.apply c.begun).tick (by simp [hp, hs])
        exact ⟨1 + n, d, htick.trans hd, hb⟩
termination_by 6 - c.sc

theorem Ticks.running (h : Ticks n c d) (hs : c.s = false) : d.s = false := by
  cases h with
  | none => exact hs
  | more h hs ht hp => simp [hp, hs]

/-! ## Completed cycles -/

@[simp] theorem cycles_apply (t : Transfer) (c : Computer) : (t.apply c).cycles = c.cycles := by
  cases t <;> rfl

@[simp] theorem cycles_tick (c : Computer) : c.tick.cycles = c.cycles := rfl

@[simp] theorem cycles_begun (c : Computer) : c.begun.cycles = c.cycles := by
  unfold begun startCycle feed
  split
  · split <;> rfl
  · rfl

theorem Ticks.cycles_eq (h : Ticks n c d) : d.cycles = c.cycles := by
  induction h with
  | none c => rfl
  | more h hs ht hp ih => simp [ih]

/-- The pulse that reaches a boundary completes its cycle or refuses a word. -/
theorem pulse_of_boundary (hs : c.s = false) (hb : c.pulse.computer.sc = 0) :
    (c.pulse.fault = none ∧ c.pulse.computer.cycles = c.cycles + 1) ∨
      ∃ fault, c.pulse.fault = some fault ∧ c.pulse.computer.s = true ∧
        c.pulse.computer.cycles = c.cycles := by
  rcases pulse_cases hs with ⟨ht, -⟩ | ⟨t, ht, hp, -⟩ | ⟨t, -, -, hc⟩
  · obtain ⟨hc, hf⟩ := pulse_of_refused hs ht
    exact .inr ⟨_, hf, by rw [hc]; rfl, by rw [hc]; exact cycles_begun c⟩
  · obtain ⟨hc, hf⟩ := pulse_of_ends hs ht hp
    exact .inl ⟨hf, by rw [hc]; simp [finishCycle]⟩
  · simp [hc] at hb

end Computer

namespace Machine

/-! ## Steps as pulses -/

/-- The machine after so many pulses. -/
def afterPulses (m : Machine) (n : Nat) : Machine := (fun m => m.pulse.1)^[n] m

theorem afterPulses_succ (m : Machine) (n : Nat) :
    m.afterPulses (n + 1) = (m.afterPulses n).pulse.1 :=
  Function.iterate_succ_apply' _ n m

/-- The step of a machine is its `n`th pulse from now, the first that reaches a boundary. -/
structure StepsIn (m : Machine) (n : Nat) : Prop where
  pos : 0 < n
  within : ∀ k, 0 < k → k < n → (m.afterPulses k).computer.sc ≠ 0
  boundary : (m.afterPulses n).computer.sc = 0
  step_eq : m.step = (m.afterPulses (n - 1)).pulse

theorem StepsIn.machine_eq {m : Machine} {n : Nat} (h : m.StepsIn n) :
    m.step.1 = m.afterPulses n := by
  obtain ⟨k, rfl⟩ := Nat.exists_eq_add_of_le' h.pos
  rw [h.step_eq, afterPulses_succ, Nat.add_sub_cancel]

theorem report_of_proceeds {m : Machine} {t : Transfer} (hs : m.computer.s = false)
    (ht : m.computer.begun.transfer? = some t) (hp : t.endsCycle = false) :
    m.pulse.1.computer.sc ≠ 0 ∧ m.pulse.2 = .ok .running := by
  obtain ⟨hc, hf⟩ := Computer.pulse_of_proceeds hs ht hp
  have hstatus : m.computer.pulse.computer.status = .running := by
    rw [hc]
    simp [Computer.status, hp, hs]
  refine ⟨?_, ?_⟩
  · rw [computer_pulse, hc]
    simp
  · simp [pulse, hf, hstatus]

/-- While the cycle goes on, a step is the step after the next pulse. -/
theorem step_of_proceeds {m : Machine} {t : Transfer} (hs : m.computer.s = false)
    (ht : m.computer.begun.transfer? = some t) (hp : t.endsCycle = false) :
    m.step = m.pulse.1.step := by
  obtain ⟨hsc, hr⟩ := report_of_proceeds hs ht hp
  rw [step]
  split
  next next heq =>
    rw [heq] at hsc
    simp [Computer.atBoundary, hsc, heq]
  next next result hne heq =>
    rw [heq] at hr
    exact (hne hr).elim

theorem step_of_boundary {m : Machine} (h : m.pulse.1.computer.sc = 0) : m.step = m.pulse := by
  rw [step]
  split
  next next heq =>
    rw [heq] at h
    have hb : next.computer.sc = 0 := h
    simp [Computer.atBoundary, hb, heq]
  next next result hne heq => exact heq.symm

theorem afterPulses_of_ticks {m : Machine} {n : Nat} {d : Computer}
    (h : Computer.Ticks n m.computer d) :
    (m.afterPulses n).computer = d ∧ m.step = (m.afterPulses n).step ∧
      ∀ k, 0 < k → k ≤ n → (m.afterPulses k).computer.sc ≠ 0 := by
  generalize hc : m.computer = c at h
  induction h with
  | none c => exact ⟨hc, rfl, fun k hk hn => absurd hk (by omega)⟩
  | @more n c d t h hs ht hp ih =>
      obtain ⟨hd, hstep, hwithin⟩ := ih hc
      have hnext : (m.afterPulses (n + 1)).computer = (t.apply d.begun).tick := by
        rw [afterPulses_succ, computer_pulse, hd]
        exact (Computer.pulse_of_proceeds hs ht hp).1
      refine ⟨hnext, ?_, ?_⟩
      · rw [hstep, afterPulses_succ]
        exact step_of_proceeds (hd ▸ hs) (hd ▸ ht) hp
      · intro k hk hn
        rcases Nat.le_succ_iff.mp hn with hn | rfl
        · exact hwithin k hk hn
        · simp [hnext]

/-- Pulses that leave the cycle under way and one more that reaches the boundary make a step. -/
theorem stepsIn_of_ticks {m : Machine} {n : Nat} {d : Computer}
    (h : Computer.Ticks n m.computer d) (hb : d.pulse.computer.sc = 0) : m.StepsIn (n + 1) := by
  obtain ⟨hd, hstep, hwithin⟩ := afterPulses_of_ticks h
  have hboundary : (m.afterPulses n).pulse.1.computer.sc = 0 := by
    rw [computer_pulse, hd]
    exact hb
  refine ⟨by omega, fun k hk hn => hwithin k hk (by omega), ?_, ?_⟩
  · rw [afterPulses_succ]
    exact hboundary
  · rw [hstep]
    exact step_of_boundary hboundary

theorem step_of_ticks {m : Machine} {n : Nat} {d : Computer}
    (h : Computer.Ticks n m.computer d) (hb : d.pulse.computer.sc = 0) :
    m.step.1.computer = d.pulse.computer ∧
      m.step.2 = (match d.pulse.fault with
        | none => .ok d.pulse.computer.status
        | some fault => .error fault) := by
  obtain ⟨hd, -, -⟩ := afterPulses_of_ticks h
  rw [(stepsIn_of_ticks h hb).step_eq, Nat.add_sub_cancel]
  subst hd
  exact ⟨rfl, rfl⟩

/-- A machine that has halted stays as it is. -/
theorem pulse_eq_of_halted {m : Machine} (hs : m.computer.s = true) : m.pulse = (m, .ok .halted) := by
  obtain ⟨computer, journal, tracing, breakpoints, pausedAt⟩ := m
  cases tracing <;>
    simp_all [pulse, Computer.pulse_of_halted, Computer.fetches, Computer.status, Event.noted,
      Journal.append]

theorem step_of_halted {m : Machine} (hs : m.computer.s = true) : m.step = (m, .ok .halted) := by
  have hp := pulse_eq_of_halted hs
  rw [step]
  split
  next next heq =>
    rw [hp] at heq
    cases heq
  next next result hne heq => rw [← heq, hp]

/-- The step of a running machine completes a cycle or refuses a word. -/
theorem step_cases {m : Machine} (hs : m.computer.s = false) :
    (m.step.2 = .ok m.step.1.computer.status ∧
        m.step.1.computer.cycles = m.computer.cycles + 1) ∨
      ∃ fault, m.step.2 = .error fault ∧ m.step.1.computer.s = true ∧
        m.step.1.computer.cycles = m.computer.cycles := by
  obtain ⟨n, d, hticks, hb⟩ := Computer.exists_ticks (c := m.computer) (by simp [hs])
  obtain ⟨hc, hresult⟩ := step_of_ticks hticks hb
  rw [hc, hresult, ← hticks.cycles_eq]
  rcases Computer.pulse_of_boundary (hticks.running hs) hb with ⟨hf, hcycles⟩ | ⟨fault, hf, hstop⟩
  · exact .inl ⟨by rw [hf], hcycles⟩
  · exact .inr ⟨fault, by rw [hf], hstop⟩

end Machine

/-! ## The beginning of an instruction cycle -/

namespace Computer

/-- The word that the next instruction cycle fetches. -/
def nextWord (c : Computer) : Word := c.memory.read c.pc

/-- The cell that a memory-reference instruction is about. -/
def effectiveAddress (c : Computer) : Address :=
  if c.nextWord.indirect then (c.memory.read c.nextWord.address).address else c.nextWord.address

/-- The computer at time 3, with the instruction fetched and decoded. -/
def fetched (c : Computer) : Computer :=
  { c with
    ar := c.nextWord.address
    origin := c.pc
    ir := c.nextWord
    pc := c.pc + 1
    opcode := c.nextWord.opcode
    i := c.nextWord.indirect
    sc := 3 }

/-- The computer at time 4, with the effective address in AR. -/
def addressed (c : Computer) : Computer := { c.fetched with ar := c.effectiveAddress, sc := 4 }

theorem Ticks.proceed {n : Nat} {c d : Computer} (h : Ticks n c d) (t : Transfer) (hs : d.s = false)
    (hsc : d.sc ≠ 0) (ht : d.transfer? = some t) (hp : t.endsCycle = false) :
    Ticks (n + 1) c (t.apply d).tick := by
  have h' := h.more hs (t := t) (by rwa [begun_of_within hsc]) hp
  rwa [begun_of_within hsc] at h'

variable {c : Computer}

theorem ticks_fetched (hs : c.s = false) (hb : c.sc = 0) (hr : c.r = false) :
    Ticks 3 c c.startCycle.fetched := by
  have hcycle : c.startCycle.cycle = .instruction := by simp [startCycle, hr]
  have hrun : c.startCycle.s = false := by simp [startCycle, hs]
  have hb' : c.startCycle.sc = 0 := by simp [hb]
  have h1 := (Ticks.none c).more hs (t := .arFromPc)
    (by simp [begun_of_boundary hb, transfer?, hcycle, hb]) rfl
  rw [begun_of_boundary hb] at h1
  have h2 := h1.proceed .fetch hrun (by simp) (by simp [transfer?, Transfer.apply, tick, hcycle, hb]) rfl
  have h3 := h2.proceed .decode hrun (by simp) (by simp [transfer?, Transfer.apply, tick, hcycle, hb]) rfl
  simpa [Transfer.apply, hb, fetched, nextWord, tick] using h3

theorem ticks_addressed (hs : c.s = false) (hb : c.sc = 0) (hr : c.r = false)
    (ho : c.startCycle.nextWord.opcode ≠ escapeOpcode) : Ticks 4 c c.startCycle.addressed := by
  have hcycle : c.startCycle.cycle = .instruction := by simp [startCycle, hr]
  have hrun : c.startCycle.s = false := by simp [startCycle, hs]
  have h3 := ticks_fetched hs hb hr
  have ht := transfer?_of_address (c := c.startCycle.fetched) hcycle rfl ho
  cases hi : c.startCycle.nextWord.indirect with
  | true =>
      have h4 := h3.proceed .arFromMemory hrun (by simp [fetched]) (by simpa [fetched, hi] using ht) rfl
      simpa [Transfer.apply, tick, fetched, addressed, effectiveAddress, hi] using h4
  | false =>
      have h4 := h3.proceed .idle hrun (by simp [fetched]) (by simpa [fetched, hi] using ht) rfl
      simpa [Transfer.apply, tick, fetched, addressed, effectiveAddress, hi] using h4

/-! ## The execution of memory-reference instructions -/

/-- The computer before the last pulse of a memory-reference instruction, from time 4 on. -/
def prepared (c : Computer) : MemoryOp → Computer
  | .and | .add | .lda => (Transfer.drFromMemory.apply c).tick
  | .sta | .bun => c
  | .bsa => (Transfer.memoryFromPc.apply c).tick
  | .isz => (Transfer.incrementDr.apply (Transfer.drFromMemory.apply c).tick).tick

/-- How many pulses the preparation takes. -/
def preparation : MemoryOp → Nat
  | .sta | .bun => 0
  | .and | .add | .lda | .bsa => 1
  | .isz => 2

theorem all_opcode (op : MemoryOp) : MemoryOp.all[op.opcode.toNat]? = some op := by
  cases op <;> rfl

theorem transfer?_of_memoryOp {op : MemoryOp} (hc : c.cycle = .instruction) (h : 4 ≤ c.sc)
    (ho : c.opcode = op.opcode) : c.transfer? = some (op.transfer c) := by
  rw [transfer?_of_execute hc h, ho, all_opcode]
  rfl

theorem Ticks.prepared {n : Nat} {c d : Computer} {op : MemoryOp} (h : Ticks n c d)
    (hs : d.s = false) (hc : d.cycle = .instruction) (hsc : d.sc = 4) (ho : d.opcode = op.opcode) :
    Ticks (n + preparation op) c (d.prepared op) := by
  have h4 (t : Transfer) (ht : op.transfer d = t) (hp : t.endsCycle = false) :
      Ticks (n + 1) c (t.apply d).tick := by
    refine h.proceed t hs (by omega) ?_ hp
    rw [transfer?_of_memoryOp hc (Nat.le_of_eq hsc.symm) ho, ht]
  cases op with
  | and => exact h4 .drFromMemory (by simp [MemoryOp.transfer, hsc]) rfl
  | add => exact h4 .drFromMemory (by simp [MemoryOp.transfer, hsc]) rfl
  | lda => exact h4 .drFromMemory (by simp [MemoryOp.transfer, hsc]) rfl
  | sta => exact h
  | bun => exact h
  | bsa => exact h4 .memoryFromPc (by simp [MemoryOp.transfer, hsc]) rfl
  | isz =>
      refine (h4 .drFromMemory (by simp [MemoryOp.transfer, hsc]) rfl).proceed .incrementDr hs
        (by simp) ?_ rfl
      have ht := @transfer?_of_memoryOp (Transfer.drFromMemory.apply d).tick .isz hc (by simp [hsc]) ho
      simpa [MemoryOp.transfer, hsc] using ht

theorem sc_prepared (op : MemoryOp) (h : c.sc = 4) : 4 ≤ (c.prepared op).sc := by
  cases op <;> simp [prepared, h]

/-- The last transfer of a memory-reference instruction, from time 4 on. -/
def lastTransfer (c : Computer) : MemoryOp → Transfer
  | .and => .acAndDr
  | .add => .acAddDr
  | .lda => .acFromDr
  | .sta => .memoryFromAc
  | .bun | .bsa => .pcFromAr
  | .isz => if c.memory.read c.ar + 1 = 0 then .memoryFromDrSkip else .memoryFromDr

theorem endsCycle_lastTransfer (op : MemoryOp) : (c.lastTransfer op).endsCycle = true := by
  cases op with
  | isz =>
      simp only [lastTransfer]
      split <;> rfl
  | _ => rfl

theorem transfer_prepared (op : MemoryOp) (hsc : c.sc = 4) :
    op.transfer (c.prepared op) = c.lastTransfer op := by
  cases op <;> simp [MemoryOp.transfer, prepared, lastTransfer, hsc, Transfer.apply, tick]

theorem transfer?_prepared {op : MemoryOp} (hc : c.cycle = .instruction) (hsc : c.sc = 4)
    (ho : c.opcode = op.opcode) : (c.prepared op).transfer? = some (c.lastTransfer op) := by
  rw [← transfer_prepared op hsc]
  apply transfer?_of_memoryOp
  · cases op <;> exact hc
  · exact sc_prepared op hsc
  · cases op <;> exact ho

/-! ## The last pulse of each cycle -/

/-- The cycle of a memory-reference instruction, up to and including its last pulse. -/
theorem memory_cycle (hs : c.s = false) (hb : c.sc = 0) (hr : c.r = false) {op : MemoryOp}
    (ho : c.startCycle.nextWord.opcode = op.opcode) {d : Computer}
    (hd : d = c.startCycle.addressed.prepared op) :
    Ticks (4 + preparation op) c d ∧ d.pulse.fault = none ∧
      d.pulse.computer = ((c.startCycle.addressed.lastTransfer op).apply d).finishCycle := by
  have hcycle : c.startCycle.addressed.cycle = .instruction := by
    simp [addressed, fetched, startCycle, hr]
  have hrun : c.startCycle.addressed.s = false := by simp [addressed, fetched, startCycle, hs]
  have hne : c.startCycle.nextWord.opcode ≠ escapeOpcode := by
    rw [ho]
    cases op <;> decide
  have hticks := (ticks_addressed hs hb hr hne).prepared hrun hcycle rfl ho
  have hsc := sc_prepared op (c := c.startCycle.addressed) rfl
  have ht := transfer?_prepared (c := c.startCycle.addressed) hcycle rfl ho
  rw [← hd] at hticks hsc ht
  have hbegun : d.begun = d := begun_of_within (by omega)
  rw [← hbegun] at ht
  obtain ⟨hc, hf⟩ := pulse_of_ends (hticks.running hs) ht (endsCycle_lastTransfer op)
  rw [hbegun] at hc
  exact ⟨hticks, hf, hc⟩

/-- The cycle of an instruction with opcode 7 has four pulses, the last of which may refuse it. -/
theorem escape_cycle (hs : c.s = false) (hb : c.sc = 0) (hr : c.r = false)
    (ho : c.startCycle.nextWord.opcode = escapeOpcode) {d : Computer}
    (hd : d = c.startCycle.fetched) :
    Ticks 3 c d ∧ d.begun = d ∧ d.transfer? = d.selectedTransfer? := by
  subst hd
  have hcycle : c.startCycle.fetched.cycle = .instruction := by simp [fetched, startCycle, hr]
  exact ⟨ticks_fetched hs hb hr, begun_of_within (by simp [fetched]),
    transfer?_of_escape hcycle rfl ho⟩

/-- The computer before the last pulse of an interrupt cycle. -/
def interrupted (c : Computer) : Computer :=
  (Transfer.memoryFromTr.apply (Transfer.trFromPc.apply c).tick).tick

/-- An interrupt cycle, up to and including its last pulse. -/
theorem interrupt_cycle (hs : c.s = false) (hb : c.sc = 0) (hr : c.r = true) {d : Computer}
    (hd : d = c.startCycle.interrupted) :
    Ticks 2 c d ∧ d.pulse.fault = none ∧
      d.pulse.computer = (Transfer.enterService.apply d).finishCycle := by
  have hcycle : c.startCycle.cycle = .interrupt := by simp [startCycle, hr]
  have hrun : c.startCycle.s = false := by simp [startCycle, hs]
  have h1 := (Ticks.none c).more hs (t := .trFromPc)
    (by simp [begun_of_boundary hb, transfer?, hcycle, hb]) rfl
  rw [begun_of_boundary hb] at h1
  have h2 := h1.proceed .memoryFromTr hrun (by simp)
    (by simp [transfer?, Transfer.apply, tick, hcycle, hb]) rfl
  have hsc : c.startCycle.interrupted.sc = 2 := by simp [interrupted, hb]
  have hbegun : c.startCycle.interrupted.begun = c.startCycle.interrupted :=
    begun_of_within (by omega)
  have ht := transfer?_of_service (c := c.startCycle.interrupted) hcycle (Nat.le_of_eq hsc.symm)
  rw [← hbegun] at ht
  obtain ⟨hc, hf⟩ := pulse_of_ends (c := c.startCycle.interrupted) hrun ht rfl
  rw [hbegun] at hc
  subst hd
  exact ⟨h2, hf, hc⟩

end Computer

end BasicComputer
