import BasicComputer.Proofs.Machine.InstructionCycle

/-! # Interrupts

R is set and cleared in other pulses than those that read it. At every boundary it tells nevertheless
whether an interrupt is due, and the interrupt cycle it leads to loses nothing of the program. -/

namespace BasicComputer

namespace Computer

/-- What R means in each part of a cycle. -/
structure PreciseInterrupts (c : Computer) : Prop where
  boundary : c.s = false → c.sc = 0 →
    (c.r = true ↔ c.ien = true ∧ (c.fgi = true ∨ c.fgo = true))
  halted : c.s = true → c.r = false
  instruction : c.sc ≠ 0 → c.cycle = .instruction → c.r = false
  interrupt : c.sc ≠ 0 → c.cycle = .interrupt → c.r = true ∧ c.ien = true

/-! ## Preservation -/

theorem r_apply {t : Transfer} (h : t ≠ .enterService) (c : Computer) : (t.apply c).r = c.r := by
  cases t <;> first | rfl | exact absurd rfl h

theorem cycle_apply (t : Transfer) (c : Computer) : (t.apply c).cycle = c.cycle := by
  cases t <;> rfl

theorem ien_apply_of_proceeds {t : Transfer} (h : t.endsCycle = false) (c : Computer) :
    (t.apply c).ien = c.ien := by
  cases t <;> first | rfl | cases h

variable {c : Computer}

/-- Once the devices have acted, the kind of cycle tells what R is. -/
theorem PreciseInterrupts.begun (h : c.PreciseInterrupts) (hs : c.s = false) :
    (c.begun.cycle = .instruction → c.begun.r = false) ∧
      (c.begun.cycle = .interrupt → c.begun.r = true ∧ c.begun.ien = true) := by
  by_cases hb : c.sc = 0
  · obtain ⟨inpr, fgi, input, hstart, -⟩ := startCycle_spec c
    rw [begun_of_boundary hb, hstart]
    have hien (hr : c.r = true) : c.ien = true := ((h.boundary hs hb).mp hr).1
    cases hr : c.r with
    | true => simp [hien hr]
    | false => simp
  · rw [begun_of_within hb]
    exact ⟨h.instruction hb, h.interrupt hb⟩

theorem PreciseInterrupts.of_halted (hs : c.s = true) (hsc : c.sc = 0) (hr : c.r = false) :
    c.PreciseInterrupts := by
  refine ⟨?_, fun _ => hr, ?_, ?_⟩
  · intro hrun
    rw [hs] at hrun
    cases hrun
  all_goals exact fun hne => absurd hsc hne

/-- The end of a cycle asks for an interrupt exactly if one is due. -/
theorem PreciseInterrupts.of_finishCycle (hr : c.r = false) : c.finishCycle.PreciseInterrupts := by
  cases hs : c.s with
  | true => exact .of_halted hs rfl (by simp [finishCycle, hr, hs])
  | false =>
      refine ⟨?_, ?_, fun hne => absurd rfl hne, fun hne => absurd rfl hne⟩
      · intro _ _
        simp [finishCycle, interruptDue, hr, hs]
      · intro hstop
        exact absurd (hs.symm.trans hstop) Bool.false_ne_true

theorem PreciseInterrupts.proceed {t : Transfer} (hs : c.s = false) (hp : t.endsCycle = false)
    (hin : c.cycle = .instruction → c.r = false)
    (hit : c.cycle = .interrupt → c.r = true ∧ c.ien = true) : (t.apply c).tick.PreciseInterrupts := by
  have hne : t ≠ .enterService := by
    rintro rfl
    cases hp
  have hr := r_apply hne c
  have hien := ien_apply_of_proceeds hp c
  have hcycle := cycle_apply t c
  have hrun : (t.apply c).tick.s = false := by simp [hp, hs]
  refine ⟨?_, ?_, ?_, ?_⟩
  · intro _ hb
    simp at hb
  · intro hstop
    exact absurd (hrun.symm.trans hstop) Bool.false_ne_true
  · intro _ hc
    exact hr.trans (hin (hcycle.symm.trans hc))
  · intro _ hc
    obtain ⟨hr', hien'⟩ := hit (hcycle.symm.trans hc)
    exact ⟨hr.trans hr', hien.trans hien'⟩

theorem PreciseInterrupts.pulse (h : c.PreciseInterrupts) : c.pulse.computer.PreciseInterrupts := by
  cases hs : c.s with
  | true => rwa [pulse_of_halted hs]
  | false =>
      obtain ⟨hin, hit⟩ := h.begun hs
      rcases pulse_cases hs with ⟨hnone, hc⟩ | ⟨t, ht, hp, hc⟩ | ⟨t, ht, hp, hc⟩
      · rw [hc]
        exact .of_halted rfl rfl (hin (escape_of_transfer?_eq_none hnone).1)
      · rw [hc]
        refine .of_finishCycle ?_
        cases ends_of_transfer? ht hp with
        | service => rfl
        | execute hcycle _ hne => exact (r_apply hne _).trans (hin hcycle)
      · rw [hc]
        exact .proceed (by simp [hs]) hp hin hit

end Computer

theorem Machine.Reachable.preciseInterrupts {m : Machine} (h : Reachable m) :
    m.computer.PreciseInterrupts := by
  refine h.computer_induction ?_ ?_ fun c hc => hc.pulse
  · intro memory pc
    refine ⟨?_, ?_, ?_, ?_⟩ <;> simp [Computer.initial]
  · intro c characters hc
    exact ⟨hc.boundary, hc.halted, hc.instruction, hc.interrupt⟩

/-! ## The interrupt cycle -/

/-- An interrupt cycle between two boundaries: what the instruction table says of it, and the registers
that the table does not speak of. -/
structure Computer.ServiceSpec (c d : Computer) : Prop where
  architecture_eq : d.architecture = c.architecture.interrupt
  return_address : d.memory.read 0 = c.pc.word
  read_eq : ∀ cell, cell ≠ 0 → d.memory.read cell = c.memory.read cell
  tr_eq : d.tr = c.pc.word
  ar_eq : d.ar = 0
  r_eq : d.r = false
  sc_eq : d.sc = 0
  dr_eq : d.dr = c.dr
  ir_eq : d.ir = c.ir
  i_eq : d.i = c.i

namespace Machine

variable {m : Machine}

theorem step_interrupt (hs : m.computer.s = false) (hb : m.computer.sc = 0)
    (hr : m.computer.r = true) :
    m.step.2 = .ok .running ∧ m.computer.ServiceSpec m.step.1.computer := by
  obtain ⟨hticks, hf, hd⟩ := Computer.interrupt_cycle hs hb hr rfl
  obtain ⟨hc, hresult⟩ := step_of_ticks hticks (by rw [hd]; rfl)
  obtain ⟨inpr, fgi, input, hstart, hdevices⟩ := Computer.startCycle_spec m.computer
  have hmemory : m.step.1.computer.memory = m.computer.memory.write 0 m.computer.pc.word := by
    rw [hc, hd, hstart]
    rfl
  have hstatus : m.step.1.computer.s = false := by
    rw [hc, hd, hstart]
    exact hs
  refine ⟨?_, ?_⟩
  · rw [hresult, hf, ← hc]
    simp [Computer.status, hstatus]
  · constructor
    case return_address => rw [hmemory, Memory.read_write_self]
    case read_eq =>
      intro cell hne
      rw [hmemory, Memory.read_write_of_ne _ hne.symm]
    case architecture_eq =>
      rw [hc, hd, hstart, Architecture.interrupt, hdevices]
      rfl
    case r_eq =>
      rw [hc, hd, hstart]
      simp [Computer.interrupted, Computer.finishCycle, Computer.interruptDue, Transfer.apply]
    all_goals
      rw [hc, hd, hstart]
      rfl

/-- R is what it means in every reachable machine, and a machine about to serve an interrupt serves it
with its next step. -/
theorem Reachable.precise_interrupts (h : Reachable m) :
    m.computer.PreciseInterrupts ∧
      (m.computer.sc = 0 → m.computer.r = true →
        m.step.2 = .ok .running ∧ m.StepsIn 3 ∧ m.computer.ServiceSpec m.step.1.computer) := by
  have hp := h.preciseInterrupts
  refine ⟨hp, fun hb hr => ?_⟩
  have hs : m.computer.s = false := by
    cases hs : m.computer.s with
    | false => rfl
    | true =>
        have hclear := hp.halted hs
        rw [hr] at hclear
        cases hclear
  obtain ⟨hresult, hspec⟩ := step_interrupt hs hb hr
  have hlength := stepsIn_cyclePulses hs hb
  rw [Computer.cyclePulses, if_pos hr] at hlength
  exact ⟨hresult, hlength, hspec⟩

/-- A program of one instruction, which enables interrupts. -/
def enableInterrupts : Image := ⟨0, [⟨0, 0xF080, ⟨0, 3⟩⟩]⟩

theorem precise_interrupts_enableInterrupts :
    let m := (Machine.initial.load enableInterrupts).step.1
    m.computer.r = true ∧ m.step.1.computer.memory.read 0 = 1 ∧ m.step.1.computer.pc = 1 ∧
      m.step.1.computer.ien = false := by
  intro m
  have h : Reachable m := (Reachable.initial.perform (.load enableInterrupts)).perform .step
  have hread : (Machine.initial.load enableInterrupts).computer.memory.read 0 = 0xF080 := by
    change enableInterrupts.memory.read 0 = 0xF080
    simp [Image.memory, enableInterrupts, Word.address]
  have hd : Instruction.decode? 0xF080 = some (.io .ion) := by decide
  obtain ⟨-, hb, ha⟩ := architecture_step (m := Machine.initial.load enableInterrupts) rfl rfl rfl
    ((congrArg Instruction.decode? hread).trans hd)
  obtain ⟨hprecise, hserve⟩ := h.precise_interrupts
  have hpc : m.computer.pc = 1 := congrArg Architecture.pc ha
  have hr : m.computer.r = true :=
    (hprecise.boundary (congrArg Architecture.s ha) hb).mpr
      ⟨congrArg Architecture.ien ha, .inr (congrArg Architecture.fgo ha)⟩
  obtain ⟨-, -, hspec⟩ := hserve hb hr
  refine ⟨hr, ?_, congrArg Architecture.pc hspec.architecture_eq,
    congrArg Architecture.ien hspec.architecture_eq⟩
  rw [hspec.return_address, hpc]
  rfl

end Machine

end BasicComputer
