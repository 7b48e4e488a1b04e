import BasicComputer.Proofs.Machine.Granularity
import BasicComputer.Proofs.Machine.Interrupt

/-! # Returning from service

A service routine returns by a branch to the address in cell 0. If it enables interrupts just before, the
end of that cycle asks for an interrupt already: the next cycle overwrites cell 0, and the routine is entered
again instead of left. -/

namespace BasicComputer

/-- A service routine at an instruction boundary, with interrupts disabled. -/
structure Computer.Serving (c : Computer) : Prop where
  running : c.s = false
  boundary : c.sc = 0
  ien_eq : c.ien = false
  r_eq : c.r = false

/-- The routine is about to enable interrupts and return through cell 0. -/
structure Computer.EndsService (c : Computer) : Prop extends c.Serving where
  enables : c.memory.read c.pc = 0xF080
  returns : c.memory.read (c.pc + 1) = 0xC000

namespace Machine

variable {m : Machine}

theorem decode?_enable : Instruction.decode? 0xF080 = some (.io .ion) := by decide

theorem decode?_return : Instruction.decode? 0xC000 = some (.memory .bun 0 true) := by decide

/-! ## The next steps -/

/-- An instruction that does not halt takes a boundary to a boundary. -/
theorem step_of_serving (hm : m.computer.Serving) {i : Instruction} (hi : i ≠ .register .hlt)
    (hd : Instruction.decode? (m.computer.memory.read m.computer.pc) = some i) :
    m.step.2 = .ok .running ∧ m.step.1.computer.s = false ∧ m.step.1.computer.sc = 0 ∧
      m.step.1.computer.architecture = m.computer.architecture.execute i := by
  obtain ⟨hresult, hb, ha⟩ := architecture_step hm.running hm.boundary hm.r_eq hd
  have hrun : m.step.1.computer.s = false := by
    have hs : m.computer.architecture.s = false := hm.running
    have hs' := congrArg Architecture.s ha
    rwa [Architecture.execute, Architecture.s_perform, if_neg hi, Architecture.s_devicesAct,
      hs] at hs'
  refine ⟨?_, hrun, hb, ha⟩
  rw [hresult, Computer.status, hrun]
  rfl

/-- With interrupts disabled, the branch through cell 0 goes where cell 0 says. -/
theorem step_return (hm : m.computer.Serving)
    (hreturn : m.computer.memory.read m.computer.pc = 0xC000) :
    m.step.2 = .ok .running ∧ m.step.1.computer.memory = m.computer.memory ∧
      m.step.1.computer.pc = (m.computer.memory.read 0).address := by
  obtain ⟨hresult, -, -, ha⟩ := step_of_serving hm (i := .memory .bun 0 true) (by decide)
    (by rw [hreturn, decode?_return])
  have hmemory : m.computer.architecture.devicesAct.memory = m.computer.memory :=
    Architecture.memory_devicesAct _
  have hpc := congrArg Architecture.pc ha
  change m.step.1.computer.pc = (m.computer.architecture.devicesAct.memory.read 0).address at hpc
  rw [hmemory] at hpc
  exact ⟨hresult, (congrArg Architecture.memory ha).trans hmemory, hpc⟩

/-- The printer is ready at the end of the cycle that enables interrupts, so that cycle asks for one. -/
theorem step_enable (h : Reachable m) (hm : m.computer.EndsService) :
    m.step.2 = .ok .running ∧ m.step.1.computer.s = false ∧ m.step.1.computer.sc = 0 ∧
      m.step.1.computer.r = true ∧ m.step.1.computer.memory = m.computer.memory ∧
      m.step.1.computer.pc = m.computer.pc + 1 := by
  obtain ⟨hresult, hrun, hb, ha⟩ := step_of_serving hm.toServing (i := .io .ion) (by decide)
    (by rw [hm.enables, decode?_enable])
  have hready : m.computer.architecture.devicesAct.fgo = true := by
    unfold Architecture.devicesAct
    split <;> rfl
  have hien : m.step.1.computer.ien = true := congrArg Architecture.ien ha
  have hfgo : m.step.1.computer.fgo = true := (congrArg Architecture.fgo ha).trans hready
  have hr := ((h.perform .step).preciseInterrupts.boundary hrun hb).mpr ⟨hien, .inr hfgo⟩
  exact ⟨hresult, hrun, hb, hr,
    (congrArg Architecture.memory ha).trans (Architecture.memory_devicesAct _),
    congrArg Architecture.pc ha⟩

/-! ## The return address -/

/-- Steps bring PC to the address in cell 0 before an interrupt cycle overwrites that cell. -/
def ReturnsInTime (m : Machine) : Prop :=
  ∃ k, 0 < k ∧ (m.afterSteps k).computer.pc = (m.computer.memory.read 0).address ∧
    ∀ j, j < k → (m.afterSteps j).computer.r = false

/-- Only the step that enables interrupts comes before the interrupt. -/
theorem returnsInTime_iff (h : Reachable m) (hm : m.computer.EndsService) :
    m.ReturnsInTime ↔ (m.computer.memory.read 0).address = m.computer.pc + 1 := by
  obtain ⟨-, -, -, hr, -, hpc⟩ := step_enable h hm
  constructor
  · rintro ⟨k, hk, hk', hbefore⟩
    have hone : k = 1 := by
      by_contra hne
      have hclear := hbefore 1 (by omega)
      exact Bool.noConfusion (hclear.symm.trans hr)
    subst hone
    exact hk'.symm.trans hpc
  · intro haddress
    refine ⟨1, Nat.one_pos, hpc.trans haddress.symm, fun j hj => ?_⟩
    obtain rfl : j = 0 := by omega
    exact hm.r_eq

/-- A branch through cell 0 with interrupts disabled returns to the address in that cell. If interrupts are
enabled in the step before, the second step is the interrupt cycle, which puts the address of the branch
into cell 0 instead, and the branch is not made. -/
theorem Reachable.service_return (h : Reachable m) (hm : m.computer.Serving) :
    (m.computer.memory.read m.computer.pc = 0xC000 →
      m.step.2 = .ok .running ∧ m.step.1.computer.memory = m.computer.memory ∧
        m.step.1.computer.pc = (m.computer.memory.read 0).address) ∧
    (m.computer.memory.read m.computer.pc = 0xF080 →
      m.computer.memory.read (m.computer.pc + 1) = 0xC000 →
      m.step.2 = .ok .running ∧ m.step.1.computer.memory = m.computer.memory ∧
        m.step.1.computer.pc = m.computer.pc + 1 ∧
        m.step.1.step.2 = .ok .running ∧ m.step.1.computer.ServiceSpec m.step.1.step.1.computer ∧
        m.step.1.step.1.computer.memory.read 0 = (m.computer.pc + 1).word ∧
        m.step.1.step.1.computer.pc = 1 ∧
        (m.ReturnsInTime ↔ (m.computer.memory.read 0).address = m.computer.pc + 1)) := by
  refine ⟨step_return hm, fun henable hreturn => ?_⟩
  have hends : m.computer.EndsService := ⟨hm, henable, hreturn⟩
  obtain ⟨hresult, hrun, hb, hr, hmemory, hpc⟩ := step_enable h hends
  obtain ⟨hresult', hspec⟩ := step_interrupt hrun hb hr
  exact ⟨hresult, hmemory, hpc, hresult', hspec, hpc ▸ hspec.return_address,
    congrArg Architecture.pc hspec.architecture_eq, returnsInTime_iff h hends⟩

/-! ## A routine that is never left -/

/-- A routine that is nothing but this end is where it was after two steps. -/
theorem endsService_again (h : Reachable m) (hm : m.computer.EndsService)
    (hpc : m.computer.pc = 1) :
    (m.afterSteps 2).computer.EndsService ∧ (m.afterSteps 2).computer.pc = 1 := by
  obtain ⟨-, hrun, hb, hr, hmemory, -⟩ := step_enable h hm
  obtain ⟨-, hspec⟩ := step_interrupt hrun hb hr
  have hread (cell : Address) (hne : cell ≠ 0) :
      (m.afterSteps 2).computer.memory.read cell = m.computer.memory.read cell := by
    rw [← hmemory]
    exact hspec.read_eq cell hne
  have harch := hspec.architecture_eq
  have hpc' : (m.afterSteps 2).computer.pc = 1 := congrArg Architecture.pc harch
  refine ⟨⟨⟨?_, hspec.sc_eq, congrArg Architecture.ien harch, hspec.r_eq⟩, ?_, ?_⟩, hpc'⟩
  · have hs := congrArg Architecture.s harch
    exact hs.trans ((Architecture.s_devicesAct _).trans hrun)
  · have henables := hm.enables
    rw [hpc] at henables
    rw [hpc', hread 1 (by decide), henables]
  · have hreturns := hm.returns
    rw [hpc] at hreturns
    rw [hpc', hread (1 + 1) (by decide), hreturns]

theorem pc_of_endless_service {m : Machine} (h : Reachable m) (hm : m.computer.EndsService)
    (hpc : m.computer.pc = 1) :
    ∀ k, (m.afterSteps k).computer.pc = 1 ∨ (m.afterSteps k).computer.pc = 2
  | 0 => .inl hpc
  | 1 => by
      obtain ⟨-, -, -, -, -, hnext⟩ := step_enable h hm
      rw [hpc] at hnext
      exact .inr hnext
  | k + 2 => by
      obtain ⟨hagain, hpc'⟩ := endsService_again h hm hpc
      rw [Nat.add_comm, afterSteps_add]
      exact pc_of_endless_service (h.afterSteps 2) hagain hpc' k

/-- A service routine of two instructions, entered with a return address in cell 0. -/
def endingService : Image :=
  ⟨1, [⟨0, 0x0010, ⟨0, 3⟩⟩, ⟨1, 0xF080, ⟨4, 7⟩⟩, ⟨2, 0xC000, ⟨8, 15⟩⟩]⟩

theorem endsService_endingService :
    (Machine.initial.load endingService).computer.EndsService :=
  ⟨⟨rfl, rfl, rfl, rfl⟩, by rfl, by rfl⟩

theorem service_return_endingService :
    (Machine.initial.load endingService).computer.Serving ∧
      (Machine.initial.load endingService).step.1.step.1.computer.memory.read 0 = 2 ∧
      (Machine.initial.load endingService).step.1.step.1.computer.pc = 1 := by
  have h : Reachable (Machine.initial.load endingService) :=
    Reachable.initial.perform (.load endingService)
  have hm := endsService_endingService
  obtain ⟨-, hagain⟩ := h.service_return hm.toServing
  obtain ⟨-, -, -, -, -, hsaved, hpc, -⟩ := hagain hm.enables hm.returns
  exact ⟨hm.toServing, hsaved, hpc⟩

/-- The routine never returns to the address in cell 0, neither before that is overwritten nor later. -/
theorem endingService_never_returns :
    let m := Machine.initial.load endingService
    Reachable m ∧ m.computer.EndsService ∧ ¬m.ReturnsInTime ∧
      ∀ k, (m.afterSteps k).computer.pc ≠ (m.computer.memory.read 0).address := by
  intro m
  have h : Reachable m := Reachable.initial.perform (.load endingService)
  have hm : m.computer.EndsService := endsService_endingService
  have haddress : (m.computer.memory.read 0).address = 0x010 := by rfl
  refine ⟨h, hm, ?_, fun k => ?_⟩
  · rw [returnsInTime_iff h hm, haddress]
    decide
  · rw [haddress]
    rcases pc_of_endless_service h hm rfl k with hpc | hpc <;> rw [hpc] <;> decide

end Machine

end BasicComputer
