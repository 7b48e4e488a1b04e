import BasicComputer.Proofs.Machine.Granularity

/-! # Courses of runs

A run told by its steps: the machines that they set out from, in order, and how the run ended. More
patience of the guard makes a course longer and changes none of its steps, so what is true of every course
is true of every beginning of a run that never ends. A call makes a run of either kind; it may be called
off before the first step. -/

namespace BasicComputer

namespace Machine

/-- A breakpoint where the machine is not paused yet does not let it go on. -/
def MayGoOn (m : Machine) : Prop :=
  m.computer.s = false ∧ (m.atBreakpoint = true → m.pausedAt = some m.computer.pc)

/-- The machines that the steps of a run set out from, and the end of the run. As in `runOn`, so many
polls have been made, and no more than `left` may be answered yes. -/
inductive Course (holds : Nat → Machine → Bool) : Machine → Nat → Nat → List Machine → Run → Prop
  | halted {m : Machine} {left polls : Nat} (hs : m.computer.s = true) :
      Course holds m left polls [] ⟨m, polls, .ok .halted⟩
  | paused {m : Machine} {left polls : Nat} (hs : m.computer.s = false)
      (hb : m.atBreakpoint = true) (hp : m.pausedAt ≠ some m.computer.pc) :
      Course holds m left polls [] ⟨m.pause, polls, .ok (.breakpoint m.computer.pc)⟩
  | impatient {m : Machine} {polls : Nat} (hm : m.MayGoOn) :
      Course holds m 0 polls [] ⟨m.pass, polls + 1, .ok .cancelled⟩
  | refused {m : Machine} {left polls : Nat} (hm : m.MayGoOn)
      (hg : holds (polls + 1) m.pass = false) :
      Course holds m (left + 1) polls [] ⟨m.pass, polls + 1, .ok .cancelled⟩
  | failed {m next : Machine} {left polls : Nat} {fault : DecodeFault} (hm : m.MayGoOn)
      (hg : holds (polls + 1) m.pass = true) (h : m.pass.step = (next, .error fault)) :
      Course holds m (left + 1) polls [m.pass] ⟨next, polls + 1, .error fault⟩
  | stepped {m next : Machine} {left polls : Nat} {status : Status} {steps : List Machine}
      {run : Run} (hm : m.MayGoOn) (hg : holds (polls + 1) m.pass = true)
      (h : m.pass.step = (next, .ok status)) (rest : Course holds next left (polls + 1) steps run) :
      Course holds m (left + 1) polls (m.pass :: steps) run

variable {m : Machine} {holds : Nat → Machine → Bool} {left polls : Nat} {steps : List Machine}
  {run : Run}

theorem mayGoOn_iff (m : Machine) :
    m.MayGoOn ↔ m.computer.s = false ∧
      (m.atBreakpoint && m.pausedAt != some m.computer.pc) = false := by
  cases hb : m.atBreakpoint <;> simp [MayGoOn, hb]

theorem mayGoOn_of_not_reports (hs : ¬m.computer.s = true)
    (hb : ¬(m.atBreakpoint && m.pausedAt != some m.computer.pc) = true) : m.MayGoOn :=
  m.mayGoOn_iff.mpr ⟨Bool.eq_false_iff.mpr hs, Bool.eq_false_iff.mpr hb⟩

theorem exists_course (m : Machine) (holds : Nat → Machine → Bool) (left polls : Nat) :
    ∃ steps, Course holds m left polls steps (m.runOn holds left polls) := by
  fun_induction runOn m holds left polls with
  | case1 left m polls halted => exact ⟨[], .halted halted⟩
  | case2 left m polls running hb =>
      rw [Bool.and_eq_true, bne_iff_ne] at hb
      exact ⟨[], .paused (Bool.eq_false_iff.mpr running) hb.1 hb.2⟩
  | case3 m polls running hb => exact ⟨[], .impatient (mayGoOn_of_not_reports running hb)⟩
  | case4 m polls running hb left hg next status heq ih =>
      obtain ⟨steps, hsteps⟩ := ih
      exact ⟨m.pass :: steps, .stepped (mayGoOn_of_not_reports running hb) hg heq hsteps⟩
  | case5 m polls running hb left hg next fault heq =>
      exact ⟨[m.pass], .failed (mayGoOn_of_not_reports running hb) hg heq⟩
  | case6 m polls running hb left hg =>
      exact ⟨[], .refused (mayGoOn_of_not_reports running hb) (Bool.eq_false_iff.mpr hg)⟩

theorem Course.run_eq (h : Course holds m left polls steps run) :
    m.runOn holds left polls = run := by
  induction h with
  | halted hs => exact runOn_of_halted hs _ _ _
  | paused hs hb hp =>
      unfold runOn
      simp [hs, hb, hp]
  | @impatient m polls hgo =>
      obtain ⟨hs, hb⟩ := m.mayGoOn_iff.mp hgo
      rw [runOn]
      simp [hs, hb]
  | @refused m left polls hgo hg =>
      obtain ⟨hs, hb⟩ := m.mayGoOn_iff.mp hgo
      rw [runOn]
      simp [hs, hb, hg]
  | @failed m next left polls fault hgo hg hstep =>
      obtain ⟨hs, hb⟩ := m.mayGoOn_iff.mp hgo
      rw [runOn]
      simp [hs, hb, hg, hstep]
  | @stepped m next left polls status steps run hgo hg hstep rest ih =>
      obtain ⟨hs, hb⟩ := m.mayGoOn_iff.mp hgo
      rw [runOn]
      simp [hs, hb, hg, hstep, ih]

/-! ## Calls -/

/-- The two ways to make a machine run. -/
inductive Call
  | run (budget : Nat)
  | runGuarded (guard : Guard)

def Call.action : Call → Action
  | .run budget => .run budget
  | .runGuarded guard => .runGuarded guard

/-- The guard of the run that the call makes. -/
def Call.guard (m : Machine) : Call → Guard
  | .run budget => .ofBudget m.computer.cycles budget
  | .runGuarded guard => guard

/-- The machine after a call, and what the call reports. -/
def call (m : Machine) : Call → Machine × Except DecodeFault Stop
  | .run budget => m.run budget
  | .runGuarded guard => ((m.runGuarded guard).machine, (m.runGuarded guard).result)

/-- The machines that the steps of a call set out from. -/
def Steps (m : Machine) (c : Call) (steps : List Machine) : Prop :=
  ∃ run, Course (c.guard m).holds m (c.guard m).patience 0 steps run

/-- The call is cancelled or out of budget before its first step. -/
def CalledOff (m : Machine) (c : Call) : Prop :=
  m.Steps c [] ∧ ((m.call c).2 = .ok .cancelled ∨ (m.call c).2 = .ok .budgetExhausted)

theorem perform_action (m : Machine) (c : Call) : m.perform c.action = (m.call c).1 := by
  cases c <;> rfl

theorem finishRun_cases (budget : Nat) (run : Run) :
    finishRun budget run = (run.machine, run.result) ∨
      run.result = .ok .cancelled ∧
        ∃ event, finishRun budget run = (run.machine.note event, .ok .budgetExhausted) := by
  obtain ⟨m, polls, result⟩ := run
  cases result with
  | error fault => exact .inl rfl
  | ok stop =>
      cases stop with
      | cancelled => exact .inr ⟨rfl, _, rfl⟩
      | halted | breakpoint address | budgetExhausted => exact .inl rfl

/-- A call makes a run, and notes at most that a budget is exhausted. -/
theorem call_cases (m : Machine) (c : Call) : ∃ steps run,
    Course (c.guard m).holds m (c.guard m).patience 0 steps run ∧
      (m.call c = (run.machine, run.result) ∨
        run.result = .ok .cancelled ∧
          ∃ event, m.call c = (run.machine.note event, .ok .budgetExhausted)) := by
  obtain ⟨steps, h⟩ := exists_course m (c.guard m).holds (c.guard m).patience 0
  refine ⟨steps, _, h, ?_⟩
  cases c with
  | runGuarded guard => exact .inl rfl
  | run budget => exact finishRun_cases budget _

end Machine

end BasicComputer
