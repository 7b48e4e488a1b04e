import BasicComputer.Proofs.Machine.Timing
import Mathlib.Tactic.Choose

/-! # Stepping granularity

Pulses, steps and runs advance a machine along one path. A step is a few pulses, of which only the last
reports anything but a running machine, and a run without breakpoints is a repetition of steps. -/

namespace BasicComputer

namespace Machine

variable {m : Machine}

/-! ## Steps and pulses -/

/-- The machine after so many steps. -/
def afterSteps (m : Machine) (n : Nat) : Machine := (fun m => m.step.1)^[n] m

theorem afterSteps_succ (m : Machine) (n : Nat) :
    m.afterSteps (n + 1) = (m.afterSteps n).step.1 :=
  Function.iterate_succ_apply' _ n m

theorem afterPulses_add (m : Machine) (k n : Nat) :
    m.afterPulses (k + n) = (m.afterPulses k).afterPulses n := by
  rw [Nat.add_comm]
  exact Function.iterate_add_apply _ n k m

theorem afterSteps_add (m : Machine) (k n : Nat) :
    m.afterSteps (k + n) = (m.afterSteps k).afterSteps n := by
  rw [Nat.add_comm]
  exact Function.iterate_add_apply _ n k m

theorem Reachable.afterSteps (h : Reachable m) (n : Nat) : Reachable (m.afterSteps n) := by
  induction n with
  | zero => exact h
  | succ n ih =>
      rw [afterSteps_succ]
      exact ih.perform .step

theorem Reachable.afterPulses (h : Reachable m) (n : Nat) : Reachable (m.afterPulses n) := by
  induction n with
  | zero => exact h
  | succ n ih =>
      rw [afterPulses_succ]
      exact ih.perform .pulse

/-- A pulse that leaves its cycle under way reports a running machine. -/
theorem report_of_within (h : m.computer.s = true → m.computer.sc = 0)
    (hw : m.pulse.1.computer.sc ≠ 0) : m.pulse.2 = .ok .running := by
  rw [computer_pulse] at hw
  cases hs : m.computer.s with
  | true =>
      rw [Computer.pulse_of_halted hs] at hw
      exact absurd (h hs) hw
  | false =>
      rcases Computer.pulse_cases hs with ⟨-, hc⟩ | ⟨t, -, -, hc⟩ | ⟨t, ht, hp, -⟩
      · exact absurd (congrArg Computer.sc hc) hw
      · exact absurd (congrArg Computer.sc hc) hw
      · exact (report_of_proceeds hs ht hp).2

/-- Where the steps of a machine end, counted in pulses from now. The last pulse of a step reports what
the step reports, and the pulses before it report a running machine. -/
structure Schedule (m : Machine) (ends : Nat → Nat) : Prop where
  start : ends 0 = 0
  later : ∀ i, ends i < ends (i + 1)
  short : ∀ i, ends (i + 1) ≤ ends i + 7
  machine_eq : ∀ i, m.afterSteps i = m.afterPulses (ends i)
  report_eq : ∀ i, (m.afterSteps i).step.2 = (m.afterPulses (ends (i + 1) - 1)).pulse.2
  running : ∀ i k, ends i ≤ k → k + 1 < ends (i + 1) →
    (m.afterPulses k).pulse.2 = .ok .running

theorem Schedule.le {ends : Nat → Nat} (h : m.Schedule ends) (n : Nat) : ends n ≤ 7 * n := by
  induction n with
  | zero => exact Nat.le_of_eq h.start
  | succ n ih =>
      have := h.short n
      omega

theorem Reachable.exists_schedule (h : Reachable m) : ∃ ends, m.Schedule ends := by
  choose length hle hsteps using fun i => exists_stepsIn (h.afterSteps i).timing.halted_sc
  let ends (i : Nat) : Nat := ((List.range i).map length).sum
  have hsucc (i : Nat) : ends (i + 1) = ends i + length i := by simp [ends, List.range_succ]
  have hmachine (i : Nat) : m.afterSteps i = m.afterPulses (ends i) := by
    induction i with
    | zero => rfl
    | succ i ih =>
        rw [afterSteps_succ, (hsteps i).machine_eq, hsucc, afterPulses_add, ← ih]
  refine ⟨ends, rfl, ?_, ?_, hmachine, ?_, ?_⟩
  · intro i
    have := (hsteps i).pos
    rw [hsucc]
    omega
  · intro i
    have := hle i
    rw [hsucc]
    omega
  · intro i
    have hpos := (hsteps i).pos
    rw [(hsteps i).step_eq, hsucc, Nat.add_sub_assoc hpos, afterPulses_add, ← hmachine]
  · intro i k hk hlast
    obtain ⟨j, rfl⟩ := Nat.exists_eq_add_of_le hk
    rw [hsucc] at hlast
    refine report_of_within (h.afterPulses _).timing.halted_sc ?_
    rw [afterPulses_add, ← hmachine, ← afterPulses_succ]
    exact (hsteps i).within (j + 1) (by omega) (by omega)

/-! ## Steps and runs -/

/-- Steps until one of them reports a halt or an error, `n` times at most. The report is that of the
last step. -/
def stepUpTo (m : Machine) : Nat → Machine × Except DecodeFault Status
  | 0 => (m, .ok m.computer.status)
  | n + 1 =>
    match m.step with
    | (next, .ok .running) => next.stepUpTo n
    | (next, result) => (next, result)

/-- What a run of so many cycles makes of repeated steps: only where the machine is still running, the
run adds to the journal that the budget is exhausted. -/
def runOfSteps (budget : Nat) :
    Machine × Except DecodeFault Status → Machine × Except DecodeFault Stop
  | (m, .ok .running) => (m.note (.budgetExhausted budget m.computer.pc), .ok .budgetExhausted)
  | (m, .ok .halted) => (m, .ok .halted)
  | (m, .error fault) => (m, .error fault)

theorem breakpoints_step (m : Machine) : m.step.1.breakpoints = m.breakpoints :=
  step_keeps (Q := fun n => n.breakpoints = m.breakpoints) (fun _ h => h) rfl

theorem atBreakpoint_of_empty (h : m.breakpoints = .empty) : m.atBreakpoint = false := by
  simp [atBreakpoint, h, Breakpoints.contains, Breakpoints.empty]

theorem pass_of_empty (h : m.breakpoints = .empty) : m.pass = m := by
  simp [pass, atBreakpoint_of_empty h]

/-- What a run makes of the end of a guarded run. -/
def finishRun (budget : Nat) : Run → Machine × Except DecodeFault Stop
  | ⟨m, _, .ok .cancelled⟩ =>
    (m.note (.budgetExhausted budget m.computer.pc), .ok .budgetExhausted)
  | ⟨m, _, result⟩ => (m, result)

theorem run_eq (m : Machine) (budget : Nat) :
    m.run budget = finishRun budget (m.runGuarded (.ofBudget m.computer.cycles budget)) := rfl

theorem runOn_of_halted (hs : m.computer.s = true) (holds : Nat → Machine → Bool)
    (left polls : Nat) : m.runOn holds left polls = ⟨m, polls, .ok .halted⟩ := by
  unfold runOn
  rw [if_pos hs]

/-- As long as every step completes a cycle, the cycles left of a budget are the steps left. -/
theorem finishRun_runOn {start budget left polls : Nat} (h : m.breakpoints = .empty)
    (hstart : start ≤ m.computer.cycles) (hleft : m.computer.cycles + left = start + budget) :
    finishRun budget (m.runOn (Guard.ofBudget start budget).holds left polls) =
      runOfSteps budget (m.stepUpTo left) := by
  induction left generalizing m polls with
  | zero =>
      cases hs : m.computer.s <;>
        simp [runOn, hs, atBreakpoint_of_empty h, pass_of_empty h, stepUpTo, Computer.status,
          finishRun, runOfSteps]
  | succ left ih =>
      cases hs : m.computer.s with
      | true => simp [runOn_of_halted hs, stepUpTo, step_of_halted hs, finishRun, runOfSteps]
      | false =>
          have hguard : (Guard.ofBudget start budget).holds (polls + 1) m = true := by
            simp only [Guard.ofBudget, decide_eq_true_eq]
            omega
          have hb := breakpoints_step m
          have hcases := step_cases hs
          rw [runOn, stepUpTo, pass_of_empty h]
          simp only [hs, atBreakpoint_of_empty h, hguard, Bool.false_eq_true, Bool.false_and,
            if_false, if_true]
          generalize m.step = stepped at hb hcases
          obtain ⟨next, result⟩ := stepped
          dsimp only at hb hcases
          rcases hcases with ⟨rfl, hcycles⟩ | ⟨fault, rfl, -, -⟩
          · cases hs' : next.computer.s with
            | true => simp [Computer.status, hs', runOn_of_halted, finishRun, runOfSteps]
            | false =>
                have hnext := @ih next (polls + 1) (hb.trans h) (by omega) (by omega)
                simpa [Computer.status, hs'] using hnext
          · rfl

/-- The same path at every granularity: steps end at pulses of a fixed schedule, with the reports made
there and nowhere else, and runs without breakpoints are steps up to a halt, an error or the budget. -/
theorem Reachable.stepping_granularity (h : Reachable m) :
    (∃ ends, m.Schedule ends ∧ ∀ n, ends n ≤ 7 * n) ∧
      (m.breakpoints = .empty → ∀ n, m.run n = runOfSteps n (m.stepUpTo n)) := by
  obtain ⟨ends, hends⟩ := h.exists_schedule
  refine ⟨⟨ends, hends, hends.le⟩, fun hb n => ?_⟩
  rw [run_eq]
  exact finishRun_runOn hb (Nat.le_refl _) rfl

theorem stepping_granularity_midCycle :
    let m := (Machine.initial.load selfIncrement).pulse.1
    m.computer.sc = 1 ∧ (∃ ends, m.Schedule ends ∧ ends 3 ≤ 21) ∧
      m.run 2 = runOfSteps 2 (m.stepUpTo 2) := by
  intro m
  have h : Reachable m := (Reachable.initial.perform (.load selfIncrement)).perform .pulse
  obtain ⟨⟨ends, hends, hle⟩, hrun⟩ := h.stepping_granularity
  exact ⟨rfl, ⟨ends, hends, hle 3⟩, hrun rfl 2⟩

end Machine

end BasicComputer
