import BasicComputer.Proofs.Machine.Likeness

/-! # Pauses

However often a machine is stopped and made to run again, its computer goes through the steps that it would
make without breakpoints, and through no others. The steps of a run are counted by its course, those of
several runs by the cycles that they complete. -/

namespace BasicComputer

namespace Machine

variable {m n next : Machine}

/-! ## The steps of a run -/

/-- Passing a breakpoint makes no difference to the step. -/
theorem step_pass_congr {result : Except DecodeFault Status} (hn : m.computer = n.computer)
    (h : m.pass.step = (next, result)) : next.computer = n.step.1.computer ∧ n.step.2 = result := by
  obtain ⟨hc, hr⟩ := step_congr ((computer_pass m).trans hn)
  rw [h] at hc hr
  exact ⟨hc, hr.symm⟩

theorem MayGoOn.completes (hm : m.MayGoOn) {status : Status} (h : m.pass.step = (next, .ok status)) :
    next.computer.cycles = m.computer.cycles + 1 := by
  have hcases := step_cases (m := m.pass) (by simpa using hm.1)
  simp only [h, computer_pass] at hcases
  rcases hcases with ⟨-, hcycles⟩ | ⟨fault, hr, -⟩
  · exact hcycles
  · cases hr

theorem MayGoOn.stops (hm : m.MayGoOn) {fault : DecodeFault} (h : m.pass.step = (next, .error fault)) :
    next.computer.s = true ∧ next.computer.cycles = m.computer.cycles := by
  have hcases := step_cases (m := m.pass) (by simpa using hm.1)
  simp only [h, computer_pass] at hcases
  rcases hcases with ⟨hr, -⟩ | ⟨_, -, hstop⟩
  · cases hr
  · exact hstop

section

variable {holds : Nat → Machine → Bool} {left polls : Nat} {steps : List Machine} {run : Run}

theorem Course.length_le (h : Course holds m left polls steps run) : steps.length ≤ left := by
  induction h with
  | halted | paused | impatient | refused => exact Nat.zero_le _
  | failed => exact Nat.succ_le_succ (Nat.zero_le _)
  | stepped _ _ _ _ ih => exact Nat.succ_le_succ ih

/-- A run takes the computer through as many steps as it makes, whatever machine the computer is in. -/
theorem Course.computer_eq (h : Course holds m left polls steps run)
    (hn : m.computer = n.computer) :
    run.machine.computer = (n.afterSteps steps.length).computer := by
  induction h generalizing n with
  | halted | paused => exact hn
  | impatient | refused => exact (computer_pass _).trans hn
  | failed hgo hg hstep => exact (step_pass_congr hn hstep).1
  | stepped hgo hg hstep rest ih => exact ih (step_pass_congr hn hstep).1

/-- Every step of a run that ends without an error completes a cycle. -/
theorem Course.cycles_eq (h : Course holds m left polls steps run) {stop : Stop}
    (hr : run.result = .ok stop) (hn : m.computer = n.computer) :
    run.machine.computer.cycles = m.computer.cycles + steps.length ∧
      ∀ i, i < steps.length → ∃ status, (n.afterSteps i).step.2 = .ok status := by
  induction h generalizing n with
  | halted | paused => exact ⟨rfl, fun i hi => absurd hi (Nat.not_lt_zero i)⟩
  | impatient | refused =>
      exact ⟨congrArg Computer.cycles (computer_pass _), fun i hi => absurd hi (Nat.not_lt_zero i)⟩
  | failed => cases hr
  | @stepped m next left polls status steps run hgo hg hstep rest ih =>
      obtain ⟨hcomputer, hreport⟩ := step_pass_congr hn hstep
      obtain ⟨hrest, hok⟩ := ih hr hcomputer
      have hcycles := hgo.completes hstep
      refine ⟨by rw [List.length_cons]; omega, fun i hi => ?_⟩
      cases i with
      | zero => exact ⟨status, hreport⟩
      | succ i => exact hok i (Nat.lt_of_succ_lt_succ hi)

/-- A run that ends with an error completes a cycle in every step but the last, which is refused. -/
theorem Course.fault_eq (h : Course holds m left polls steps run) {fault : DecodeFault}
    (hr : run.result = .error fault) (hn : m.computer = n.computer) :
    ∃ k, steps.length = k + 1 ∧ run.machine.computer.cycles = m.computer.cycles + k ∧
      run.machine.computer.s = true ∧ (n.afterSteps k).step.2 = .error fault := by
  induction h generalizing n with
  | halted | paused | impatient | refused => cases hr
  | failed hgo hg hstep =>
      cases hr
      obtain ⟨hs, hcycles⟩ := hgo.stops hstep
      exact ⟨0, rfl, hcycles, hs, (step_pass_congr hn hstep).2⟩
  | stepped hgo hg hstep rest ih =>
      obtain ⟨k, hk, hend, hs, hreport⟩ := ih hr (step_pass_congr hn hstep).1
      have hcycles := hgo.completes hstep
      exact ⟨k + 1, by rw [List.length_cons, hk], by omega, hs, hreport⟩

end

/-! ## Calls -/

/-- A call that reports no error takes the computer through as many steps as it completes cycles. -/
theorem computer_call {c : Call} {stop : Stop} (hr : (m.call c).2 = .ok stop)
    (hn : m.computer = n.computer) :
    ∃ k, (m.call c).1.computer.cycles = m.computer.cycles + k ∧
      (m.call c).1.computer = (n.afterSteps k).computer ∧
      ∀ i, i < k → ∃ status, (n.afterSteps i).step.2 = .ok status := by
  obtain ⟨steps, run, h, hcall | ⟨hcancelled, event, hcall⟩⟩ := m.call_cases c
  · rw [hcall] at hr ⊢
    obtain ⟨hcycles, hok⟩ := h.cycles_eq hr hn
    exact ⟨steps.length, hcycles, h.computer_eq hn, hok⟩
  · rw [hcall]
    obtain ⟨hcycles, hok⟩ := h.cycles_eq hcancelled hn
    exact ⟨steps.length, hcycles, h.computer_eq hn, hok⟩

/-- A call that reports an error reports that of the step after the cycles it completed. -/
theorem fault_call {c : Call} {fault : DecodeFault} (hr : (m.call c).2 = .error fault)
    (hn : m.computer = n.computer) :
    ∃ k, (m.call c).1.computer.cycles = m.computer.cycles + k ∧
      (m.call c).1.computer = (n.afterSteps (k + 1)).computer ∧
      (n.afterSteps k).step.2 = .error fault := by
  obtain ⟨steps, run, h, hcall | ⟨-, event, hcall⟩⟩ := m.call_cases c
  · rw [hcall] at hr ⊢
    obtain ⟨k, hk, hcycles, -, hreport⟩ := h.fault_eq hr hn
    exact ⟨k, hcycles, hk ▸ h.computer_eq hn, hreport⟩
  · rw [hcall] at hr
    cases hr

/-- Calls that report no error, and between them any edits of the breakpoints, lead from one machine to
another. -/
inductive Session (m : Machine) : Machine → Prop
  | start : Session m m
  | call {n : Machine} {c : Call} {stop : Stop} (h : Session m n) (hr : (n.call c).2 = .ok stop) :
      Session m (n.call c).1
  | edit {n : Machine} (breakpoints : Breakpoints) (h : Session m n) :
      Session m { n with breakpoints }

def withoutBreakpoints (m : Machine) : Machine := { m with breakpoints := .empty }

theorem Session.computer_eq (h : m.Session n) :
    ∃ k, n.computer.cycles = m.computer.cycles + k ∧
      n.computer = (m.withoutBreakpoints.afterSteps k).computer ∧
      ∀ i, i < k → ∃ status, (m.withoutBreakpoints.afterSteps i).step.2 = .ok status := by
  induction h with
  | start => exact ⟨0, rfl, rfl, fun i hi => absurd hi (Nat.not_lt_zero i)⟩
  | edit breakpoints h ih => exact ih
  | call h hr ih =>
      obtain ⟨k, hcycles, hcomputer, hok⟩ := ih
      obtain ⟨l, hcycles', hcomputer', hok'⟩ := computer_call hr hcomputer
      refine ⟨k + l, by omega, by rw [afterSteps_add]; exact hcomputer', fun i hi => ?_⟩
      by_cases hik : i < k
      · exact hok i hik
      · obtain ⟨j, rfl⟩ := Nat.exists_eq_add_of_le (Nat.le_of_not_lt hik)
        rw [afterSteps_add]
        exact hok' j (by omega)

/-- Whatever stops the runs of a session, together they take the computer through as many steps of the
machine without breakpoints as they complete cycles, and an error that a call reports after them is that
of the next of these steps. -/
theorem Session.pausing_transparent (h : m.Session n) :
    (∃ k, n.computer.cycles = m.computer.cycles + k ∧
      n.computer = (m.withoutBreakpoints.afterSteps k).computer ∧
      ∀ i, i < k → ∃ status, (m.withoutBreakpoints.afterSteps i).step.2 = .ok status) ∧
    ∀ c fault, (n.call c).2 = .error fault →
      ∃ k, (n.call c).1.computer.cycles = m.computer.cycles + k ∧
        (n.call c).1.computer = (m.withoutBreakpoints.afterSteps (k + 1)).computer ∧
        (m.withoutBreakpoints.afterSteps k).step.2 = .error fault := by
  refine ⟨h.computer_eq, fun c fault hr => ?_⟩
  obtain ⟨k, hcycles, hcomputer, -⟩ := h.computer_eq
  obtain ⟨l, hcycles', hcomputer', hreport⟩ := fault_call hr hcomputer
  refine ⟨k + l, by omega, ?_, ?_⟩
  · rw [Nat.add_assoc, afterSteps_add]
    exact hcomputer'
  · rw [afterSteps_add]
    exact hreport

/-- A program of one instruction, and a word behind it that is none. -/
def strayWord : Image := ⟨0, [⟨0, 0x7800, ⟨0, 3⟩⟩, ⟨1, 0x7000, ⟨4, 7⟩⟩]⟩

/-- The program with a breakpoint at its end. -/
def guardedStrayWord : Machine := (initial.load strayWord).perform (.insertBreakpoint 1)

theorem step_strayWord : guardedStrayWord.pass.step =
    (guardedStrayWord.pass.afterPulses 4, .ok .running) := by
  rw [step_eq_pulse (k := 3) rfl rfl (by rfl)]
  rfl

/-- The machine paused before the stray word. -/
def pausedStrayWord : Machine := (guardedStrayWord.pass.afterPulses 4).pause

theorem call_strayWord : guardedStrayWord.call (.run 5) = (pausedStrayWord, .ok (.breakpoint 1)) := by
  have h : Course (Guard.ofBudget 0 5).holds guardedStrayWord 5 0 [guardedStrayWord.pass]
      ⟨pausedStrayWord, 1, .ok (.breakpoint 1)⟩ :=
    .stepped ⟨rfl, by decide⟩ rfl step_strayWord (.paused (by rfl) (by rfl) (by decide))
  exact congrArg (finishRun 5) h.run_eq

theorem step_pausedStrayWord : pausedStrayWord.pass.step =
    (pausedStrayWord.pass.afterPulses 4, .error ⟨0x7000, 1⟩) := by
  rw [step_eq_pulse (k := 3) rfl rfl (by rfl)]
  rfl

theorem call_pausedStrayWord : pausedStrayWord.call (.run 5) =
    (pausedStrayWord.pass.afterPulses 4, .error ⟨0x7000, 1⟩) := by
  have h : Course (Guard.ofBudget 1 5).holds pausedStrayWord 5 0 [pausedStrayWord.pass] _ :=
    .failed ⟨rfl, fun _ => rfl⟩ rfl step_pausedStrayWord
  exact congrArg (finishRun 5) h.run_eq

theorem pausing_transparent_strayWord :
    guardedStrayWord.Session pausedStrayWord ∧
      pausedStrayWord.computer = (guardedStrayWord.withoutBreakpoints.afterSteps 1).computer ∧
      (pausedStrayWord.call (.run 5)).2 = .error ⟨0x7000, 1⟩ ∧
      (guardedStrayWord.withoutBreakpoints.afterSteps 1).step.2 = .error ⟨0x7000, 1⟩ := by
  have hsession : guardedStrayWord.Session pausedStrayWord := by
    have h := Session.start.call (m := guardedStrayWord) (congrArg Prod.snd call_strayWord)
    rwa [call_strayWord] at h
  have hfault : (pausedStrayWord.call (.run 5)).2 = .error ⟨0x7000, 1⟩ :=
    congrArg Prod.snd call_pausedStrayWord
  obtain ⟨⟨k, hk, hcomputer, -⟩, hlast⟩ := hsession.pausing_transparent
  obtain ⟨l, hl, -, hreport⟩ := hlast _ _ hfault
  obtain rfl : k = 1 := Nat.add_left_cancel (hk.symm.trans (by rfl : _ = 0 + 1))
  rw [call_pausedStrayWord] at hl
  obtain rfl : l = 1 := Nat.add_left_cancel (hl.symm.trans (by rfl : _ = 0 + 1))
  exact ⟨hsession, hcomputer, hfault, hreport⟩

end Machine

end BasicComputer
