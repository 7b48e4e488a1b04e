import BasicComputer.Proofs.Machine.Breakpoints

/-! # Resumption

A run that resumes from a breakpoint completes a cycle before it reports that breakpoint again, unless
the permission to pass went to a call that was called off. -/

namespace BasicComputer

namespace Machine

variable {m : Machine} {a : Address} {c : Call}

/-! ## Cycles only add up -/

theorem cycles_le_pulse (c : Computer) : c.cycles ≤ c.pulse.computer.cycles := by
  cases hs : c.s with
  | true => exact Nat.le_of_eq (by rw [Computer.pulse_of_halted hs])
  | false =>
      rcases Computer.pulse_cases hs with ⟨-, hc⟩ | ⟨t, -, -, hc⟩ | ⟨t, -, -, hc⟩
      · rw [hc]
        exact Nat.le_of_eq (Computer.cycles_begun c).symm
      · rw [hc]
        simp [Computer.finishCycle]
      · rw [hc]
        simp

theorem kept_cycles_le (n : Nat) : Kept fun m => n ≤ m.computer.cycles :=
  .of_computer (P := fun c => n ≤ c.cycles) fun c h => Nat.le_trans h (cycles_le_pulse c)

theorem cycles_le_call (m : Machine) (c : Call) :
    m.computer.cycles ≤ (m.call c).1.computer.cycles := by
  have hk := kept_cycles_le m.computer.cycles
  cases c with
  | run budget => exact hk.run (Nat.le_refl _) budget
  | runGuarded guard => exact hk.runGuarded (Nat.le_refl _) guard

/-- The machine after calls with nothing else in between. -/
def callAll (m : Machine) (calls : List Call) : Machine := calls.foldl (fun m c => (m.call c).1) m

theorem cycles_le_callAll (m : Machine) (calls : List Call) :
    m.computer.cycles ≤ (m.callAll calls).computer.cycles := by
  induction calls generalizing m with
  | nil => exact Nat.le_refl _
  | cons c rest ih => exact Nat.le_trans (cycles_le_call m c) (ih _)

/-! ## Halted machines -/

theorem call_of_halted (hs : m.computer.s = true) (c : Call) : m.call c = (m, .ok .halted) := by
  have hr (guard : Guard) : m.runGuarded guard = ⟨m, 0, .ok .halted⟩ := runOn_of_halted hs _ _ _
  cases c with
  | run budget =>
      change m.run budget = (m, .ok .halted)
      rw [run_eq, hr]
      rfl
  | runGuarded guard =>
      change ((m.runGuarded guard).machine, (m.runGuarded guard).result) = (m, .ok .halted)
      rw [hr]

theorem callAll_of_halted (hs : m.computer.s = true) (calls : List Call) : m.callAll calls = m := by
  induction calls with
  | nil => rfl
  | cons c rest ih =>
      change (m.call c).1.callAll rest = m
      rw [call_of_halted hs]
      exact ih

/-! ## The call after a report -/

section

variable {holds : Nat → Machine → Bool} {left polls : Nat} {steps : List Machine} {run : Run}

theorem Course.cycles_le (h : Course holds m left polls steps run) :
    m.computer.cycles ≤ run.machine.computer.cycles := by
  rw [← h.run_eq]
  exact (kept_cycles_le _).runOn (Nat.le_refl _) holds left polls

theorem Course.of_paused (h : Course holds m left polls steps run) (hm : m.computer.FetchesAt a)
    (hp : m.pausedAt = some a) :
    steps = [] ∧ run.result = .ok .cancelled ∨ run.machine.computer.s = true ∨
      m.computer.cycles < run.machine.computer.cycles := by
  cases h with
  | halted hs => exact .inr (.inl hs)
  | paused hs hb hne => exact absurd (hp.trans (congrArg some hm.pc_eq.symm)) hne
  | impatient hgo => exact .inl ⟨rfl, rfl⟩
  | refused hgo hg => exact .inl ⟨rfl, rfl⟩
  | @failed _ next _ _ fault hgo hg hstep =>
      have hcases := step_cases (m := m.pass) (by simpa using hm.running)
      simp only [hstep] at hcases
      rcases hcases with ⟨hr, -⟩ | ⟨-, -, hs, -⟩
      · cases hr
      · exact .inr (.inl hs)
  | @stepped _ next _ _ status steps _ hgo hg hstep rest =>
      have hcases := step_cases (m := m.pass) (by simpa using hm.running)
      simp only [hstep, computer_pass] at hcases
      rcases hcases with ⟨-, hcycles⟩ | ⟨fault, hr, -, -⟩
      · have hle := rest.cycles_le
        exact .inr (.inr (by omega))
      · cases hr

end

/-- A call from where the machine is paused is called off, or halts, or completes a cycle. -/
theorem call_of_paused (hm : m.computer.FetchesAt a) (hp : m.pausedAt = some a) (c : Call) :
    m.CalledOff c ∨ (m.call c).1.computer.s = true ∨
      m.computer.cycles < (m.call c).1.computer.cycles := by
  obtain ⟨steps, run, h, hcall | ⟨hr, event, hcall⟩⟩ := m.call_cases c
  · rcases h.of_paused hm hp with ⟨rfl, hr⟩ | hmoved
    · exact .inl ⟨⟨run, h⟩, .inl (by rw [hcall]; exact hr)⟩
    · rw [hcall]
      exact .inr hmoved
  · rcases h.of_paused hm hp with ⟨rfl, -⟩ | hmoved
    · exact .inl ⟨⟨run, h⟩, .inr (by rw [hcall])⟩
    · rw [hcall]
      exact .inr hmoved

theorem not_calledOff_of_report (hr : (m.call c).2 = .ok (.breakpoint a)) : ¬m.CalledOff c := by
  rintro ⟨-, h | h⟩ <;> cases hr.symm.trans h

/-- Between two reports of a breakpoint, with nothing but calls in between, a cycle is completed, which
begins with the fetch from there, unless the first of these calls was called off. -/
theorem resumed_run_progress {last : Call} {between : List Call}
    (hfirst : (m.call c).2 = .ok (.breakpoint a))
    (hlast : (((m.call c).1.callAll between).call last).2 = .ok (.breakpoint a)) :
    (m.call c).1.computer.FetchesAt a ∧
      ((m.call c).1.computer.cycles <
          (((m.call c).1.callAll between).call last).1.computer.cycles ∨
        ∃ next rest, between = next :: rest ∧ (m.call c).1.CalledOff next) := by
  obtain ⟨hm, -, hp⟩ := report_of_call hfirst
  refine ⟨hm, ?_⟩
  generalize (m.call c).1 = paused at *
  cases between with
  | nil =>
      rcases call_of_paused hm hp last with hoff | hs | hcycles
      · exact absurd hoff (not_calledOff_of_report hlast)
      · have hrun := (report_of_call hlast).1.running
        exact Bool.noConfusion (hs.symm.trans hrun)
      · exact .inl hcycles
  | cons next rest =>
      rcases call_of_paused hm hp next with hoff | hs | hcycles
      · exact .inr ⟨next, rest, rfl, hoff⟩
      · change (((paused.call next).1.callAll rest).call last).2 = _ at hlast
        rw [callAll_of_halted hs, call_of_halted hs] at hlast
        cases hlast
      · have hrest := cycles_le_callAll (paused.call next).1 rest
        have hend := cycles_le_call ((paused.call next).1.callAll rest) last
        exact .inl (Nat.lt_of_lt_of_le hcycles (Nat.le_trans hrest hend))

/-- A program of one instruction, which goes back to itself. -/
def endlessLoop : Image := ⟨0, [⟨0, 0x4000, ⟨0, 3⟩⟩]⟩

/-- The program with a breakpoint at its instruction, paused there. -/
def pausedLoop : Machine :=
  (((initial.load endlessLoop).perform (.insertBreakpoint 0)).call (.run 1)).1

theorem step_pausedLoop :
    pausedLoop.pass.step = (pausedLoop.pass.afterPulses 5, .ok .running) := by
  have hpulses : pausedLoop.pass.computer.cyclePulses = 5 := by rfl
  have hsteps : pausedLoop.pass.StepsIn 5 := hpulses ▸ stepsIn_cyclePulses rfl rfl
  rw [hsteps.step_eq]
  rfl

theorem resumed_run_progress_endlessLoop :
    (((initial.load endlessLoop).perform (.insertBreakpoint 0)).call (.run 1)).2 =
        .ok (.breakpoint 0) ∧
      ((pausedLoop.callAll []).call (.run 1)).2 = .ok (.breakpoint 0) ∧
      pausedLoop.computer.cycles < ((pausedLoop.callAll []).call (.run 1)).1.computer.cycles := by
  have hfirst : (((initial.load endlessLoop).perform (.insertBreakpoint 0)).call (.run 1)).2 =
      .ok (.breakpoint 0) := rfl
  have hcourse : Course (Guard.ofBudget 0 1).holds pausedLoop 1 0 [pausedLoop.pass] _ :=
    .stepped ⟨rfl, fun _ => rfl⟩ rfl step_pausedLoop (.paused (by rfl) (by rfl) (by decide))
  have hlast : ((pausedLoop.callAll []).call (.run 1)).2 = .ok (.breakpoint 0) :=
    congrArg (fun run => (finishRun 1 run).2) hcourse.run_eq
  obtain ⟨-, hcycles | ⟨next, rest, hnil, -⟩⟩ := resumed_run_progress hfirst hlast
  · exact ⟨hfirst, hlast, hcycles⟩
  · cases hnil

/-- A call without a budget uses up the permission to pass: the next call reports the breakpoint again
although no cycle has been completed. -/
theorem reported_again_after_calledOff :
    let m := initial.perform (.insertBreakpoint 0)
    let paused := (m.call (.run 1)).1
    let again := (paused.callAll [.run 0]).call (.run 1)
    Reachable m ∧ (m.call (.run 1)).2 = .ok (.breakpoint 0) ∧ again.2 = .ok (.breakpoint 0) ∧
      ¬paused.computer.cycles < again.1.computer.cycles :=
  ⟨Reachable.initial.perform (.insertBreakpoint 0), rfl, rfl, by decide⟩

end Machine

end BasicComputer
