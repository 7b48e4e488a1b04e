import BasicComputer.Proofs.Machine.Course

/-! # Machines side by side

Two machines whose computers are equal make the same steps. If their breakpoints are equal as well, and so
is what they remember of a pause, they make the same runs: neither the journal nor tracing has a part in
it. -/

namespace BasicComputer

namespace Machine

/-! ## Steps -/

section

variable {m n : Machine}

theorem step_of_within (hr : m.pulse.2 = .ok .running) (hb : m.pulse.1.computer.sc ≠ 0) :
    m.step = m.pulse.1.step := by
  rw [step]
  split
  next next heq =>
    rw [heq] at hb
    have hb' : next.computer.sc ≠ 0 := hb
    simp [Computer.atBoundary, hb', heq]
  next next result hne heq =>
    rw [heq] at hr
    exact (hne hr).elim

theorem step_of_reported (hr : m.pulse.2 ≠ .ok .running) : m.step = m.pulse := by
  rw [step]
  split
  next next heq =>
    rw [heq] at hr
    exact (hr rfl).elim
  next next result hne heq => exact heq.symm

theorem report_pulse_congr (h : m.computer = n.computer) : m.pulse.2 = n.pulse.2 := by
  simp only [pulse, h]

/-- Steps keep between two machines with equal computers what their pulses keep. -/
theorem step_pair {Q : Machine → Machine → Prop} (hc : ∀ m n, Q m n → m.computer = n.computer)
    (hp : ∀ m n, Q m n → Q m.pulse.1 n.pulse.1) (h : Q m n) :
    Q m.step.1 n.step.1 ∧ m.step.2 = n.step.2 := by
  induction hk : 7 - m.computer.sc using Nat.strongRecOn generalizing m n with
  | ind k ih =>
      have hnext := hp m n h
      have hr := report_pulse_congr (hc m n h)
      have hsc := congrArg Computer.sc (hc _ _ hnext)
      by_cases hb : m.pulse.1.computer.sc = 0
      · rw [step_of_boundary hb, step_of_boundary (hsc ▸ hb)]
        exact ⟨hnext, hr⟩
      · by_cases hrun : m.pulse.2 = .ok .running
        · have hlt := pulses_left_lt hrun (by simpa [Computer.atBoundary] using hb)
          rw [step_of_within hrun hb, step_of_within (m := n) (hr ▸ hrun) (hsc ▸ hb)]
          exact ih _ (hk ▸ hlt) hnext rfl
        · rw [step_of_reported hrun, step_of_reported (hr ▸ hrun)]
          exact ⟨hnext, hr⟩

theorem step_congr (h : m.computer = n.computer) :
    m.step.1.computer = n.step.1.computer ∧ m.step.2 = n.step.2 :=
  step_pair (Q := fun m n => m.computer = n.computer) (fun _ _ h => h)
    (fun m n h => by rw [computer_pulse, computer_pulse, h]) h

end

/-! ## Runs -/

/-- The machines differ in their journals and in tracing at most. -/
structure Alike (m n : Machine) : Prop where
  computer_eq : m.computer = n.computer
  breakpoints_eq : m.breakpoints = n.breakpoints
  pausedAt_eq : m.pausedAt = n.pausedAt

/-- A relation of machines that are alike, kept where both make a pulse, pass or report a breakpoint, or
note an event. -/
structure Coupled (Q : Machine → Machine → Prop) : Prop where
  alike : ∀ m n, Q m n → m.Alike n
  pulse : ∀ m n, Q m n → Q m.pulse.1 n.pulse.1
  pass : ∀ m n, Q m n → Q m.pass n.pass
  pause : ∀ m n, Q m n → Q m.pause n.pause
  note : ∀ m n event, Q m n → Q (m.note event) (n.note event)

section

variable {m n : Machine}

theorem Alike.symm (h : m.Alike n) : n.Alike m :=
  ⟨h.computer_eq.symm, h.breakpoints_eq.symm, h.pausedAt_eq.symm⟩

theorem Alike.trans {k : Machine} (h : m.Alike n) (h' : n.Alike k) : m.Alike k :=
  ⟨h.computer_eq.trans h'.computer_eq, h.breakpoints_eq.trans h'.breakpoints_eq,
    h.pausedAt_eq.trans h'.pausedAt_eq⟩

theorem Alike.atBreakpoint_eq (h : m.Alike n) : m.atBreakpoint = n.atBreakpoint := by
  rw [atBreakpoint, atBreakpoint, h.computer_eq, h.breakpoints_eq]

theorem alike_note (m : Machine) (event : Event) : (m.note event).Alike m := ⟨rfl, rfl, rfl⟩

theorem coupled_alike : Coupled Alike where
  alike _ _ h := h
  pulse m n h := by
    refine ⟨?_, h.breakpoints_eq, ?_⟩
    · rw [computer_pulse, computer_pulse, h.computer_eq]
    · change (if m.computer.fetches then none else m.pausedAt) =
        (if n.computer.fetches then none else n.pausedAt)
      rw [h.computer_eq, h.pausedAt_eq]
  pass m n h := by
    rw [Machine.pass, Machine.pass, h.atBreakpoint_eq]
    split
    · exact ⟨h.computer_eq, h.breakpoints_eq, rfl⟩
    · exact h
  pause m n h := ⟨h.computer_eq, h.breakpoints_eq, congrArg (fun c : Computer => some c.pc) h.computer_eq⟩
  note _ _ _ h := ⟨h.computer_eq, h.breakpoints_eq, h.pausedAt_eq⟩

variable {Q : Machine → Machine → Prop}

theorem Coupled.step (hq : Coupled Q) (h : Q m n) : Q m.step.1 n.step.1 ∧ m.step.2 = n.step.2 :=
  step_pair (fun m n h => (hq.alike m n h).computer_eq) hq.pulse h

/-- Related machines make the same run, if their guards give the same answers. -/
theorem Coupled.runOn (hq : Coupled Q) {holds holds' : Nat → Machine → Bool}
    (hg : ∀ k m n, Q m n → holds k m = holds' k n) (h : Q m n) (left polls : Nat) :
    Q (m.runOn holds left polls).machine (n.runOn holds' left polls).machine ∧
      (m.runOn holds left polls).polls = (n.runOn holds' left polls).polls ∧
      (m.runOn holds left polls).result = (n.runOn holds' left polls).result := by
  induction left generalizing m n polls with
  | zero =>
      have ha := hq.alike m n h
      rw [Machine.runOn, Machine.runOn, ← ha.computer_eq, ← ha.atBreakpoint_eq, ← ha.pausedAt_eq]
      split
      · exact ⟨h, rfl, rfl⟩
      · split
        · exact ⟨hq.pause m n h, rfl, rfl⟩
        · exact ⟨hq.pass m n h, rfl, rfl⟩
  | succ left ih =>
      have ha := hq.alike m n h
      have hpass := hq.pass m n h
      obtain ⟨hstep, hr⟩ := hq.step hpass
      rw [Machine.runOn, Machine.runOn, ← ha.computer_eq, ← ha.atBreakpoint_eq, ← ha.pausedAt_eq,
        ← hg (polls + 1) _ _ hpass]
      split
      · exact ⟨h, rfl, rfl⟩
      · split
        · exact ⟨hq.pause m n h, rfl, rfl⟩
        · split
          · generalize m.pass.step = stepped at hstep hr
            generalize n.pass.step = stepped' at hstep hr
            obtain ⟨next, result⟩ := stepped
            obtain ⟨next', result'⟩ := stepped'
            obtain rfl : result = result' := hr
            cases result with
            | error fault => exact ⟨hstep, rfl, rfl⟩
            | ok status => exact ih hstep (polls + 1)
          · exact ⟨hpass, rfl, rfl⟩

theorem Coupled.runGuarded (hq : Coupled Q) (guard : Guard)
    (hg : ∀ k m n, Q m n → guard.holds k m = guard.holds k n) (h : Q m n) :
    Q (m.runGuarded guard).machine (n.runGuarded guard).machine ∧
      (m.runGuarded guard).polls = (n.runGuarded guard).polls ∧
      (m.runGuarded guard).result = (n.runGuarded guard).result :=
  hq.runOn hg h guard.patience 0

theorem holds_ofBudget_congr (start budget k : Nat) (h : m.computer = n.computer) :
    (Guard.ofBudget start budget).holds k m = (Guard.ofBudget start budget).holds k n := by
  simp only [Guard.ofBudget, h]

theorem Coupled.run (hq : Coupled Q) (h : Q m n) (budget : Nat) :
    Q (m.run budget).1 (n.run budget).1 ∧ (m.run budget).2 = (n.run budget).2 := by
  have hrun := hq.runGuarded (.ofBudget m.computer.cycles budget)
    (fun k m n h => holds_ofBudget_congr _ _ k (hq.alike m n h).computer_eq) h
  rw [run_eq, run_eq, ← (hq.alike m n h).computer_eq]
  generalize m.runGuarded _ = run at hrun
  generalize n.runGuarded _ = run' at hrun
  obtain ⟨last, polls, result⟩ := run
  obtain ⟨last', polls', result'⟩ := run'
  obtain ⟨hlast, rfl, rfl⟩ := hrun
  have hpc : last.computer.pc = last'.computer.pc :=
    congrArg Computer.pc (hq.alike _ _ hlast).computer_eq
  cases result with
  | error fault => exact ⟨hlast, rfl⟩
  | ok stop =>
      cases stop with
      | cancelled =>
          refine ⟨?_, rfl⟩
          simp only [finishRun, hpc]
          exact hq.note _ _ _ hlast
      | halted | breakpoint address | budgetExhausted => exact ⟨hlast, rfl⟩

end

end Machine

end BasicComputer
