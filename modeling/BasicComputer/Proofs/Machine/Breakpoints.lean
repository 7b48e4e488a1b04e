import BasicComputer.Proofs.Machine.Course
import Mathlib.Data.List.Induction

/-! # Breakpoints

No run fetches from a breakpoint that was not reported before, and a report tells where the machine is.
What the machine remembers of the last report is true for as long as it remembers it. -/

namespace BasicComputer

/-- The next pulse begins the instruction cycle at an address. -/
structure Computer.FetchesAt (c : Computer) (a : Address) : Prop where
  running : c.s = false
  boundary : c.sc = 0
  r_eq : c.r = false
  pc_eq : c.pc = a

theorem Computer.FetchesAt.fetches {c : Computer} {a : Address} (h : c.FetchesAt a) :
    c.fetches = true := by
  simp [Computer.fetches, Computer.atBoundary, h.running, h.boundary, h.r_eq]

namespace Machine

variable {m : Machine} {a : Address}

theorem atBreakpoint_iff (h : m.computer.FetchesAt a) :
    m.atBreakpoint = true ↔ m.breakpoints.contains a.word = true := by
  simp [atBreakpoint, Computer.atBoundary, h.boundary, h.r_eq, h.pc_eq]

theorem fetchesAt_of_atBreakpoint (hs : m.computer.s = false) (hb : m.atBreakpoint = true) :
    m.computer.FetchesAt m.computer.pc ∧ m.breakpoints.contains m.computer.pc.word = true := by
  simp only [atBreakpoint, Computer.atBoundary, Bool.and_eq_true, beq_iff_eq,
    Bool.not_eq_true'] at hb
  exact ⟨⟨hs, hb.1.1, hb.1.2, rfl⟩, hb.2⟩

/-! ## What the machine remembers -/

/-- The machine is still where it paused. -/
def Remembers (m : Machine) : Prop := ∀ a, m.pausedAt = some a → m.computer.FetchesAt a

theorem remembers_of_none (h : m.pausedAt = none) : m.Remembers := by
  intro a ha
  rw [h] at ha
  cases ha

/-- A pulse from where the machine paused is the fetch that it was waiting for. -/
theorem Remembers.pausedAt_pulse (h : m.Remembers) : m.pulse.1.pausedAt = none := by
  change (if m.computer.fetches then none else m.pausedAt) = none
  cases hp : m.pausedAt with
  | none => simp
  | some a => rw [if_pos (h a hp).fetches]

theorem Remembers.pausedAt_step (h : m.Remembers) : m.step.1.pausedAt = none :=
  step_attains (Q := fun m => m.pausedAt = none) (fun _ hm => hm.pausedAt_pulse)
    (fun _ hm => remembers_of_none hm) h

theorem pausedAt_pass (m : Machine) :
    m.pass.pausedAt = if m.atBreakpoint then none else m.pausedAt := by
  unfold pass
  split <;> rfl

theorem Remembers.pass (h : m.Remembers) : m.pass.Remembers := by
  intro a ha
  rw [pausedAt_pass] at ha
  split at ha
  · cases ha
  · rw [computer_pass]
    exact h a ha

theorem kept_remembers : Kept Remembers where
  pulse _ h := remembers_of_none h.pausedAt_pulse
  pass _ h := h.pass
  pause m hs hb _ := by
    rintro a ⟨⟩
    exact (fetchesAt_of_atBreakpoint hs hb).1
  note _ _ h := h

theorem Reachable.remembers (h : Reachable m) : m.Remembers := by
  induction h with
  | initial => exact remembers_of_none rfl
  | @perform m action _ ih =>
      cases action with
      | load image => exact remembers_of_none rfl
      | reset => exact remembers_of_none rfl
      | typeText text =>
          intro a ha
          obtain ⟨hs, hb, hr, hpc⟩ := ih a ha
          exact ⟨hs, hb, hr, hpc⟩
      | trace tracing => exact ih
      | drainJournal => exact ih
      | setBreakpoints addresses => exact ih
      | insertBreakpoint address => exact ih
      | eraseBreakpoint address => exact ih
      | pulse => exact kept_remembers.pulse _ ih
      | step => exact step_keeps kept_remembers.pulse ih
      | run budget => exact kept_remembers.run ih budget
      | runGuarded guard => exact kept_remembers.runGuarded ih guard

/-! ## The course of a run -/

theorem breakpoints_pass (m : Machine) : m.pass.breakpoints = m.breakpoints := by
  unfold pass
  split <;> rfl

theorem MayGoOn.pausedAt (hm : m.MayGoOn) (hx : m.computer.FetchesAt a)
    (hb : m.breakpoints.contains a.word = true) : m.pausedAt = some a := by
  rw [hm.2 ((atBreakpoint_iff hx).mpr hb), hx.pc_eq]

section

variable {holds : Nat → Machine → Bool} {left polls : Nat} {steps : List Machine} {run : Run}

/-- A step that sets out to fetch from a breakpoint is the first of its run, and the machine is paused
there: after a step nothing is remembered. -/
theorem Course.fetch (h : Course holds m left polls steps run) (hm : m.Remembers) {i : Nat}
    {x : Machine} (hi : steps[i]? = some x) (hx : x.computer.FetchesAt a)
    (hb : m.breakpoints.contains a.word = true) :
    i = 0 ∧ x.computer = m.computer ∧ m.pausedAt = some a := by
  induction h generalizing i with
  | halted | paused | impatient | refused => simp at hi
  | @failed m next left polls fault hgo hg hstep =>
      cases i with
      | succ i => simp at hi
      | zero =>
          cases Option.some.inj hi
          rw [computer_pass] at hx
          exact ⟨rfl, computer_pass m, hgo.pausedAt hx hb⟩
  | @stepped m next left polls status steps run hgo hg hstep rest ih =>
      cases i with
      | zero =>
          cases Option.some.inj hi
          rw [computer_pass] at hx
          exact ⟨rfl, computer_pass m, hgo.pausedAt hx hb⟩
      | succ i =>
          have hnone : next.pausedAt = none := by simpa only [hstep] using hm.pass.pausedAt_step
          have hkeep : next.breakpoints = m.breakpoints := by
            simpa only [hstep, breakpoints_pass] using breakpoints_step m.pass
          obtain ⟨-, -, hp⟩ := ih (remembers_of_none hnone) hi (by rwa [hkeep])
          rw [hnone] at hp
          cases hp

theorem Course.report (h : Course holds m left polls steps run)
    (hr : run.result = .ok (.breakpoint a)) :
    run.machine.computer.FetchesAt a ∧ m.breakpoints.contains a.word = true ∧
      run.machine.pausedAt = some a := by
  induction h with
  | halted | impatient | refused | failed => cases hr
  | paused hs hb hp =>
      cases hr
      obtain ⟨hf, hc⟩ := fetchesAt_of_atBreakpoint hs hb
      exact ⟨hf, hc, rfl⟩
  | @stepped m next left polls status steps run hgo hg hstep rest ih =>
      have hkeep : next.breakpoints = m.breakpoints := by
        simpa only [hstep, breakpoints_pass] using breakpoints_step m.pass
      obtain ⟨hf, hc, hp⟩ := ih hr
      exact ⟨hf, hkeep ▸ hc, hp⟩

/-- What a machine remembers after a run was reported by it, or the run was called off at an address
where no breakpoint is. -/
theorem Course.remembered (h : Course holds m left polls steps run) (hm : m.Remembers)
    (hp : run.machine.pausedAt = some a) :
    run.result = .ok (.breakpoint a) ∨
      steps = [] ∧ run.result = .ok .cancelled ∧ m.pausedAt = some a := by
  have hpass {m : Machine} (hp : m.pass.pausedAt = some a) : m.pausedAt = some a := by
    rw [pausedAt_pass] at hp
    split at hp
    · cases hp
    · exact hp
  induction h with
  | halted hs =>
      have hrun := (hm a hp).running
      rw [hs] at hrun
      cases hrun
  | paused hs hb hne => exact .inl (by rw [← Option.some.inj hp])
  | impatient hgo => exact .inr ⟨rfl, rfl, hpass hp⟩
  | refused hgo hg => exact .inr ⟨rfl, rfl, hpass hp⟩
  | @failed m next left polls fault hgo hg hstep =>
      have hnone : next.pausedAt = none := by simpa only [hstep] using hm.pass.pausedAt_step
      cases hnone.symm.trans hp
  | @stepped m next left polls status steps run hgo hg hstep rest ih =>
      have hnone : next.pausedAt = none := by simpa only [hstep] using hm.pass.pausedAt_step
      rcases ih (remembers_of_none hnone) hp with hr | ⟨-, -, hnext⟩
      · exact .inl hr
      · cases hnone.symm.trans hnext

end

/-! ## Calls -/

variable {c : Call}

theorem report_of_call (hr : (m.call c).2 = .ok (.breakpoint a)) :
    (m.call c).1.computer.FetchesAt a ∧ m.breakpoints.contains a.word = true ∧
      (m.call c).1.pausedAt = some a := by
  obtain ⟨steps, run, h, hcall | ⟨-, event, hcall⟩⟩ := m.call_cases c
  · rw [hcall] at hr ⊢
    exact h.report hr
  · rw [hcall] at hr
    cases hr

theorem remembered_of_call (hm : m.Remembers) (hp : (m.call c).1.pausedAt = some a) :
    (m.call c).2 = .ok (.breakpoint a) ∨ m.CalledOff c ∧ m.pausedAt = some a := by
  obtain ⟨steps, run, h, hcall | ⟨hr, event, hcall⟩⟩ := m.call_cases c
  · rw [hcall] at hp ⊢
    rcases h.remembered hm hp with hr | ⟨rfl, hr, hp⟩
    · exact .inl hr
    · exact .inr ⟨⟨⟨run, h⟩, .inl (by rw [hcall]; exact hr)⟩, hp⟩
  · rw [hcall] at hp ⊢
    rcases h.remembered hm hp with hr' | ⟨rfl, -, hp⟩
    · cases hr.symm.trans hr'
    · exact .inr ⟨⟨⟨run, h⟩, .inr (by rw [hcall])⟩, hp⟩

/-! ## Histories -/

def performAll (m : Machine) (actions : List Action) : Machine := actions.foldl perform m

theorem performAll_snoc (m : Machine) (actions : List Action) (action : Action) :
    m.performAll (actions ++ [action]) = (m.performAll actions).perform action := by
  simp [performAll]

/-- The reachable machines are the ends of the histories. -/
theorem reachable_iff : Reachable m ↔ ∃ past, initial.performAll past = m := by
  constructor
  · intro h
    induction h with
    | initial => exact ⟨[], rfl⟩
    | perform action _ ih =>
        obtain ⟨past, rfl⟩ := ih
        exact ⟨past ++ [action], performAll_snoc ..⟩
  · rintro ⟨past, rfl⟩
    induction past using List.reverseRecOn with
    | nil => exact .initial
    | append_singleton past action ih =>
        rw [performAll_snoc]
        exact ih.perform action

/-- The action makes no pulse, and neither loads nor resets. A call among such actions is called off. -/
def Idle (m : Machine) : Action → Prop
  | .load _ | .reset | .pulse | .step => False
  | .run budget => m.CalledOff (.run budget)
  | .runGuarded guard => m.CalledOff (.runGuarded guard)
  | .typeText _ | .trace _ | .drainJournal | .setBreakpoints _ | .insertBreakpoint _
  | .eraseBreakpoint _ => True

/-- In a history the machine reported this breakpoint, and everything it did since was idle. -/
inductive LastReport (a : Address) : List Action → Prop
  | reported {past : List Action} {c : Call}
      (h : ((initial.performAll past).call c).2 = .ok (.breakpoint a)) :
      LastReport a (past ++ [c.action])
  | idle {past : List Action} {action : Action} (h : LastReport a past)
      (hi : (initial.performAll past).Idle action) : LastReport a (past ++ [action])

/-- What a machine remembers is its last report. -/
theorem lastReport_of_pausedAt {past : List Action}
    (hp : (initial.performAll past).pausedAt = some a) : LastReport a past := by
  induction past using List.reverseRecOn with
  | nil => cases hp
  | append_singleton past action ih =>
      have hm := (reachable_iff.mpr ⟨past, rfl⟩).remembers
      have hcall (c : Call) (hc : c.action = action)
          (hi : (initial.performAll past).CalledOff c → (initial.performAll past).Idle action) :
          LastReport a (past ++ [action]) := by
        rw [performAll_snoc, ← hc, perform_action] at hp
        rcases remembered_of_call hm hp with hr | ⟨hoff, hp⟩
        · exact hc ▸ .reported hr
        · exact .idle (ih hp) (hi hoff)
      rw [performAll_snoc] at hp
      cases action with
      | load image => cases hp
      | reset => cases hp
      | pulse => cases hm.pausedAt_pulse.symm.trans hp
      | step => cases hm.pausedAt_step.symm.trans hp
      | run budget => exact hcall (.run budget) rfl id
      | runGuarded guard => exact hcall (.runGuarded guard) rfl id
      | _ => exact .idle (ih hp) trivial

/-- Breakpoints in every history, and in every call that may come next: what the machine remembers is
true, a report tells where it stands, and a pulse of the call begins an instruction cycle at a breakpoint
only as the call's first pulse, after the breakpoint was the last one reported. -/
theorem breakpoints_honoured (past : List Action) :
    let m := initial.performAll past
    m.Remembers ∧ ∀ c : Call,
      (∀ a, (m.call c).2 = .ok (.breakpoint a) →
        m.breakpoints.contains a.word = true ∧ (m.call c).1.computer.FetchesAt a) ∧
      (∃ steps, m.Steps c steps) ∧
      ∀ steps, m.Steps c steps → ∀ i x n k a, steps[i]? = some x → x.StepsIn n → k < n →
        (x.afterPulses k).computer.FetchesAt a → m.breakpoints.contains a.word = true →
        i = 0 ∧ k = 0 ∧ x.computer = m.computer ∧ LastReport a past := by
  intro m
  have hm : m.Remembers := (reachable_iff.mpr ⟨past, rfl⟩).remembers
  refine ⟨hm, fun c => ⟨fun a hr => ?_, ?_, ?_⟩⟩
  · obtain ⟨hf, hb, -⟩ := report_of_call hr
    exact ⟨hb, hf⟩
  · obtain ⟨steps, run, h, -⟩ := m.call_cases c
    exact ⟨steps, run, h⟩
  · rintro steps ⟨run, h⟩ i x n k a hi hn hk hx hb
    -- Within a step, only the first pulse can begin a cycle.
    have hfirst : k = 0 := by
      by_contra hne
      exact hn.within k (Nat.pos_of_ne_zero hne) hk hx.boundary
    subst hfirst
    obtain ⟨hzero, hcomputer, hp⟩ := h.fetch hm hi hx hb
    exact ⟨hzero, rfl, hcomputer, lastReport_of_pausedAt hp⟩

/-- The machine remembers a report through a call that is called off while the breakpoint is erased:
where it is set again, the next call passes it although the last call reported another stop. -/
theorem fetch_after_calledOff :
    let unreported := initial.perform (.insertBreakpoint 0)
    let erased := (unreported.call (.run 1)).1.perform (.eraseBreakpoint 0)
    let restored := (erased.call (.run 0)).1.perform (.insertBreakpoint 0)
    (unreported.call (.run 1)).2 = .ok (.breakpoint 0) ∧
      (erased.call (.run 0)).2 = .ok .budgetExhausted ∧
      restored.breakpoints.contains 0 = true ∧
      ∃ x steps, restored.Steps (.run 1) (x :: steps) ∧ x.computer.FetchesAt 0 := by
  intro unreported erased restored
  refine ⟨rfl, rfl, rfl, restored.pass, ?_⟩
  have hf : restored.pass.computer.FetchesAt 0 := by
    rw [computer_pass]
    exact ⟨rfl, rfl, rfl, rfl⟩
  have hgo : restored.MayGoOn := ⟨rfl, fun _ => rfl⟩
  have hg : (Guard.ofBudget restored.computer.cycles 1).holds 1 restored.pass = true := by
    simp [Guard.ofBudget]
  cases hstep : restored.pass.step with
  | mk next result =>
      cases result with
      | error fault => exact ⟨[], ⟨_, .failed hgo hg hstep⟩, hf⟩
      | ok status =>
          obtain ⟨steps, h⟩ := exists_course next (Guard.ofBudget restored.computer.cycles 1).holds 0 1
          exact ⟨steps, ⟨_, .stepped hgo hg hstep h⟩, hf⟩

end Machine

end BasicComputer
