import BasicComputer.Proofs.Machine.Breakpoints
import BasicComputer.Proofs.Machine.Pausing

/-! # Budgets

A run asks its guard about every machine that a step sets out from, and once more where the guard calls it
off; nothing else that the guard could say has a part in the run. Of a budget, every such step uses up one
cycle. What it leaves the machine at the end decides the reason that is given, and a budget may be spent in
two calls as well as in one. -/

namespace BasicComputer

namespace Machine

variable {m n : Machine}

/-! ## Polls -/

section

variable {holds holds' : Nat → Machine → Bool} {left left' polls polls' : Nat}
  {steps steps' : List Machine} {run run' : Run}

/-- Whether the last poll of a run was answered no. -/
def refusals (run : Run) : Nat :=
  match run.result with
  | .ok .cancelled => 1
  | _ => 0

/-- What the guard has to answer in a run. It is asked as often as steps set out, each time about the
machine that the step sets out from, and once more if it calls the run off. -/
structure Answers (holds : Nat → Machine → Bool) (left polls : Nat) (steps : List Machine)
    (run : Run) : Prop where
  yes : ∀ i x, steps[i]? = some x → i < left ∧ holds (polls + i + 1) x = true
  no : run.result = .ok .cancelled → steps.length < left →
    holds (polls + steps.length + 1) run.machine = false

theorem Course.polls_eq (h : Course holds m left polls steps run) :
    run.polls = polls + steps.length + refusals run := by
  induction h with
  | halted | paused | impatient | refused | failed => rfl
  | stepped hgo hg hstep rest ih =>
      rw [ih, List.length_cons]
      omega

theorem Course.answers (h : Course holds m left polls steps run) :
    Answers holds left polls steps run := by
  induction h with
  | halted | paused => exact ⟨by simp, fun hr => by cases hr⟩
  | impatient => exact ⟨by simp, fun _ hlt => absurd hlt (Nat.not_lt_zero _)⟩
  | refused hgo hg => exact ⟨by simp, fun _ _ => hg⟩
  | failed hgo hg hstep =>
      refine ⟨fun i x hi => ?_, fun hr => by cases hr⟩
      obtain ⟨rfl, rfl⟩ : i = 0 ∧ _ = x := by simpa [List.getElem?_singleton] using hi
      exact ⟨Nat.succ_pos _, hg⟩
  | @stepped m next left polls status steps run hgo hg hstep rest ih =>
      refine ⟨fun i x hi => ?_, fun hr hlt => ?_⟩
      · cases i with
        | zero =>
            cases Option.some.inj hi
            exact ⟨Nat.succ_pos _, hg⟩
        | succ i =>
            obtain ⟨hlt, hyes⟩ := ih.yes i x hi
            rw [Nat.add_right_comm polls 1 i] at hyes
            exact ⟨Nat.succ_lt_succ hlt, hyes⟩
      · have hno := ih.no hr (Nat.lt_of_succ_lt_succ hlt)
        rwa [Nat.add_right_comm polls 1] at hno

/-- A guard that answers where it is asked as the run's guard did makes the same run, whatever it would
say elsewhere. -/
theorem Course.of_answers (h : Course holds m left polls steps run)
    (h' : Answers holds' left' polls' steps run) :
    Course holds' m left' polls' steps
      { run with polls := polls' + steps.length + refusals run } := by
  induction h generalizing left' polls' with
  | halted hs => exact .halted hs
  | paused hs hb hp => exact .paused hs hb hp
  | impatient hgo | refused hgo hg =>
      cases left' with
      | zero => exact .impatient hgo
      | succ left' => exact .refused hgo (h'.no rfl (Nat.succ_pos _))
  | failed hgo hg hstep =>
      obtain ⟨hlt, hyes⟩ := h'.yes 0 _ rfl
      obtain ⟨left', rfl⟩ := Nat.exists_eq_add_of_le' hlt
      exact .failed hgo hyes hstep
  | @stepped m next left polls status steps run hgo hg hstep rest ih =>
      obtain ⟨hlt, hyes⟩ := h'.yes 0 _ rfl
      obtain ⟨left', rfl⟩ := Nat.exists_eq_add_of_le' hlt
      have hrest : Answers holds' left' (polls' + 1) steps run := by
        refine ⟨fun i x hi => ?_, fun hr hlt => ?_⟩
        · obtain ⟨hlt, hyes⟩ := h'.yes (i + 1) x hi
          rw [Nat.add_right_comm polls' 1 i]
          exact ⟨Nat.lt_of_succ_lt_succ hlt, hyes⟩
        · rw [Nat.add_right_comm polls' 1]
          exact h'.no hr (Nat.succ_lt_succ hlt)
      have h := Course.stepped hgo hyes hstep (ih hrest)
      rwa [Nat.add_right_comm polls' 1 steps.length] at h

end

/-! ## Where a run arrives -/

/-- Steps without an error lead to the last machine. -/
inductive Advance : Machine → List Machine → Machine → Prop
  | here (m : Machine) : Advance m [] m
  | step {m next last : Machine} {status : Status} {steps : List Machine} (hm : m.MayGoOn)
      (h : m.pass.step = (next, .ok status)) (rest : Advance next steps last) :
      Advance m (m.pass :: steps) last

/-- The reason to end a run at a machine, and the machine that the run leaves. -/
inductive Ending (m : Machine) : Machine → Stop → Prop
  | halted (hs : m.computer.s = true) : Ending m m .halted
  | paused (hs : m.computer.s = false) (hb : m.atBreakpoint = true)
      (hp : m.pausedAt ≠ some m.computer.pc) : Ending m m.pause (.breakpoint m.computer.pc)
  | cancelled (hm : m.MayGoOn) : Ending m m.pass .cancelled

section

variable {holds : Nat → Machine → Bool} {left polls : Nat} {steps steps' : List Machine}
  {run run' : Run} {last : Machine}

theorem Course.advance (h : Course holds m left polls steps run) {stop : Stop}
    (hr : run.result = .ok stop) : ∃ last, Advance m steps last ∧ Ending last run.machine stop := by
  induction h with
  | @halted m left polls hs =>
      cases hr
      exact ⟨m, .here m, .halted hs⟩
  | @paused m left polls hs hb hp =>
      cases hr
      exact ⟨m, .here m, .paused hs hb hp⟩
  | @impatient m polls hgo =>
      cases hr
      exact ⟨m, .here m, .cancelled hgo⟩
  | @refused m left polls hgo hg =>
      cases hr
      exact ⟨m, .here m, .cancelled hgo⟩
  | failed => cases hr
  | stepped hgo hg hstep rest ih =>
      obtain ⟨last, hadvance, hending⟩ := ih hr
      exact ⟨last, .step hgo hstep hadvance, hending⟩

/-- A run goes on from where its first steps lead, if the guard allows these. -/
theorem Advance.append (h : Advance m steps last)
    (hyes : ∀ i x, steps[i]? = some x → holds (polls + i + 1) x = true)
    (rest : Course holds last left (polls + steps.length) steps' run) :
    Course holds m (left + steps.length) polls (steps ++ steps') run := by
  induction h generalizing polls with
  | here m => exact rest
  | @step m next last status steps hm hstep h ih =>
      refine .stepped hm (hyes 0 _ rfl) hstep (ih (fun i x hi => ?_) ?_)
      · rw [Nat.add_right_comm polls 1 i]
        exact hyes (i + 1) x hi
      · rwa [Nat.add_right_comm polls 1 steps.length]

theorem Alike.step_pass (h : m.Alike n) (hm : m.Remembers) : m.pass.step.1.Alike n.step.1 := by
  have hn : n.Remembers := by
    intro a ha
    rw [← h.computer_eq]
    exact hm a (h.pausedAt_eq.trans ha)
  refine ⟨(step_pass_congr h.computer_eq rfl).1, ?_, ?_⟩
  · rw [breakpoints_step, breakpoints_step, breakpoints_pass, h.breakpoints_eq]
  · rw [hm.pass.pausedAt_step, hn.pausedAt_step]

theorem Advance.alike (h : Advance m steps last) (hm : m.Remembers) (hn : m.Alike n) :
    last.Alike (n.afterSteps steps.length) := by
  induction h generalizing n with
  | here => exact hn
  | @step m next last status steps hgo hstep rest ih =>
      have hnext := hn.step_pass hm
      have hnone := hm.pass.pausedAt_step
      rw [hstep] at hnext hnone
      exact ih (remembers_of_none hnone) hnext

theorem Advance.pausedAt (h : Advance m steps last) (hm : m.Remembers) (hne : steps ≠ []) :
    last.pausedAt = none := by
  induction h with
  | here => exact absurd rfl hne
  | @step m next last status steps hgo hstep rest ih =>
      have hnone := hm.pass.pausedAt_step
      rw [hstep] at hnone
      cases rest with
      | here => exact hnone
      | step => exact ih (remembers_of_none hnone) (List.cons_ne_nil _ _)

/-- The steps of a run set out at consecutive numbers of cycles. -/
theorem Course.cycles_getElem? (h : Course holds m left polls steps run) {i : Nat} {x : Machine}
    (hi : steps[i]? = some x) : x.computer.cycles = m.computer.cycles + i := by
  induction h generalizing i with
  | halted | paused | impatient | refused => simp at hi
  | @failed m next left polls fault hgo hg hstep =>
      obtain ⟨rfl, rfl⟩ : i = 0 ∧ _ = x := by simpa [List.getElem?_singleton] using hi
      exact congrArg Computer.cycles (computer_pass m)
  | @stepped m next left polls status steps run hgo hg hstep rest ih =>
      cases i with
      | zero =>
          cases Option.some.inj hi
          exact congrArg Computer.cycles (computer_pass m)
      | succ i =>
          have hnext := ih hi
          have hcycles := hgo.completes hstep
          omega

end

/-! ## Spending a budget -/

/-- The reason that a run gives when it arrives at the machine with its budget spent. A halt, or a
breakpoint that is still to be reported, comes before the budget. -/
def reasonWhenSpent (m : Machine) : Stop :=
  if m.computer.s then .halted
  else if m.atBreakpoint && m.pausedAt != some m.computer.pc then .breakpoint m.computer.pc
  else .budgetExhausted

theorem Alike.reasonWhenSpent_eq (h : m.Alike n) : m.reasonWhenSpent = n.reasonWhenSpent := by
  simp only [reasonWhenSpent, h.computer_eq, h.atBreakpoint_eq, h.pausedAt_eq]

theorem reasonWhenSpent_eq_budgetExhausted_iff :
    m.reasonWhenSpent = .budgetExhausted ↔ m.MayGoOn := by
  rw [mayGoOn_iff, reasonWhenSpent]
  cases m.computer.s <;> cases (m.atBreakpoint && m.pausedAt != some m.computer.pc) <;> simp

theorem reasonWhenSpent_of_ending {end_ : Machine} {stop : Stop} (h : Ending m end_ stop) :
    m.reasonWhenSpent = if stop = .cancelled then .budgetExhausted else stop := by
  cases h with
  | halted hs => simp [reasonWhenSpent, hs]
  | paused hs hb hp => simp [reasonWhenSpent, hs, hb, hp]
  | cancelled hm => simpa using reasonWhenSpent_eq_budgetExhausted_iff.mpr hm

theorem Ending.ne_budgetExhausted {end_ : Machine} {stop : Stop} (h : Ending m end_ stop) :
    stop ≠ .budgetExhausted := by
  cases h <;> simp

theorem result_finishRun {run : Run} {stop : Stop} (budget : Nat) (hr : run.result = .ok stop) :
    (finishRun budget run).2 = .ok (if stop = .cancelled then .budgetExhausted else stop) := by
  obtain ⟨last, polls, result⟩ := run
  cases hr
  cases stop <;> rfl

theorem fault_finishRun {run : Run} {fault : DecodeFault} (budget : Nat)
    (hr : run.result = .error fault) : (finishRun budget run).2 = .error fault := by
  obtain ⟨last, polls, result⟩ := run
  cases hr
  rfl

theorem alike_finishRun (budget : Nat) (run : Run) : (finishRun budget run).1.Alike run.machine := by
  rcases finishRun_cases budget run with h | ⟨-, event, h⟩ <;> rw [h]
  · exact ⟨rfl, rfl, rfl⟩
  · exact alike_note _ _

theorem Course.cancelled_of_exhausted {holds : Nat → Machine → Bool} {left polls budget : Nat}
    {steps : List Machine} {run : Run} (h : Course holds m left polls steps run)
    (hr : (finishRun budget run).2 = .ok .budgetExhausted) : run.result = .ok .cancelled := by
  cases hresult : run.result with
  | error fault =>
      rw [fault_finishRun budget hresult] at hr
      cases hr
  | ok stop =>
      obtain ⟨last, -, hending⟩ := h.advance hresult
      rw [result_finishRun budget hresult, Except.ok.injEq] at hr
      split at hr
      next hcancelled => rw [hcancelled]
      next => exact absurd hr hending.ne_budgetExhausted

/-- A run that is called off has spent its budget. -/
theorem Course.spent {budget : Nat} {steps : List Machine} {run : Run}
    (h : Course (Guard.ofBudget m.computer.cycles budget).holds m budget 0 steps run)
    (hr : run.result = .ok .cancelled) : steps.length = budget := by
  refine Nat.le_antisymm h.length_le (Nat.le_of_not_lt fun hlt => ?_)
  have hno := h.answers.no hr hlt
  have hcycles := (h.cycles_eq hr rfl).1
  simp only [Guard.ofBudget, decide_eq_false_iff_not] at hno
  omega

/-- How a run ends: it is refused a word before its budget is spent, or arrives somewhere, and is out of
budget only where it has spent all of it. -/
theorem Remembers.run_cases (hm : m.Remembers) (budget : Nat) :
    (∃ fault k, (m.run budget).2 = .error fault ∧ k < budget ∧
        (m.run budget).1.computer.cycles = m.computer.cycles + k) ∨
      ∃ k, (m.run budget).2 = .ok (m.afterSteps k).reasonWhenSpent ∧ k ≤ budget ∧
        (m.run budget).1.computer.cycles = m.computer.cycles + k ∧
        (m.run budget).1.computer = (m.afterSteps k).computer ∧
        ((m.run budget).2 = .ok .budgetExhausted → k = budget) := by
  obtain ⟨steps, h⟩ :=
    exists_course m (Guard.ofBudget m.computer.cycles budget).holds budget 0
  rw [run_eq]
  change Course _ m budget 0 steps (m.runGuarded (.ofBudget m.computer.cycles budget)) at h
  generalize m.runGuarded (.ofBudget m.computer.cycles budget) = run at h
  have hcomputer := (alike_finishRun budget run).computer_eq
  have hle := h.length_le
  rw [hcomputer]
  cases hr : run.result with
  | error fault =>
      obtain ⟨k, hk, hcycles, -, -⟩ := h.fault_eq hr rfl
      exact .inl ⟨fault, k, fault_finishRun budget hr, by omega, hcycles⟩
  | ok stop =>
      obtain ⟨last, hadvance, hending⟩ := h.advance hr
      have hreason := reasonWhenSpent_of_ending hending
      rw [(hadvance.alike hm ⟨rfl, rfl, rfl⟩).reasonWhenSpent_eq] at hreason
      refine .inr ⟨steps.length, ?_, hle, (h.cycles_eq hr rfl).1, h.computer_eq rfl,
        fun hspent => h.spent (h.cancelled_of_exhausted hspent)⟩
      rw [result_finishRun budget hr, hreason]

/-- What a budget is to a run. The machine that the budget leads to is `m.afterSteps budget`; whether it
has a breakpoint to report can be seen at the machine's return, unless the budget was nothing. -/
structure BudgetSpec (m : Machine) (budget : Nat) : Prop where
  cycles_le : (m.run budget).1.computer.cycles ≤ m.computer.cycles + budget
  exhausted_iff : (m.run budget).2 = .ok .budgetExhausted ↔
    (m.run budget).1.computer.cycles = m.computer.cycles + budget ∧ (m.afterSteps budget).MayGoOn
  exhausted_iff_at_return : 1 ≤ budget → ((m.run budget).2 = .ok .budgetExhausted ↔
    (m.run budget).1.computer.cycles = m.computer.cycles + budget ∧
      (m.run budget).1.computer.s = false ∧ (m.run budget).1.atBreakpoint = false)
  last_step : (m.run budget).1.computer.cycles = m.computer.cycles + budget →
    (m.run budget).1.computer = (m.afterSteps budget).computer ∧
      (m.run budget).2 = .ok (m.afterSteps budget).reasonWhenSpent
  patience : ∀ patience, budget ≤ patience →
    m.runGuarded { Guard.ofBudget m.computer.cycles budget with patience } =
      m.runGuarded (.ofBudget m.computer.cycles budget)

/-- The budget alone ends a run, however patient its guard. -/
theorem runGuarded_of_patience {budget patience : Nat} (h : budget ≤ patience) :
    m.runGuarded { Guard.ofBudget m.computer.cycles budget with patience } =
      m.runGuarded (.ofBudget m.computer.cycles budget) := by
  obtain ⟨steps, hcourse⟩ :=
    exists_course m (Guard.ofBudget m.computer.cycles budget).holds budget 0
  change Course _ m budget 0 steps (m.runGuarded (.ofBudget m.computer.cycles budget)) at hcourse
  have hanswers : Answers (Guard.ofBudget m.computer.cycles budget).holds patience 0 steps
      (m.runGuarded (.ofBudget m.computer.cycles budget)) := by
    refine ⟨fun i x hi => ?_, fun hr hlt => ?_⟩
    · obtain ⟨hlt, hyes⟩ := hcourse.answers.yes i x hi
      exact ⟨Nat.lt_of_lt_of_le hlt h, hyes⟩
    · have hspent := hcourse.spent hr
      have hcycles := (hcourse.cycles_eq hr rfl).1
      simp only [Guard.ofBudget, decide_eq_false_iff_not] at hcycles ⊢
      omega
  refine (hcourse.of_answers hanswers).run_eq.trans ?_
  rw [← hcourse.polls_eq]

theorem Remembers.exhausted_iff (hm : m.Remembers) (budget : Nat) :
    (m.run budget).2 = .ok .budgetExhausted ↔
      (m.run budget).1.computer.cycles = m.computer.cycles + budget ∧
        (m.afterSteps budget).MayGoOn := by
  rcases hm.run_cases budget with ⟨fault, k, hr, hlt, hcycles⟩ | ⟨k, hr, hle, hcycles, -, hspent⟩
  · refine ⟨fun h => ?_, fun h => absurd h.1 (by omega)⟩
    cases hr.symm.trans h
  · refine ⟨fun h => ?_, fun h => ?_⟩
    · obtain rfl := hspent h
      rw [hr, Except.ok.injEq] at h
      exact ⟨hcycles, reasonWhenSpent_eq_budgetExhausted_iff.mp h⟩
    · obtain rfl : k = budget := by omega
      rw [hr, reasonWhenSpent_eq_budgetExhausted_iff.mpr h.2]

theorem Remembers.last_step (hm : m.Remembers) {budget : Nat}
    (h : (m.run budget).1.computer.cycles = m.computer.cycles + budget) :
    (m.run budget).1.computer = (m.afterSteps budget).computer ∧
      (m.run budget).2 = .ok (m.afterSteps budget).reasonWhenSpent := by
  rcases hm.run_cases budget with ⟨fault, k, hr, hlt, hcycles⟩ | ⟨k, hr, hle, hcycles, hc, -⟩
  · omega
  · obtain rfl : k = budget := by omega
    exact ⟨hc, hr⟩

theorem kept_breakpoints (breakpoints : Breakpoints) : Kept fun n => n.breakpoints = breakpoints where
  pulse _ h := h
  pass m h := (breakpoints_pass m).trans h
  pause _ _ _ h := h
  note _ _ h := h

theorem breakpoints_afterSteps (m : Machine) (k : Nat) :
    (m.afterSteps k).breakpoints = m.breakpoints := by
  induction k with
  | zero => rfl
  | succ k ih => rw [afterSteps_succ, breakpoints_step, ih]

theorem Remembers.pausedAt_afterSteps (hm : m.Remembers) (k : Nat) :
    (m.afterSteps (k + 1)).pausedAt = none := by
  induction k with
  | zero => exact hm.pausedAt_step
  | succ k ih =>
      rw [afterSteps_succ]
      exact (remembers_of_none ih).pausedAt_step

/-- After a step there is no pause to remember, so a breakpoint there is one to report. -/
theorem Remembers.mayGoOn_afterSteps_iff (hm : m.Remembers) {budget : Nat} (hpos : 1 ≤ budget)
    (h : (m.run budget).1.computer = (m.afterSteps budget).computer) :
    (m.afterSteps budget).MayGoOn ↔
      (m.run budget).1.computer.s = false ∧ (m.run budget).1.atBreakpoint = false := by
  obtain ⟨k, rfl⟩ := Nat.exists_eq_add_of_le' hpos
  have hat : (m.run (k + 1)).1.atBreakpoint = (m.afterSteps (k + 1)).atBreakpoint := by
    rw [atBreakpoint, atBreakpoint, h, breakpoints_afterSteps,
      (kept_breakpoints m.breakpoints).run rfl]
  rw [MayGoOn, h, hat, hm.pausedAt_afterSteps k]
  simp

theorem Remembers.budget_spec (hm : m.Remembers) (budget : Nat) : m.BudgetSpec budget where
  cycles_le := by
    rcases hm.run_cases budget with ⟨_, k, -, _, hcycles⟩ | ⟨k, -, _, hcycles, -⟩ <;> omega
  exhausted_iff := hm.exhausted_iff budget
  exhausted_iff_at_return hpos := by
    refine (hm.exhausted_iff budget).trans (and_congr_right fun h => ?_)
    exact hm.mayGoOn_afterSteps_iff hpos (hm.last_step h).1
  last_step := hm.last_step
  patience _ := runGuarded_of_patience

/-! ## Spending it in two calls -/

theorem result_finishRun_congr {run run' : Run} (h : run.result = run'.result)
    (budget budget' : Nat) : (finishRun budget run).2 = (finishRun budget' run').2 := by
  cases hr : run.result with
  | error fault => rw [fault_finishRun budget hr, fault_finishRun budget' (h.symm.trans hr)]
  | ok stop => rw [result_finishRun budget hr, result_finishRun budget' (h.symm.trans hr)]

theorem Ending.eq_pass {end_ : Machine} (h : Ending m end_ .cancelled) :
    m.MayGoOn ∧ end_ = m.pass := by
  cases h with
  | cancelled hm => exact ⟨hm, rfl⟩

/-- Where nothing is remembered there is no breakpoint to pass. -/
theorem MayGoOn.pass_eq (hm : m.MayGoOn) (hp : m.pausedAt = none) : m.pass = m := by
  have hb : m.atBreakpoint = false := by
    by_contra hb
    have h := hm.2 (by simpa using hb)
    rw [hp] at h
    cases h
  simp [Machine.pass, hb]

/-- From where the steps of one budget lead, a run with another budget goes on as a run with both budgets
would. -/
theorem Advance.runGuarded_add {steps : List Machine} {last : Machine} {a : Nat} (b : Nat)
    (h : Advance m steps last) (hlast : last.computer.cycles = m.computer.cycles + steps.length)
    (hsteps : ∀ i x, steps[i]? = some x → x.computer.cycles = m.computer.cycles + i)
    (ha : steps.length = a) :
    let both := m.runGuarded (.ofBudget m.computer.cycles (a + b))
    let rest := last.runGuarded (.ofBudget last.computer.cycles b)
    both.machine = rest.machine ∧ both.result = rest.result := by
  intro both rest
  subst ha
  obtain ⟨steps', h'⟩ := exists_course last (Guard.ofBudget last.computer.cycles b).holds b 0
  change Course _ last b 0 steps' rest at h'
  have hanswers : Answers (Guard.ofBudget m.computer.cycles (steps.length + b)).holds b
      (0 + steps.length) steps' rest := by
    refine ⟨fun i x hi => ?_, fun hr hlt => absurd (h'.spent hr) (Nat.ne_of_lt hlt)⟩
    have hlt := (h'.answers.yes i x hi).1
    have hx := h'.cycles_getElem? hi
    refine ⟨hlt, ?_⟩
    simp only [Guard.ofBudget, decide_eq_true_eq]
    omega
  have hyes (i : Nat) (x : Machine) (hi : steps[i]? = some x) :
      (Guard.ofBudget m.computer.cycles (steps.length + b)).holds (0 + i + 1) x = true := by
    have hlt : i < steps.length := (List.getElem?_eq_some_iff.mp hi).1
    have hx := hsteps i x hi
    simp only [Guard.ofBudget, decide_eq_true_eq]
    omega
  have hboth := (h.append hyes (h'.of_answers hanswers)).run_eq
  rw [Nat.add_comm b] at hboth
  exact ⟨(congrArg Run.machine hboth : both.machine = _),
    (congrArg Run.result hboth : both.result = _)⟩

/-- After a run that was out of budget, a second run goes on as a run with both budgets would. The first
budget must allow a step: a run that is called off before its first step may forget a pause. -/
theorem Remembers.run_add (hm : m.Remembers) {a : Nat} (b : Nat) (ha : 1 ≤ a)
    (hr : (m.run a).2 = .ok .budgetExhausted) :
    ((m.run a).1.run b).2 = (m.run (a + b)).2 ∧ ((m.run a).1.run b).1.Alike (m.run (a + b)).1 := by
  obtain ⟨steps, h⟩ := exists_course m (Guard.ofBudget m.computer.cycles a).holds a 0
  rw [run_eq m a] at hr ⊢
  change Course _ m a 0 steps (m.runGuarded (.ofBudget m.computer.cycles a)) at h
  generalize m.runGuarded (.ofBudget m.computer.cycles a) = run at h hr
  have hcancelled := h.cancelled_of_exhausted hr
  have hspent := h.spent hcancelled
  obtain ⟨last, hadvance, hending⟩ := h.advance hcancelled
  obtain ⟨hgo, hlast⟩ := hending.eq_pass
  rw [hgo.pass_eq (hadvance.pausedAt hm (List.ne_nil_of_length_pos (by omega)))] at hlast
  have hcycles := (h.cycles_eq hcancelled rfl).1
  rw [hlast] at hcycles
  obtain ⟨hmachine, hresult⟩ :=
    hadvance.runGuarded_add b hcycles (fun i x hi => h.cycles_getElem? hi) hspent
  obtain ⟨halike, hreport⟩ := coupled_alike.run (hlast ▸ alike_finishRun a run) b
  rw [run_eq m, hreport, run_eq last]
  rw [run_eq last] at halike
  refine ⟨result_finishRun_congr hresult.symm _ _, halike.trans ?_⟩
  exact (alike_finishRun b _).trans (hmachine ▸ (alike_finishRun (a + b) _).symm)

/-- How often a run polls its guard: once before each of its steps, about the machine that the step sets
out from, and once more where it is cancelled. No other answer of the guard has a part in the run. -/
structure PollSpec (m : Machine) (guard : Guard) (steps : List Machine) : Prop where
  polls_eq : (m.runGuarded guard).polls =
    steps.length + if (m.runGuarded guard).result = .ok .cancelled then 1 else 0
  answers : Answers guard.holds guard.patience 0 steps (m.runGuarded guard)
  nowhere_else : ∀ other : Guard,
    Answers other.holds other.patience 0 steps (m.runGuarded guard) →
      m.runGuarded other = m.runGuarded guard

theorem refusals_eq (run : Run) :
    refusals run = if run.result = .ok .cancelled then 1 else 0 := by
  obtain ⟨last, polls, result⟩ := run
  cases result with
  | error fault => rfl
  | ok stop => cases stop <;> rfl

theorem exists_pollSpec (m : Machine) (guard : Guard) :
    ∃ steps, m.Steps (.runGuarded guard) steps ∧ m.PollSpec guard steps := by
  obtain ⟨steps, h⟩ := exists_course m guard.holds guard.patience 0
  change Course _ m _ 0 steps (m.runGuarded guard) at h
  refine ⟨steps, ⟨_, h⟩, ?_, h.answers, fun other hother => ?_⟩
  · rw [h.polls_eq, refusals_eq, Nat.zero_add]
  · refine (h.of_answers hother).run_eq.trans ?_
    rw [← h.polls_eq]

/-- A budget bounds the cycles of a run, and is the reason for its end only where the machine could go on;
spent in two calls it is worth as much as in one. A guard of any kind is polled once before each step. -/
theorem Reachable.budgets_bound_and_compose (h : Reachable m) :
    (∀ budget, m.BudgetSpec budget) ∧
      (∀ a b, 1 ≤ a → (m.run a).2 = .ok .budgetExhausted →
        ((m.run a).1.run b).2 = (m.run (a + b)).2 ∧
          ((m.run a).1.run b).1.Alike (m.run (a + b)).1) ∧
      ∀ guard, ∃ steps, m.Steps (.runGuarded guard) steps ∧ m.PollSpec guard steps :=
  ⟨h.remembers.budget_spec, fun _ b ha hr => h.remembers.run_add b ha hr, exists_pollSpec m⟩

theorem step_unguardedStrayWord : (initial.load strayWord).pass.step =
    ((initial.load strayWord).pass.afterPulses 4, .ok .running) := by
  rw [step_eq_pulse (k := 3) rfl rfl (by rfl)]
  rfl

theorem budgets_bound_and_compose_strayWord :
    let m := initial.load strayWord
    Reachable m ∧ (m.run 1).2 = .ok .budgetExhausted ∧ (m.run 1).1.computer.cycles = 1 ∧
      ((m.run 1).1.run 5).2 = (m.run 6).2 ∧
      ((m.run 1).1.run 5).1.computer = (m.run 6).1.computer := by
  intro m
  have h : Reachable m := Reachable.initial.perform (.load strayWord)
  have hcourse : Course (Guard.ofBudget 0 1).holds m 1 0 [m.pass] _ :=
    .stepped ⟨rfl, by decide⟩ rfl step_unguardedStrayWord (.impatient ⟨by rfl, by decide⟩)
  have hrun : m.run 1 = _ := congrArg (finishRun 1) hcourse.run_eq
  have hr : (m.run 1).2 = .ok .budgetExhausted := congrArg Prod.snd hrun
  obtain ⟨hbudget, hadd, -⟩ := h.budgets_bound_and_compose
  obtain ⟨hresult, halike⟩ := hadd 1 5 (Nat.le_refl 1) hr
  exact ⟨h, hr, ((hbudget 1).exhausted_iff.mp hr).1, hresult, halike.computer_eq⟩

end Machine

end BasicComputer
