import BasicComputer.Proofs.Machine.Budget
import BasicComputer.Proofs.Machine.InstructionCycle
import BasicComputer.Proofs.Machine.Resumption
import BasicComputer.Proofs.Machine.Tracing

/-! # Decode faults

The control unit and the decoder refuse the same words. A refusal is the only fault there is: it stops the
machine in the middle of a cycle, changes nothing else, and is reported by whatever made the pulse. A
machine that has stopped stays as it is until it is loaded or reset. -/

namespace BasicComputer

namespace Computer

variable {c : Computer}

/-! ## The words that are refused -/

/-- The next pulse looks for the operation of an instruction, and the word in IR is none. -/
structure FindsStray (c : Computer) : Prop where
  cycle_eq : c.cycle = .instruction
  time : c.sc = 3
  undecodable : Instruction.decode? c.ir = none

theorem Timing.transfer?_eq_none_iff (h : c.Timing) : c.transfer? = none ↔ c.FindsStray := by
  constructor
  · intro hn
    obtain ⟨hc, hsc, ho⟩ := escape_of_transfer?_eq_none hn
    have hthree : c.sc = 3 := by
      by_contra hne
      exact h.memory_reference hc (by omega) ho
    obtain ⟨hopcode, hi⟩ := h.decoded hc hsc
    rw [transfer?_of_escape hc hthree ho, selectedTransfer?_eq_none_iff (hopcode ▸ ho) hi] at hn
    exact ⟨hc, hthree, hn⟩
  · rintro ⟨hc, hsc, hd⟩
    obtain ⟨hopcode, hi⟩ := h.decoded hc (Nat.le_of_eq hsc.symm)
    have ho : c.ir.opcode = escapeOpcode := by
      by_contra ho
      obtain ⟨op, -, hop⟩ := decode?_of_opcode_ne_escape ho
      cases hd.symm.trans hop
    rw [transfer?_of_escape hc hsc (hopcode.trans ho), selectedTransfer?_eq_none_iff ho hi]
    exact hd

theorem FindsStray.running (h : c.FindsStray) (ht : c.Timing) : c.s = false := by
  by_contra hs
  have hsc := ht.halted_sc (by simpa using hs)
  have hthree := h.time
  omega

/-- A refusal stops the computer at the boundary, and that is all it does. -/
theorem FindsStray.pulse_eq (h : c.FindsStray) (ht : c.Timing) :
    c.pulse = ⟨{ c with s := true, sc := 0 }, [.pulse .execute 3, .undecodable c.ir c.origin],
      some ⟨c.ir, c.origin⟩⟩ := by
  have hn := ht.transfer?_eq_none_iff.mpr h
  have hs := h.running ht
  have hb : c.atBoundary = false := by simp [atBoundary, h.time]
  have ho : c.opcode = escapeOpcode := (escape_of_transfer?_eq_none hn).2.2
  have hphase : c.phase = .execute := by simp [phase, h.cycle_eq, h.time, ho]
  simp [Computer.pulse, hs, hb, advance, hn, hphase, h.time, refuse]

end Computer

/-- The record of a decode fault in the log. -/
def DecodeFault.record (fault : DecodeFault) : Record :=
  .error ("Fatal: " ++ fault.message ++ ". Machine stopped.")

/-- The action makes the machine begin anew. -/
def Action.restarts : Action → Bool
  | .load _ | .reset => true
  | .typeText _ | .trace _ | .drainJournal | .setBreakpoints _ | .insertBreakpoint _
  | .eraseBreakpoint _ | .pulse | .step | .run _ | .runGuarded _ => false

namespace Machine

open Computer

variable {m : Machine} {fault : DecodeFault}

/-! ## The pulse that refuses a word -/

theorem pulse_eq_error_iff (ht : m.computer.Timing) :
    m.pulse.2 = .error fault ↔
      m.computer.FindsStray ∧ fault = ⟨m.computer.ir, m.computer.origin⟩ := by
  constructor
  · intro h
    obtain ⟨hc, hsc⟩ := time_of_refused ht h
    have hf := fault_of_pulse_eq_error h
    have hs : m.computer.s = false := by
      by_contra hs
      simp [pulse_of_halted (by simpa using hs)] at hf
    have hbegun : m.computer.begun = m.computer := begun_of_within (by omega)
    cases hn : m.computer.begun.transfer? with
    | none =>
        rw [(pulse_of_refused hs hn).2, hbegun] at hf
        rw [hbegun] at hn
        exact ⟨ht.transfer?_eq_none_iff.mp hn, (Option.some.inj hf).symm⟩
    | some t =>
        cases he : t.endsCycle with
        | true => simp [(pulse_of_ends hs hn he).2] at hf
        | false => simp [(pulse_of_proceeds hs hn he).2] at hf
  · rintro ⟨hstray, rfl⟩
    simp [pulse, hstray.pulse_eq ht]

/-- The pulse that refuses a word stops the machine and makes one record of the fault, after its context
while the machine is tracing. -/
structure Refuses (m : Machine) (fault : DecodeFault) : Prop where
  report : m.pulse.2 = .error fault
  machine_eq : m.pulse.1 =
    { m with computer := { m.computer with s := true, sc := 0 }, journal := m.pulse.1.journal }
  log_eq : m.pulse.1.log =
    m.log ++ (if m.tracing then [.context "EXECUTE" 3] else []) ++ [fault.record]

theorem refuses_of_findsStray (ht : m.computer.Timing) (h : m.computer.FindsStray) :
    m.Refuses ⟨m.computer.ir, m.computer.origin⟩ := by
  have hp := h.pulse_eq ht
  have hf : m.computer.fetches = false := by simp [Computer.fetches, atBoundary, h.time]
  refine ⟨(pulse_eq_error_iff ht).mpr ⟨h, rfl⟩, ?_, ?_⟩
  · simp [pulse, hp, hf]
  · rw [log_pulse, hp, List.append_assoc]
    cases m.tracing <;> rfl

/-! ## Reports of a fault -/

theorem timing_afterPulses (ht : m.computer.Timing) (n : Nat) :
    (m.afterPulses n).computer.Timing := by
  induction n with
  | zero => exact ht
  | succ n ih =>
      rw [afterPulses_succ]
      exact ih.pulse

theorem sc_step (ht : m.computer.Timing) : m.step.1.computer.sc = 0 := by
  obtain ⟨n, -, hsteps⟩ := exists_stepsIn ht.halted_sc
  rw [hsteps.machine_eq]
  exact hsteps.boundary

theorem timing_step (ht : m.computer.Timing) : m.step.1.computer.Timing :=
  step_keeps (Q := fun m => m.computer.Timing) (fun _ h => h.pulse) ht

/-- A fault is reported exactly if a pulse of the train reports it, and then that pulse was the last thing
to happen. -/
structure PassesOnFaults {α : Type} (train : List Machine) (last : Machine)
    (result : Except DecodeFault α) : Prop where
  reported_iff : ∀ fault, result = .error fault ↔ ∃ x ∈ train, x.pulse.2 = .error fault
  last_eq : ∀ x ∈ train, ∀ fault, x.pulse.2 = .error fault → last = x.pulse.1

/-- A step makes the report of its last pulse; its other pulses report a running machine. -/
theorem StepTrain.exists_last (ht : m.computer.Timing) {train : List Machine}
    (h : m.StepTrain train) : ∃ others last, train = others ++ [last] ∧ m.step = last.pulse ∧
      ∀ x ∈ others, x.pulse.2 = .ok .running := by
  obtain ⟨count, hsteps, rfl⟩ := h
  obtain ⟨n, rfl⟩ := Nat.exists_eq_add_of_le' hsteps.pos
  refine ⟨m.pulseTrain n, m.afterPulses n, pulseTrain_succ m n, hsteps.step_eq, ?_⟩
  intro x hx
  obtain ⟨k, hk, rfl⟩ := List.mem_map.mp hx
  have hwithin := hsteps.within (k + 1) (Nat.succ_pos k) (Nat.succ_lt_succ (List.mem_range.mp hk))
  rw [afterPulses_succ] at hwithin
  exact report_of_within (timing_afterPulses ht k).halted_sc hwithin

theorem StepTrain.passesOnFaults (ht : m.computer.Timing) {train : List Machine}
    (h : m.StepTrain train) : PassesOnFaults train m.step.1 m.step.2 := by
  obtain ⟨others, last, rfl, hstep, hothers⟩ := h.exists_last ht
  have hlast {x : Machine} (hx : x ∈ others ++ [last]) {fault : DecodeFault}
      (hf : x.pulse.2 = .error fault) : x = last := by
    rcases List.mem_append.mp hx with hx | hx
    · cases (hothers x hx).symm.trans hf
    · exact List.mem_singleton.mp hx
  refine ⟨fun fault => ⟨fun hr => ?_, ?_⟩, fun x hx fault hf => ?_⟩
  · exact ⟨last, by simp, by rw [← hstep]; exact hr⟩
  · rintro ⟨x, hx, hf⟩
    rw [hstep, ← hlast hx hf]
    exact hf
  · rw [hstep, hlast hx hf]

section

variable {holds : Nat → Machine → Bool} {left polls : Nat} {steps : List Machine} {run : Run}

/-- Steps without a fault add nothing to what the rest of the run passes on. -/
theorem PassesOnFaults.append {α β : Type} {train train' : List Machine} {next last : Machine}
    {a : α} {result : Except DecodeFault β} (h : PassesOnFaults train next (.ok a))
    (h' : PassesOnFaults train' last result) : PassesOnFaults (train ++ train') last result := by
  have hnone {x : Machine} (hx : x ∈ train) {fault : DecodeFault} : x.pulse.2 ≠ .error fault := by
    intro hf
    cases (h.reported_iff fault).mpr ⟨x, hx, hf⟩
  refine ⟨fun fault => ?_, fun x hx fault hf => ?_⟩
  · rw [h'.reported_iff]
    constructor
    · rintro ⟨x, hx, hf⟩
      exact ⟨x, List.mem_append_right train hx, hf⟩
    · rintro ⟨x, hx, hf⟩
      rcases List.mem_append.mp hx with hx | hx
      · exact absurd hf (hnone hx)
      · exact ⟨x, hx, hf⟩
  · rcases List.mem_append.mp hx with hx | hx
    · exact absurd hf (hnone hx)
    · exact h'.last_eq x hx fault hf

theorem PassesOnFaults.of_ok {α β : Type} {train : List Machine} {last last' : Machine} {a : α}
    {b : β} (h : PassesOnFaults train last (.ok a)) : PassesOnFaults train last' (.ok b) := by
  have hnone := fun fault => (h.reported_iff fault).not.mp (by simp)
  refine ⟨fun fault => by simpa using hnone fault, fun x hx fault hf => ?_⟩
  exact absurd ⟨x, hx, hf⟩ (hnone fault)

theorem passesOnFaults_nil {α : Type} (last : Machine) (a : α) :
    PassesOnFaults [] last (.ok a : Except DecodeFault α) :=
  ⟨fun fault => by simp, fun x hx => absurd hx (List.not_mem_nil)⟩

theorem Course.passesOnFaults (h : Course holds m left polls steps run) (ht : m.computer.Timing)
    {trains : List (List Machine)} (htrains : List.Forall₂ StepTrain steps trains) :
    PassesOnFaults trains.flatten run.machine run.result := by
  induction h generalizing trains with
  | halted | paused | impatient | refused =>
      cases htrains
      exact passesOnFaults_nil _ _
  | @failed m next left polls fault hm hg hstep =>
      obtain ⟨train, rest, htrain, hnil, rfl⟩ := List.forall₂_cons_left_iff.mp htrains
      cases hnil
      have hfaults := htrain.passesOnFaults (by simpa using ht)
      rw [hstep] at hfaults
      rw [List.flatten_cons, List.flatten_nil, List.append_nil]
      exact ⟨fun fault => by rw [← hfaults.reported_iff]; simp, hfaults.last_eq⟩
  | @stepped m next left polls status steps run hm hg hstep rest ih =>
      obtain ⟨train, trains, htrain, hrest, rfl⟩ := List.forall₂_cons_left_iff.mp htrains
      have hfaults := htrain.passesOnFaults (by simpa using ht)
      have hnext := timing_step (m := m.pass) (by simpa using ht)
      rw [hstep] at hfaults hnext
      exact hfaults.append (ih hnext hrest)

end

theorem CallTrain.passesOnFaults {c : Call} (ht : m.computer.Timing) {train : List Machine}
    (h : m.CallTrain c train) : PassesOnFaults train (m.call c).1 (m.call c).2 := by
  obtain ⟨steps, trains, ⟨run, hcourse⟩, htrains, rfl⟩ := h
  have hfaults := hcourse.passesOnFaults ht htrains
  have hrun := hcourse.run_eq
  cases c with
  | runGuarded guard =>
      rw [call, runGuarded]
      exact hrun ▸ hfaults
  | run budget =>
      have hcall : m.call (.run budget) = finishRun budget run := congrArg (finishRun budget) hrun
      rw [hcall]
      rcases finishRun_cases budget run with h | ⟨hr, event, h⟩
      · rw [h]
        exact hfaults
      · rw [h]
        rw [hr] at hfaults
        exact hfaults.of_ok

/-! ## After a halt -/

/-- Whatever would advance the machine reports a halt, asks no guard and changes nothing. -/
structure AtRest (m : Machine) : Prop where
  pulse_eq : m.pulse = (m, .ok .halted)
  step_eq : m.step = (m, .ok .halted)
  run_eq : ∀ budget, m.run budget = (m, .ok .halted)
  runGuarded_eq : ∀ guard, m.runGuarded guard = ⟨m, 0, .ok .halted⟩

/-- The machine is at rest, and stays at rest until it is loaded or reset. -/
def Finished (m : Machine) : Prop :=
  ∀ actions : List Action, (∀ action ∈ actions, action.restarts = false) →
    (m.performAll actions).AtRest

theorem atRest_of_halted (hs : m.computer.s = true) : m.AtRest where
  pulse_eq := pulse_eq_of_halted hs
  step_eq := step_of_halted hs
  run_eq budget := call_of_halted hs (.run budget)
  runGuarded_eq guard := runOn_of_halted hs guard.holds guard.patience 0

theorem halted_perform (hs : m.computer.s = true) {action : Action} (ha : action.restarts = false) :
    (m.perform action).computer.s = true := by
  have hrest := atRest_of_halted hs
  cases action with
  | load image | reset => cases ha
  | typeText text => exact hs
  | trace tracing => exact hs
  | drainJournal => exact hs
  | setBreakpoints addresses => exact hs
  | insertBreakpoint address => exact hs
  | eraseBreakpoint address => exact hs
  | pulse => rwa [perform, hrest.pulse_eq]
  | step => rwa [perform, hrest.step_eq]
  | run budget => rwa [perform, hrest.run_eq]
  | runGuarded guard => rwa [perform, hrest.runGuarded_eq]

theorem finished_of_halted (hs : m.computer.s = true) : m.Finished := by
  intro actions
  induction actions generalizing m with
  | nil => exact fun _ => atRest_of_halted hs
  | cons action actions ih =>
      intro ha
      exact ih (halted_perform hs (ha action List.mem_cons_self))
        fun next hnext => ha next (List.mem_cons_of_mem action hnext)

/-- The pulse that executes HLT reports the halt. -/
theorem pulse_hlt (ht : m.computer.Timing) (hc : m.computer.cycle = .instruction)
    (hsc : m.computer.sc = 3) (hd : Instruction.decode? m.computer.ir = some (.register .hlt)) :
    m.pulse.2 = .ok .halted := by
  have hw := (Instruction.encode_of_decode?_eq_some hd).symm
  have hs : m.computer.s = false := by
    by_contra hs
    have hzero := ht.halted_sc (by simpa using hs)
    omega
  obtain ⟨hopcode, hindirect⟩ := ht.decoded hc (Nat.le_of_eq hsc.symm)
  have ho : m.computer.opcode = escapeOpcode := by rw [hopcode, hw]; decide
  have hi : m.computer.i = false := by rw [hindirect, hw]; decide
  have htransfer : m.computer.begun.transfer? = some .halt := by
    rw [begun_of_within (by omega), transfer?_of_escape hc hsc ho, selectedTransfer?_register hi hw]
    rfl
  obtain ⟨hcomputer, hf⟩ := pulse_of_ends hs htransfer rfl
  have hstatus : m.computer.pulse.computer.status = .halted := by
    rw [hcomputer]
    rfl
  simp [pulse, hf, hstatus]

theorem s_of_pulse (ht : m.computer.Timing)
    (h : m.pulse.2 = .ok .halted ∨ ∃ fault, m.pulse.2 = .error fault) :
    m.pulse.1.computer.s = true := by
  rcases h with h | ⟨fault, h⟩
  · have hstatus := status_of_pulse_eq_ok h
    rw [computer_pulse]
    by_contra hs
    simp [Computer.status, hs] at hstatus
  · have hstray := ((pulse_eq_error_iff ht).mp h).1
    rw [computer_pulse, hstray.pulse_eq ht]

theorem s_of_step (ht : m.computer.Timing)
    (h : m.step.2 = .ok .halted ∨ ∃ fault, m.step.2 = .error fault) :
    m.step.1.computer.s = true := by
  obtain ⟨count, -, hsteps⟩ := exists_stepsIn ht.halted_sc
  rw [hsteps.step_eq] at h ⊢
  exact s_of_pulse (timing_afterPulses ht _) h

theorem s_of_call {c : Call}
    (h : (m.call c).2 = .ok .halted ∨ ∃ fault, (m.call c).2 = .error fault) :
    (m.call c).1.computer.s = true := by
  obtain ⟨steps, run, hcourse, hcall | ⟨-, event, hcall⟩⟩ := m.call_cases c
  · rw [hcall] at h ⊢
    rcases h with h | ⟨fault, h⟩
    · obtain ⟨last, -, hending⟩ := hcourse.advance h
      generalize run.machine = final at hending ⊢
      cases hending with
      | halted hs => exact hs
    · obtain ⟨k, -, -, hs, -⟩ := hcourse.fault_eq h rfl
      exact hs
  · rw [hcall] at h
    rcases h with h | ⟨fault, h⟩ <;> cases h

/-! ## Where the refused word comes from -/

/-- How far a history has brought the instruction cycle under way, which fetches the word from the
address: so many of its pulses have been made, each an action of its own, with idle actions between. -/
inductive Underway (a : Address) (w : Word) : Nat → List Action → Prop
  | located {past : List Action} (h : (initial.performAll past).computer.FetchesAt a) :
      Underway a w 1 (past ++ [.pulse])
  | fetched {past : List Action} (h : Underway a w 1 past)
      (hw : (initial.performAll past).computer.memory.read a = w) :
      Underway a w 2 (past ++ [.pulse])
  | decoded {past : List Action} (h : Underway a w 2 past) : Underway a w 3 (past ++ [.pulse])
  | idle {n : Nat} {past : List Action} {action : Action} (h : Underway a w n past)
      (hi : (initial.performAll past).Idle action) : Underway a w n (past ++ [action])

/-- What the registers tell of the first pulses of an instruction cycle is what has happened. -/
inductive Tells (past : List Action) (c : Computer) : Prop
  | located (hsc : c.sc = 1) (har : c.ar = c.origin) (h : ∀ w, Underway c.origin w 1 past)
  | fetched (hsc : c.sc = 2) (h : Underway c.origin c.ir 2 past)
  | decoded (hsc : c.sc = 3) (h : Underway c.origin c.ir 3 past)
  | otherwise (hsc : c.sc = 0 ∨ 4 ≤ c.sc)

section

variable {holds : Nat → Machine → Bool} {left polls : Nat} {steps : List Machine} {run : Run}

/-- A run that ends within a cycle has been called off before its first step. -/
theorem Course.of_within (h : Course holds m left polls steps run) (ht : m.computer.Timing)
    (hsc : run.machine.computer.sc ≠ 0) :
    steps = [] ∧ run.result = .ok .cancelled ∧ run.machine.computer = m.computer := by
  have hstepped {k : Nat} (hk : steps.length = k + 1) : False := by
    have hend := h.computer_eq (n := m) rfl
    rw [hk, afterSteps_succ] at hend
    have hlast : (m.afterSteps k).computer.Timing := by
      clear hend hk
      induction k with
      | zero => exact ht
      | succ k ih =>
          rw [afterSteps_succ]
          exact timing_step ih
    exact hsc (hend ▸ sc_step hlast)
  cases h with
  | halted hs => exact absurd (ht.halted_sc hs) hsc
  | paused hs hb => exact absurd (fetchesAt_of_atBreakpoint hs hb).1.boundary hsc
  | impatient | refused => exact ⟨rfl, rfl, computer_pass m⟩
  | failed | stepped => exact (hstepped rfl).elim

end

theorem call_of_within {c : Call} (ht : m.computer.Timing) (hsc : (m.call c).1.computer.sc ≠ 0) :
    m.CalledOff c ∧ (m.call c).1.computer = m.computer := by
  obtain ⟨steps, run, h, hcall | ⟨-, event, hcall⟩⟩ := m.call_cases c
  · rw [hcall] at hsc ⊢
    obtain ⟨rfl, hr, hcomputer⟩ := h.of_within ht hsc
    exact ⟨⟨⟨run, h⟩, .inl (by rw [hcall]; exact hr)⟩, hcomputer⟩
  · rw [hcall] at hsc ⊢
    obtain ⟨rfl, -, hcomputer⟩ := h.of_within ht hsc
    exact ⟨⟨⟨run, h⟩, .inr (by rw [hcall])⟩, hcomputer⟩

theorem Tells.idle {past : List Action} {action : Action} {c d : Computer}
    (h : Tells past c) (hi : (initial.performAll past).Idle action) (hsc : d.sc = c.sc)
    (har : d.ar = c.ar) (hir : d.ir = c.ir) (ho : d.origin = c.origin) :
    Tells (past ++ [action]) d := by
  cases h with
  | located h1 hlocated hw =>
      exact .located (hsc.trans h1) (by rw [har, ho, hlocated]) fun w => ho ▸ (hw w).idle hi
  | fetched h2 h => exact .fetched (hsc.trans h2) (by rw [ho, hir]; exact h.idle hi)
  | decoded h3 h => exact .decoded (hsc.trans h3) (by rw [ho, hir]; exact h.idle hi)
  | otherwise h => exact .otherwise (hsc ▸ h)

theorem fetchesAt_of_begun {c : Computer} (hs : c.s = false) (hsc : c.sc = 0)
    (hc : c.begun.cycle = .instruction) : c.FetchesAt c.begun.pc := by
  rw [begun_of_boundary hsc] at hc ⊢
  obtain ⟨inpr, fgi, input, hstart, -⟩ := startCycle_spec c
  rw [hstart] at hc ⊢
  refine ⟨hs, hsc, ?_, rfl⟩
  by_contra hr
  simp [hr] at hc

theorem Tells.pulse {past : List Action} (ht : (initial.performAll past).computer.Timing)
    (h : (initial.performAll past).computer.cycle = .instruction →
      Tells past (initial.performAll past).computer)
    (hc : (initial.performAll past).computer.pulse.computer.cycle = .instruction) :
    Tells (past ++ [.pulse]) (initial.performAll past).computer.pulse.computer := by
  generalize hm : initial.performAll past = m at ht h hc
  cases hs : m.computer.s with
  | true => exact .otherwise (.inl (by rw [pulse_of_halted hs]; exact ht.halted_sc hs))
  | false =>
      rcases pulse_cases hs with ⟨-, hp⟩ | ⟨t, -, -, hp⟩ | ⟨t, htransfer, hends, hp⟩
      · exact .otherwise (.inl (by rw [hp]; rfl))
      · exact .otherwise (.inl (by rw [hp]; rfl))
      · have hproceeds := proceeds_of_transfer? htransfer hends
        have hsc : m.computer.pulse.computer.sc = m.computer.begun.sc + 1 := by rw [hp]; simp
        have hwithin (h : m.computer.begun.sc ≠ 0) : m.computer.begun = m.computer :=
          begun_of_within (by simpa using h)
        rw [hp] at hc ⊢
        rw [hp] at hsc
        cases hproceeds with
        | saveReturn hcycle | storeReturn hcycle => cases hcycle.symm.trans hc
        | locate hcycle h0 =>
            have hf := fetchesAt_of_begun hs (by simpa using h0) hcycle
            exact .located (hsc.trans (by rw [h0])) rfl fun w => .located (hm ▸ hf)
        | fetch hcycle h1 =>
            have hbegun := hwithin (by omega)
            rw [hbegun] at hcycle h1 hsc ⊢
            cases h hcycle with
            | located _ har hw =>
                refine .fetched (hsc.trans (by rw [h1])) (.fetched (hw _) ?_)
                rw [hm]
                exact congrArg m.computer.memory.read har.symm
            | fetched h2 | decoded h2 | otherwise h2 => omega
        | decode hcycle h2 =>
            have hbegun := hwithin (by omega)
            rw [hbegun] at hcycle h2 hsc ⊢
            cases h hcycle with
            | fetched _ hfetched => exact .decoded (hsc.trans (by rw [h2])) (.decoded hfetched)
            | located h1 | decoded h1 | otherwise h1 => omega
        | indirect _ hlate | direct _ hlate | operand _ hlate | link _ hlate | increment _ hlate =>
            exact .otherwise (.inr (by omega))

/-- Only pulses that are actions of their own end within a cycle. -/
theorem tells_performAll (past : List Action)
    (hc : (initial.performAll past).computer.cycle = .instruction) :
    Tells past (initial.performAll past).computer := by
  induction past using List.reverseRecOn with
  | nil => exact .otherwise (.inl rfl)
  | append_singleton past action ih =>
      have ht := (reachable_iff.mpr ⟨past, rfl⟩).timing
      have hcall (c : Call) (ha : c.action = action)
          (hi : (initial.performAll past).CalledOff c → (initial.performAll past).Idle action) :
          Tells (past ++ [action]) (initial.performAll (past ++ [action])).computer := by
        rw [performAll_snoc, ← ha, perform_action] at hc ⊢
        by_cases hsc : ((initial.performAll past).call c).1.computer.sc = 0
        · exact .otherwise (.inl hsc)
        · obtain ⟨hoff, hcomputer⟩ := call_of_within ht hsc
          rw [hcomputer] at hc ⊢
          exact (ih hc).idle (ha ▸ hi hoff) rfl rfl rfl rfl
      cases action with
      | run budget => exact hcall (.run budget) rfl id
      | runGuarded guard => exact hcall (.runGuarded guard) rfl id
      | load image =>
          rw [performAll_snoc]
          exact .otherwise (.inl rfl)
      | reset =>
          rw [performAll_snoc]
          exact .otherwise (.inl rfl)
      | pulse =>
          rw [performAll_snoc] at hc ⊢
          exact .pulse ht ih hc
      | step =>
          rw [performAll_snoc]
          exact .otherwise (.inl (sc_step ht))
      | _ =>
          rw [performAll_snoc] at hc ⊢
          exact (ih hc).idle trivial rfl rfl rfl rfl

/-- Decode faults after every history: which pulses are refused, with which word, and that a refusal
changes nothing but to stop the machine; that steps and calls report the faults of their pulses and no
others; and that a machine stopped by a fault or by HLT is finished. -/
theorem decode_faults (past : List Action) :
    let m := initial.performAll past
    (∀ fault, m.pulse.2 = .error fault ↔
        m.computer.FindsStray ∧ fault = ⟨m.computer.ir, m.computer.origin⟩) ∧
      (∀ fault, m.pulse.2 = .error fault →
        m.Refuses fault ∧ Underway fault.address fault.word 3 past) ∧
      (∃ train, m.StepTrain train ∧ PassesOnFaults train m.step.1 m.step.2) ∧
      (∀ c, ∃ train, m.CallTrain c train ∧ PassesOnFaults train (m.call c).1 (m.call c).2) ∧
      (m.computer.cycle = .instruction → m.computer.sc = 3 →
        Instruction.decode? m.computer.ir = some (.register .hlt) → m.pulse.2 = .ok .halted) ∧
      (m.pulse.2 = .ok .halted ∨ (∃ fault, m.pulse.2 = .error fault) → m.pulse.1.Finished) ∧
      (m.step.2 = .ok .halted ∨ (∃ fault, m.step.2 = .error fault) → m.step.1.Finished) ∧
      ∀ c, (m.call c).2 = .ok .halted ∨ (∃ fault, (m.call c).2 = .error fault) →
        (m.call c).1.Finished := by
  intro m
  have ht : m.computer.Timing := (reachable_iff.mpr ⟨past, rfl⟩).timing
  refine ⟨fun fault => pulse_eq_error_iff ht, fun fault h => ?_, ?_, fun c => ?_, pulse_hlt ht,
    fun h => finished_of_halted (s_of_pulse ht h), fun h => finished_of_halted (s_of_step ht h),
    fun c h => finished_of_halted (s_of_call h)⟩
  · obtain ⟨hstray, rfl⟩ := (pulse_eq_error_iff ht).mp h
    refine ⟨refuses_of_findsStray ht hstray, ?_⟩
    have hsc : (initial.performAll past).computer.sc = 3 := hstray.time
    cases tells_performAll past hstray.cycle_eq with
    | decoded _ hunderway => exact hunderway
    | located h1 | fetched h1 | otherwise h1 => omega
  · obtain ⟨train, htrain⟩ := exists_stepTrain ht.halted_sc
    exact ⟨train, htrain, htrain.passesOnFaults ht⟩
  · obtain ⟨train, htrain⟩ := exists_callTrain m c
    exact ⟨train, htrain, htrain.passesOnFaults ht⟩

/-- A program of one word, which is no instruction. -/
def loneStray : Image := ⟨0, [⟨0, 0x7000, ⟨0, 8⟩⟩]⟩

theorem decode_faults_loneStray :
    let past : List Action := [.load loneStray, .pulse, .trace true, .pulse, .pulse]
    let m := initial.performAll past
    m.pulse.2 = .error ⟨0x7000, 0⟩ ∧ Underway 0 0x7000 3 past ∧
      m.pulse.1.log = m.log ++ [.context "EXECUTE" 3] ++ [DecodeFault.record ⟨0x7000, 0⟩] ∧
      m.pulse.1.AtRest := by
  intro past m
  obtain ⟨hpulse, hrefused, -, -, -, hfinished, -⟩ := decode_faults past
  have hstray : m.computer.FindsStray := ⟨rfl, rfl, by decide +kernel⟩
  have hf : m.pulse.2 = .error ⟨0x7000, 0⟩ := (hpulse _).mpr ⟨hstray, rfl⟩
  obtain ⟨hrefuses, hunderway⟩ := hrefused _ hf
  exact ⟨hf, hunderway, hrefuses.log_eq, hfinished (.inr ⟨_, hf⟩) [] (by simp)⟩

end Machine

end BasicComputer
