import BasicComputer.Proofs.Machine.Pausing
import Mathlib.Data.List.Forall2

/-! # Pulse trains

Whatever advances a machine does so by pulses. The train of an action is the list of the machines that its
pulses set out from; between two pulses of a train, and after the last, nothing happens to the computer. -/

namespace BasicComputer

/-- The action makes pulses. -/
def Action.advances : Action → Bool
  | .pulse | .step | .run _ | .runGuarded _ => true
  | .load _ | .reset | .typeText _ | .trace _ | .drainJournal | .setBreakpoints _
  | .insertBreakpoint _ | .eraseBreakpoint _ => false

namespace Machine

variable {m n : Machine}

/-! ## The train of an action -/

/-- The machines that the next pulses set out from. -/
def pulseTrain (m : Machine) (count : Nat) : List Machine := (List.range count).map m.afterPulses

@[simp] theorem pulseTrain_succ (m : Machine) (count : Nat) :
    m.pulseTrain (count + 1) = m.pulseTrain count ++ [m.afterPulses count] := by
  simp [pulseTrain, List.range_succ]

/-- The pulses of a step. -/
def StepTrain (m : Machine) (train : List Machine) : Prop :=
  ∃ count, m.StepsIn count ∧ train = m.pulseTrain count

/-- The pulses of the steps of a call. -/
def CallTrain (m : Machine) (c : Call) (train : List Machine) : Prop :=
  ∃ steps trains, m.Steps c steps ∧ List.Forall₂ StepTrain steps trains ∧ train = trains.flatten

/-- The pulses of an action. -/
def Train (m : Machine) : Action → List Machine → Prop
  | .pulse => fun train => train = [m]
  | .step => m.StepTrain
  | .run budget => m.CallTrain (.run budget)
  | .runGuarded guard => m.CallTrain (.runGuarded guard)
  | .load _ | .reset | .typeText _ | .trace _ | .drainJournal | .setBreakpoints _
  | .insertBreakpoint _ | .eraseBreakpoint _ => fun train => train = []

theorem exists_stepTrain (h : m.computer.s = true → m.computer.sc = 0) :
    ∃ train, m.StepTrain train := by
  obtain ⟨count, -, hsteps⟩ := exists_stepsIn h
  exact ⟨_, count, hsteps, rfl⟩

section

variable {holds : Nat → Machine → Bool} {left polls : Nat} {steps : List Machine} {run : Run}

/-- Only running machines set out on the steps of a run. -/
theorem Course.exists_trains (h : Course holds m left polls steps run) :
    ∃ trains, List.Forall₂ StepTrain steps trains := by
  have hpass {m : Machine} (hm : m.MayGoOn) : ∃ train, m.pass.StepTrain train :=
    exists_stepTrain fun hs => by simp [hm.1] at hs
  induction h with
  | halted | paused | impatient | refused => exact ⟨[], .nil⟩
  | failed hm hg hstep =>
      obtain ⟨train, htrain⟩ := hpass hm
      exact ⟨[train], .cons htrain .nil⟩
  | stepped hm hg hstep rest ih =>
      obtain ⟨train, htrain⟩ := hpass hm
      obtain ⟨trains, htrains⟩ := ih
      exact ⟨train :: trains, .cons htrain htrains⟩

end

theorem exists_callTrain (m : Machine) (c : Call) : ∃ train, m.CallTrain c train := by
  obtain ⟨steps, h⟩ := exists_course m (c.guard m).holds (c.guard m).patience 0
  obtain ⟨trains, htrains⟩ := h.exists_trains
  exact ⟨_, steps, trains, ⟨_, h⟩, htrains, rfl⟩

theorem exists_train (h : m.computer.s = true → m.computer.sc = 0) (action : Action) :
    ∃ train, m.Train action train := by
  cases action with
  | pulse => exact ⟨_, rfl⟩
  | step => exact exists_stepTrain h
  | run budget => exact exists_callTrain m (.run budget)
  | runGuarded guard => exact exists_callTrain m (.runGuarded guard)
  | _ => exact ⟨[], rfl⟩

/-! ## From pulse to pulse -/

/-- What may happen between pulses: breakpoints are passed or reported, and events of interest noted. -/
structure Between (m n : Machine) : Prop where
  computer_eq : n.computer = m.computer
  tracing_eq : n.tracing = m.tracing
  noted : ∃ events : List Event, n.journal.toList = m.journal.toList ++ events ∧
    ∀ event ∈ events, event.isDetail = false

theorem between_pass (m : Machine) : m.Between m.pass := by
  unfold pass
  split <;> exact ⟨rfl, rfl, [], by simp⟩

theorem between_note (m : Machine) {event : Event} (h : event.isDetail = false) :
    m.Between (m.note event) :=
  ⟨rfl, rfl, [event], by simp [note, h]⟩

theorem between_pause (m : Machine) : m.Between m.pause :=
  ⟨rfl, rfl, [.breakpointReached m.computer.pc], by simp [pause, note, Event.isDetail]⟩

/-- The pulses that lead from one machine to another. -/
inductive Clocked (m : Machine) : List Machine → Machine → Prop
  | start : Clocked m [] m
  | pulse {train : List Machine} {n : Machine} (h : Clocked m train n) :
      Clocked m (train ++ [n]) n.pulse.1
  | between {train : List Machine} {n n' : Machine} (h : Clocked m train n) (hb : n.Between n') :
      Clocked m train n'

theorem Clocked.trans {k : Machine} {train train' : List Machine} (h : Clocked m train n)
    (h' : Clocked n train' k) : Clocked m (train ++ train') k := by
  induction h' with
  | start => simpa using h
  | pulse _ ih =>
      rw [← List.append_assoc]
      exact ih.pulse
  | between _ hb ih => exact ih.between hb

theorem clocked_afterPulses (m : Machine) (count : Nat) :
    m.Clocked (m.pulseTrain count) (m.afterPulses count) := by
  induction count with
  | zero => exact .start
  | succ count ih =>
      rw [pulseTrain_succ, afterPulses_succ]
      exact ih.pulse

theorem StepTrain.clocked {train : List Machine} (h : m.StepTrain train) :
    m.Clocked train m.step.1 := by
  obtain ⟨count, hsteps, rfl⟩ := h
  rw [hsteps.machine_eq]
  exact clocked_afterPulses m count

/-- The pulses of the steps of a run lead to its end. -/
theorem Course.clocked {holds : Nat → Machine → Bool} {left polls : Nat} {steps : List Machine}
    {run : Run} (h : Course holds m left polls steps run) {trains : List (List Machine)}
    (ht : List.Forall₂ StepTrain steps trains) : m.Clocked trains.flatten run.machine := by
  -- Each step's own train follows the pass of the breakpoint that the step sets out from.
  induction h generalizing trains with
  | halted =>
      cases ht
      exact .start
  | paused =>
      cases ht
      exact .between .start (between_pause _)
  | impatient | refused =>
      cases ht
      exact .between .start (between_pass _)
  | @failed m next left polls fault hm hg hstep =>
      obtain ⟨train, trains, htrain, hnil, rfl⟩ := List.forall₂_cons_left_iff.mp ht
      cases hnil
      have hclocked := htrain.clocked
      rw [hstep] at hclocked
      simpa using (Clocked.start.between (between_pass m)).trans hclocked
  | @stepped m next left polls status steps run hm hg hstep rest ih =>
      obtain ⟨train, trains, htrain, htrains, rfl⟩ := List.forall₂_cons_left_iff.mp ht
      have hclocked := htrain.clocked
      rw [hstep] at hclocked
      exact ((Clocked.start.between (between_pass m)).trans hclocked).trans (ih htrains)

theorem between_finishRun (budget : Nat) (run : Run) :
    run.machine.Between (finishRun budget run).1 := by
  have hself (m : Machine) : m.Between m := ⟨rfl, rfl, [], by simp⟩
  obtain ⟨last, polls, result⟩ := run
  cases result with
  | error fault => exact hself last
  | ok stop =>
      cases stop with
      | cancelled => exact between_note last rfl
      | halted | breakpoint address | budgetExhausted => exact hself last

theorem CallTrain.clocked {c : Call} {train : List Machine} (h : m.CallTrain c train) :
    m.Clocked train (m.call c).1 := by
  obtain ⟨steps, trains, ⟨run, hcourse⟩, htrains, rfl⟩ := h
  have hclocked := hcourse.clocked htrains
  have hrun := hcourse.run_eq
  cases c with
  | run budget =>
      rw [call, run_eq, runGuarded]
      exact hrun ▸ hclocked.between (between_finishRun budget run)
  | runGuarded guard =>
      rw [call, runGuarded]
      exact hrun ▸ hclocked

theorem Train.clocked {action : Action} {train : List Machine} (h : m.Train action train)
    (ha : action.advances = true) : m.Clocked train (m.perform action) := by
  cases action with
  | pulse =>
      obtain rfl : train = [m] := h
      exact Clocked.start.pulse
  | step => exact StepTrain.clocked h
  | run budget => exact CallTrain.clocked (c := .run budget) h
  | runGuarded guard => exact CallTrain.clocked (c := .runGuarded guard) h
  | _ => cases ha

/-- Actions of the other kinds make no pulse. -/
theorem Train.eq_nil {action : Action} {train : List Machine} (h : m.Train action train)
    (ha : action.advances = false) : train = [] := by
  cases action with
  | pulse | step | run budget | runGuarded guard => cases ha
  | _ => exact h

end Machine

end BasicComputer
