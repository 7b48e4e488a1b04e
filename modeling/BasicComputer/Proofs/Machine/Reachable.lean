import BasicComputer.Machine.Run
import Mathlib.Logic.Function.Iterate

/-! # Reachable machines

What an operator can do to a machine, and the machines that arise from a new one by doing so in any
order. Whatever every pulse keeps is true of the computer of every reachable machine. -/

namespace BasicComputer

inductive Action
  | load (image : Image)
  | reset
  | typeText (text : List Char)
  | trace (tracing : Bool)
  | drainJournal
  | setBreakpoints (addresses : List Word)
  | insertBreakpoint (address : Word)
  | eraseBreakpoint (address : Word)
  | pulse
  | step
  | run (budget : Nat)
  | runGuarded (guard : Guard)

namespace Machine

/-- The machine after an action, whatever the action reports. -/
def perform (m : Machine) : Action → Machine
  | .load image => m.load image
  | .reset => m.reset
  | .typeText text => m.typeText text
  | .trace tracing => m.withTracing tracing
  | .drainJournal => m.drainJournal.2
  | .setBreakpoints addresses => { m with breakpoints := .ofList addresses }
  | .insertBreakpoint address => { m with breakpoints := (m.breakpoints.insert address).1 }
  | .eraseBreakpoint address => { m with breakpoints := (m.breakpoints.erase address).1 }
  | .pulse => m.pulse.1
  | .step => m.step.1
  | .run budget => (m.run budget).1
  | .runGuarded guard => (m.runGuarded guard).machine

inductive Reachable : Machine → Prop
  | initial : Reachable .initial
  | perform {m : Machine} (action : Action) : Reachable m → Reachable (m.perform action)

/-! ## Machines under steps and runs -/

/-- What every pulse keeps, and reporting or passing a breakpoint and noting an event keep as well. -/
structure Kept (Q : Machine → Prop) : Prop where
  pulse : ∀ m, Q m → Q m.pulse.1
  pass : ∀ m, Q m → Q m.pass
  pause : ∀ m, m.computer.s = false → m.atBreakpoint = true → Q m → Q m.pause
  note : ∀ m event, Q m → Q (m.note event)

@[simp] theorem computer_pass (m : Machine) : m.pass.computer = m.computer := by
  unfold pass
  split <;> rfl

/-- A property of the computer alone is kept if pulses keep it. -/
theorem Kept.of_computer {P : Computer → Prop} (hp : ∀ c, P c → P c.pulse.computer) :
    Kept fun m => P m.computer where
  pulse _ h := hp _ h
  pass _ h := by simpa using h
  pause _ _ _ h := h
  note _ _ h := h

section

variable {Q : Machine → Prop}

/-- A step brings about what each of its pulses does. -/
theorem step_attains {P : Machine → Prop} (hp : ∀ m, P m → Q m.pulse.1) (hq : ∀ m, Q m → P m)
    {m : Machine} (h : P m) : Q m.step.1 := by
  fun_induction step m with
  | case1 m next hm hb =>
      simpa only [hm] using hp m h
  | case2 m next hm hb ih =>
      exact ih (hq next (by simpa only [hm] using hp m h))
  | case3 m next result hr hm =>
      simpa only [hm] using hp m h

theorem step_keeps (hp : ∀ m, Q m → Q m.pulse.1) {m : Machine} (h : Q m) : Q m.step.1 :=
  step_attains hp (fun _ hm => hm) h

theorem Kept.runOn (hk : Kept Q) {m : Machine} (h : Q m) (holds : Nat → Machine → Bool)
    (left polls : Nat) : Q (m.runOn holds left polls).machine := by
  have hs (m : Machine) (h : Q m) : Q m.pass.step.1 := step_keeps hk.pulse (hk.pass m h)
  fun_induction Machine.runOn m holds left polls with
  | case1 left m polls halted => exact h
  | case2 left m polls running hb =>
      rw [Bool.and_eq_true] at hb
      exact hk.pause m (Bool.eq_false_iff.mpr running) hb.1 h
  | case3 m polls running hb => exact hk.pass m h
  | case4 m polls running hb left hg next status heq ih =>
      exact ih (by simpa only [heq] using hs m h)
  | case5 m polls running hb left hg next fault heq =>
      simpa only [heq] using hs m h
  | case6 m polls running hb left hg => exact hk.pass m h

theorem Kept.runGuarded (hk : Kept Q) {m : Machine} (h : Q m) (guard : Guard) :
    Q (m.runGuarded guard).machine :=
  hk.runOn h guard.holds guard.patience 0

theorem Kept.run (hk : Kept Q) {m : Machine} (h : Q m) (budget : Nat) : Q (m.run budget).1 := by
  have hr := hk.runGuarded h (Guard.ofBudget m.computer.cycles budget)
  unfold Machine.run
  split
  next next polls heq =>
      rw [heq] at hr
      exact hk.note next _ hr
  next next polls result hne heq =>
      rw [heq] at hr
      exact hr

end

/-! ## Induction over the actions -/

/-- What holds of a computer with nothing but a program in it, and is kept when characters are typed
and by every pulse, holds of every reachable machine's computer. -/
theorem Reachable.computer_induction {P : Computer → Prop}
    (fresh : ∀ memory pc, P { Computer.initial with memory, pc })
    (typed : ∀ c characters, P c → P { c with input := c.input ++ characters })
    (hp : ∀ c, P c → P c.pulse.computer) {m : Machine} (h : Reachable m) : P m.computer := by
  have hk : Kept fun m => P m.computer := .of_computer hp
  induction h with
  | initial => exact fresh .blank 0
  | @perform m action _ ih =>
      cases action with
      | load image => exact fresh image.memory image.entry.address
      | reset => exact fresh .blank 0
      | typeText text => exact typed m.computer (text.map Byte.ofChar) ih
      | trace tracing => exact ih
      | drainJournal => exact ih
      | setBreakpoints addresses => exact ih
      | insertBreakpoint address => exact ih
      | eraseBreakpoint address => exact ih
      | pulse => exact hp _ ih
      | step => exact step_keeps hk.pulse ih
      | run budget => exact hk.run ih budget
      | runGuarded guard => exact hk.runGuarded ih guard

end Machine

end BasicComputer
