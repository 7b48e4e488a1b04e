import BasicComputer.Machine.Step

/-!
# Runs

A run advances a machine by steps until it halts, meets a breakpoint, cannot decode a word, or is told to
stop. A breakpoint that the machine is paused at lets the next run pass once.
-/

namespace BasicComputer

/-- Why a run ended. -/
inductive Stop
  | halted
  | breakpoint (address : Address)
  | budgetExhausted
  | cancelled
  deriving DecidableEq, Repr

/-- A guard is polled before every step of a run, which goes on while the answer is yes. The answer may
depend on the number of the poll, counted from 1, and is no once that number exceeds the patience. -/
structure Guard where
  patience : Nat
  holds : Nat → Machine → Bool

/-- The guard that lets `budget` cycles be completed after the first `start`. -/
def Guard.ofBudget (start budget : Nat) : Guard where
  patience := budget
  holds _ m := m.computer.cycles - start < budget

/-- The end of a run: the machine, how often the guard was polled, and the reason. -/
structure Run where
  machine : Machine
  polls : Nat
  result : Except DecodeFault Stop

namespace Machine

/-- The next cycle would fetch from a breakpoint. -/
def atBreakpoint (m : Machine) : Bool :=
  m.computer.atBoundary && !m.computer.r && m.breakpoints.contains m.computer.pc.word

/-- Reports the breakpoint that the machine is at. -/
def pause (m : Machine) : Machine :=
  { m.note (.breakpointReached m.computer.pc) with pausedAt := some m.computer.pc }

/-- Passes the breakpoint that the machine is at, if it is at one. -/
def pass (m : Machine) : Machine := if m.atBreakpoint then { m with pausedAt := none } else m

/-- Goes on with a run after `polls` polls, where `left` more may be answered yes. -/
def runOn (m : Machine) (holds : Nat → Machine → Bool) (left polls : Nat) : Run :=
  if m.computer.s then ⟨m, polls, .ok .halted⟩
  else if m.atBreakpoint && m.pausedAt != some m.computer.pc then
    ⟨m.pause, polls, .ok (.breakpoint m.computer.pc)⟩
  else
    match left with
    | 0 => ⟨m.pass, polls + 1, .ok .cancelled⟩
    | left + 1 =>
      if holds (polls + 1) m.pass then
        match m.pass.step with
        | (next, .ok _) => next.runOn holds left (polls + 1)
        | (next, .error fault) => ⟨next, polls + 1, .error fault⟩
      else ⟨m.pass, polls + 1, .ok .cancelled⟩

/-- Runs while the guard holds. -/
def runGuarded (m : Machine) (guard : Guard) : Run := m.runOn guard.holds guard.patience 0

/-- Runs for at most `budget` cycles. -/
def run (m : Machine) (budget : Nat) : Machine × Except DecodeFault Stop :=
  match m.runGuarded (Guard.ofBudget m.computer.cycles budget) with
  | ⟨m, _, .ok .cancelled⟩ =>
    (m.note (.budgetExhausted budget m.computer.pc), .ok .budgetExhausted)
  | ⟨m, _, result⟩ => (m, result)

end Machine

end BasicComputer
