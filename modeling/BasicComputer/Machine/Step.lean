import BasicComputer.Machine.Basic
import BasicComputer.Machine.Pulse

/-!
# Steps

A machine is advanced by single pulses or by steps, which end where a cycle ends.
-/

namespace BasicComputer

/-- The next pulse fetches an instruction. -/
def Computer.fetches (c : Computer) : Bool := !c.s && c.atBoundary && !c.r

/-- The events of a pulse that are entered in the journal. -/
def Event.noted (tracing : Bool) (events : List Event) : List Event :=
  if tracing then events else events.filter (!·.isDetail)

namespace Machine

/-- Advances by one clock pulse. -/
def pulse (m : Machine) : Machine × Except DecodeFault Status :=
  match m with
  | ⟨computer, journal, tracing, breakpoints, pausedAt⟩ =>
    let pausedAt := if computer.fetches then none else pausedAt
    match computer.pulse with
    | ⟨computer, events, fault⟩ =>
      let result :=
        match fault with
        | none => .ok computer.status
        | some fault => .error fault
      (⟨computer, journal.append (Event.noted tracing events), tracing, breakpoints, pausedAt⟩,
        result)

theorem computer_pulse (m : Machine) : m.pulse.1.computer = m.computer.pulse.computer := rfl

theorem status_of_pulse_eq_ok {m : Machine} {status : Status} (h : m.pulse.2 = .ok status) :
    status = m.computer.pulse.computer.status := by
  simp only [pulse] at h
  split at h
  · exact (Except.ok.inj h).symm
  · cases h

/-- Where a cycle goes on after a pulse, fewer pulses are left of it. -/
theorem pulses_left_lt {m : Machine} (h : m.pulse.2 = .ok .running)
    (hb : m.pulse.1.computer.atBoundary = false) :
    7 - m.pulse.1.computer.sc < 7 - m.computer.sc := by
  have hs : m.computer.s = false := by
    cases hs : m.computer.s with
    | false => rfl
    | true => simpa [Computer.pulse, Computer.status, hs] using status_of_pulse_eq_ok h
  simp only [Computer.atBoundary, beq_eq_false_iff_ne, ne_eq] at hb
  rw [computer_pulse] at hb ⊢
  have := Computer.sc_pulse hs
  omega

/-- Advances to the end of the cycle under way, or through a whole cycle. -/
def step (m : Machine) : Machine × Except DecodeFault Status :=
  match _h : m.pulse with
  | (next, .ok .running) =>
    if _hb : next.computer.atBoundary then (next, .ok .running) else next.step
  | (next, result) => (next, result)
termination_by 7 - m.computer.sc
decreasing_by
  have := pulses_left_lt (m := m) (by rw [_h]) (by rw [_h]; simpa using _hb)
  rwa [_h] at this

end Machine

end BasicComputer
