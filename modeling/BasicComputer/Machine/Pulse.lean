import BasicComputer.Machine.Event

/-!
# Clock pulses

A pulse makes one transfer. Before the first pulse of a cycle the devices act, and after the last one
the computer halts or looks for an interrupt.
-/

namespace BasicComputer

inductive Status
  | running
  | halted
  deriving DecidableEq, Repr

/-- What a clock pulse leaves behind. -/
structure Pulse where
  computer : Computer
  events : List Event
  fault : Option DecodeFault

namespace Computer

def status (c : Computer) : Status := if c.s then .halted else .running

/-- The input device fills INPR if it is free. -/
def feed (c : Computer) : Computer :=
  match c.fgi, c.input with
  | false, character :: rest => { c with inpr := character, fgi := true, input := rest }
  | _, _ => c

def feedEvents (c : Computer) : List Event :=
  match c.fgi, c.input with
  | false, character :: _ => [.characterReady character]
  | _, _ => []

/-- The devices act and R chooses the cycle. The output device is always ready. -/
def startCycle (c : Computer) : Computer :=
  { c.feed with fgo := true, cycle := if c.r then .interrupt else .instruction }

def startEvents (c : Computer) : List Event :=
  c.feedEvents ++ if c.fgo then [] else [.printerReady]

/-- Interrupts are enabled, a device is ready and R is clear. -/
def interruptDue (c : Computer) : Bool := c.ien && (c.fgi || c.fgo) && !c.r

/-- Completes a cycle: unless the computer stops, R takes notice of the devices. -/
def finishCycle (c : Computer) : Computer :=
  { c with sc := 0, cycles := c.cycles + 1, r := c.r || (!c.s && c.interruptDue) }

/-- The event that tells of a completed cycle. -/
def completion (c : Computer) : Event :=
  match c.cycle with
  | .instruction => .executed c.ir c.origin
  | .interrupt => .interruptServiced (c.memory.read 0)

def finishEvents (c : Computer) : List Event :=
  c.completion ::
    if c.s then [.halted c.origin] else if c.interruptDue then [.interruptRaised] else []

/-- Stops at a word that is no instruction; the cycle does not count as completed. -/
def refuse (c : Computer) : Computer := { c with s := true, sc := 0 }

/-- Makes the transfer of this pulse, once the devices have acted. -/
def advance (c : Computer) : Pulse :=
  let context := Event.pulse c.phase c.sc
  match c.transfer? with
  | none => ⟨c.refuse, [context, .undecodable c.ir c.origin], some ⟨c.ir, c.origin⟩⟩
  | some t =>
    let next := t.apply c
    if t.endsCycle then ⟨next.finishCycle, context :: .transfer t :: next.finishEvents, none⟩
    else ⟨{ next with sc := next.sc + 1 }, [context, .transfer t], none⟩

/-- One clock pulse; nothing happens once the computer has stopped. -/
def pulse (c : Computer) : Pulse :=
  if c.s then ⟨c, [], none⟩
  else if c.atBoundary then
    let p := c.startCycle.advance
    { p with events := c.startEvents ++ p.events }
  else c.advance

@[simp] theorem sc_feed (c : Computer) : c.feed.sc = c.sc := by
  unfold feed
  split <;> rfl

@[simp] theorem sc_startCycle (c : Computer) : c.startCycle.sc = c.sc := by
  simp [startCycle]

/-- A pulse ends the cycle or counts SC up from at most 5. -/
theorem sc_advance (c : Computer) :
    c.advance.computer.sc = 0 ∨ (c.advance.computer.sc = c.sc + 1 ∧ c.sc ≤ 5) := by
  unfold advance
  split
  next => exact .inl rfl
  next t h =>
    cases ht : t.endsCycle with
    | true => exact .inl rfl
    | false => exact .inr ⟨by simp, sc_le_of_transfer? h ht⟩

theorem sc_pulse {c : Computer} (h : c.s = false) :
    c.pulse.computer.sc = 0 ∨ (c.pulse.computer.sc = c.sc + 1 ∧ c.sc ≤ 5) := by
  simp only [pulse, h, Bool.false_eq_true, if_false]
  split
  · simpa using sc_advance c.startCycle
  · exact sc_advance c

end Computer

end BasicComputer
