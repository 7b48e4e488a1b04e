import BasicComputer.Assembly.Image
import BasicComputer.Machine.Breakpoints
import BasicComputer.Machine.Event

/-!
# Machines

A machine is a computer with its operator's equipment: a journal, a switch for tracing, breakpoints and
the breakpoint at which it is paused. Here is what the operator does to it between pulses.
-/

namespace BasicComputer

structure Machine where
  computer : Computer
  journal : Journal Event
  tracing : Bool
  breakpoints : Breakpoints
  /-- The breakpoint that was reported last, until a run passes it or the instruction there is fetched. -/
  pausedAt : Option Address

/-- The memory that an image fills; of two words for one cell the later stays. -/
def Image.memory (image : Image) : Memory :=
  image.words.foldl (fun memory w => memory.write w.address.address w.word) .blank

namespace Machine

def initial : Machine := ⟨.initial, .empty, false, .empty, none⟩

/-- Begins anew. Journal, breakpoints and tracing stay. -/
def reset (m : Machine) : Machine := { m with computer := .initial, pausedAt := none }

/-- Enters an event in the journal. -/
def note (m : Machine) (event : Event) : Machine := { m with journal := m.journal.push event }

/-- Begins anew with an image in memory and its entry in PC. -/
def load (m : Machine) (image : Image) : Machine :=
  let entry := image.entry.address
  { m with
    computer := { Computer.initial with memory := image.memory, pc := entry }
    journal := m.journal.push (.loaded image.size entry)
    pausedAt := none }

/-- Hands characters to the input device, of each the low eight bits. -/
def typeText (m : Machine) (text : List Char) : Machine :=
  let truncated := text.filter (0xFF < ·.toNat)
  { m with
    computer := { m.computer with input := m.computer.input ++ text.map Byte.ofChar }
    journal := m.journal.append (truncated.map .characterTruncated) }

def withTracing (m : Machine) (tracing : Bool) : Machine := { m with tracing }

/-- Hands over the journal's entries and begins a new journal. -/
def drainJournal (m : Machine) : List Event × Machine :=
  (m.journal.toList, { m with journal := .empty })

/-- What the program has printed. -/
def outputText (m : Machine) : String := String.ofList (m.computer.output.toList.map Byte.char)

end Machine

end BasicComputer
