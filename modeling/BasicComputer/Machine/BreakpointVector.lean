import BasicComputer.Word

/-!
# Breakpoints in a vector

Breakpoints can be kept as a vector of words. An address is looked up by halving the part of the vector that
it may be in, which finds it as long as the words ascend.
-/

namespace BasicComputer

/-- The word with its upper four bits clear: the cell that it is the number of, modulo 4096. -/
def Word.cellNumber (w : Word) : Word := w &&& 0x0FFF

/-- Where a word is in a vector of `n` words, or where it belongs. -/
inductive Slot (n : Nat)
  | taken (i : Fin n)
  | free (i : Fin (n + 1))

structure BreakpointVector where
  words : Array Word
  deriving DecidableEq, Repr

namespace BreakpointVector

/-- Halves the part of `length` places from `start` on until one place is left. The second half is chosen
unless it begins with a word that is too large. -/
def narrow (words : Array Word) (w : Word) (start length : Nat) (hlength : 0 < length)
    (hstop : start + length ≤ words.size) : Fin words.size :=
  if hlong : 1 < length then
    let half := length / 2
    if w < words[start + half] then narrow words w start (length - half) (by omega) (by omega)
    else narrow words w (start + half) (length - half) (by omega) (by omega)
  else ⟨start, by omega⟩
termination_by length

/-- The slot of a word that can only be at one place. -/
def slotAt (words : Array Word) (w : Word) (i : Fin words.size) : Slot words.size :=
  if words[i] = w then .taken i
  else if words[i] < w then .free i.succ
  else .free i.castSucc

/-- Looks a word up. -/
def search (words : Array Word) (w : Word) : Slot words.size :=
  if hsize : 0 < words.size then
    slotAt words w (narrow words w 0 words.size hsize (by omega))
  else .free 0

def empty : BreakpointVector := ⟨#[]⟩

def size (b : BreakpointVector) : Nat := b.words.size

def isEmpty (b : BreakpointVector) : Bool := b.size == 0

def contains (b : BreakpointVector) (a : Word) : Bool :=
  match search b.words a.cellNumber with
  | .taken _ => true
  | .free _ => false

/-- Also tells whether the address is new. -/
def insert (b : BreakpointVector) (a : Word) : BreakpointVector × Bool :=
  match search b.words a.cellNumber with
  | .taken _ => (b, false)
  | .free i => (⟨b.words.insertIdx i a.cellNumber (by omega)⟩, true)

/-- Also tells whether the address was there. -/
def erase (b : BreakpointVector) (a : Word) : BreakpointVector × Bool :=
  match search b.words a.cellNumber with
  | .taken i => (⟨b.words.eraseIdx i⟩, true)
  | .free _ => (b, false)

def ofList (addresses : List Word) : BreakpointVector :=
  addresses.foldl (fun b a => (b.insert a).1) empty

end BreakpointVector

end BasicComputer
