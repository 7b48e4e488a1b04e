/-!
# Spans

A span is a stretch of a text in UTF-8 bytes, from its start up to but not including its stop.
-/

namespace BasicComputer

/-- How many bytes the characters take in UTF-8. -/
def byteLength : List Char → Nat
  | [] => 0
  | c :: rest => c.utf8Size + byteLength rest

structure Span where
  start : Nat
  stop : Nat
  deriving DecidableEq, Repr, Inhabited

namespace Span

def length (s : Span) : Nat := s.stop - s.start

def isEmpty (s : Span) : Bool := s.start == s.stop

/-- The smallest span that covers both. -/
def join (s t : Span) : Span := ⟨min s.start t.start, max s.stop t.stop⟩

/-- The characters that begin inside the span, for a text whose first byte has the given offset. -/
def sliceFrom (s : Span) (offset : Nat) : List Char → List Char
  | [] => []
  | c :: rest =>
    if s.start ≤ offset ∧ offset < s.stop then c :: s.sliceFrom (offset + c.utf8Size) rest
    else s.sliceFrom (offset + c.utf8Size) rest

/-- The part of a whole text that the span covers. -/
def slice (s : Span) (text : List Char) : List Char := s.sliceFrom 0 text

end Span

end BasicComputer
