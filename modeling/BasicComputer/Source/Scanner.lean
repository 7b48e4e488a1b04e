import BasicComputer.Source.Scan

/-!
# Token by token

A scanner hands out the tokens of a source text one at a time. It measures a token by the bytes that are left
of the text before and behind it. Once it has handed out an error it hands out nothing more.
-/

namespace BasicComputer

/-- A place in a text, and the place where the token began that is being read. -/
structure Cursor where
  /-- The offset at which the token began. -/
  start : Nat
  /-- How many bytes were left there. -/
  left : Nat
  /-- The characters that are left here. -/
  rest : List Char
  deriving DecidableEq, Repr

namespace Cursor

def ofText (text : List Char) : Cursor := ⟨0, byteLength text, text⟩

def isAtEnd (c : Cursor) : Bool := c.rest.isEmpty

/-- The next character, and at the end the character NUL, which may also stand in a text. -/
def next (c : Cursor) : Char := c.rest.headD '\x00'

/-- Goes past the next character. -/
def advance (c : Cursor) : Cursor := { c with rest := c.rest.tail }

/-- Goes past all characters up to the first that is refused. -/
def advanceWhile (p : Char → Bool) (c : Cursor) : Cursor :=
  if p c.next && !c.isAtEnd then advanceWhile p c.advance else c
termination_by c.rest.length
decreasing_by
  rename_i h
  have hne : c.rest ≠ [] := by simpa [isAtEnd] using (Bool.and_eq_true_iff.mp h).2
  have hpos := List.length_pos_iff.mpr hne
  simp only [advance, List.length_tail]
  omega

/-- How many bytes were passed since the token began. -/
def passed (c : Cursor) : Nat := c.left - byteLength c.rest

/-- What was passed since the token began. -/
def span (c : Cursor) : Span := ⟨c.start, c.start + c.passed⟩

/-- The next token begins here. -/
def mark (c : Cursor) : Cursor := ⟨c.start + c.passed, byteLength c.rest, c.rest⟩

end Cursor

structure Scanner where
  source : List Char
  cursor : Cursor
  /-- Whether an error was handed out. -/
  failed : Bool
  deriving DecidableEq, Repr

namespace Scanner

def ofSource (source : String) : Scanner := ⟨source.toList, .ofText source.toList, false⟩

/-- Hands out the next token or an error, or nothing. -/
def draw (s : Scanner) : Option (Except SourceError Token) × Scanner :=
  match s.failed, s.cursor.rest with
  | true, _ | false, [] => (none, s)
  | false, c :: _ =>
    match Lead.of? c with
    | none =>
      let behind := s.cursor.advance
      let error := { Scan.unknownCharacter behind.start c with span := behind.span }
      (some (.error error), { s with cursor := behind.mark, failed := true })
    | some lead =>
      let behind := s.cursor.advance.advanceWhile lead.continues
      let lexeme := upperCase (behind.span.slice s.source)
      if lead == .word && behind.next == ',' then
        (some (.ok ⟨.label, lexeme, behind.span⟩), { s with cursor := behind.advance.mark })
      else
        (some (.ok ⟨lead.kind lexeme, lexeme, behind.span⟩), { s with cursor := behind.mark })

/-- What the scanner hands out when it has been asked this many times before. -/
def drawn (s : Scanner) : Nat → Option (Except SourceError Token)
  | 0 => s.draw.1
  | n + 1 => s.draw.2.drawn n

end Scanner

end BasicComputer
