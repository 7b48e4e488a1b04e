/-!
# Visible text

What a text shows where no escape sequence is understood: the sequences are left out, and so are the
control characters, except those that are blanks. Where a blank stands inside a sequence, it is shown and
the text goes on behind it; the rest of the sequence is taken up again at the next control character.
-/

namespace BasicComputer

/-- Which part of an escape sequence is under way. -/
inductive EscapeState
  /-- No sequence is under way. -/
  | outside
  /-- Behind an ESC character. -/
  | escape
  /-- An escape sequence of more than one character. -/
  | escapeIntermediate
  /-- A control sequence, which a letter ends. -/
  | control
  /-- The beginning of a device control string. -/
  | device
  | deviceParameter
  | deviceIntermediate
  /-- The contents of a device control string. -/
  | deviceContents
  /-- An operating system command, which the bell ends. -/
  | command
  /-- A string that no device reads. -/
  | string
  deriving DecidableEq, Repr

/-- Tab, newline, form feed and carriage return. -/
def isBlankControl (c : Char) : Bool := c == '\t' || c == '\n' || c == '\x0c' || c == '\r'

/-- Anything but a control character, or a blank. -/
def isVisible (c : Char) : Bool := (' ' ≤ c && c != '\x7f') || isBlankControl c

/-- The encoding of the character has the byte that ends a string. -/
def hasStringEnd (c : Char) : Bool := (String.utf8EncodeChar c).contains 0x9c

namespace EscapeState

/-- Blanks are shown inside the sequence. -/
def showsBlanks : EscapeState → Bool
  | outside | escape | escapeIntermediate | control => true
  | _ => false

def within (c low high : Char) : Bool := low ≤ c && c ≤ high

/-- What is under way behind a character of a device control string. -/
def nextDevice (s : EscapeState) (c : Char) : EscapeState :=
  if within c ' ' '/' then deviceIntermediate
  else if within c '0' '?' then
    match s with
    | device => deviceParameter
    | deviceParameter => if within c '0' ';' then deviceParameter else deviceContents
    | _ => deviceContents
  else if within c '@' '~' then deviceContents
  else s

/-- What is under way behind a character that is not shown. -/
def next (s : EscapeState) (c : Char) : EscapeState :=
  if c = '\x1b' then escape
  else if c = '\x18' || c = '\x1a' then outside
  else
    match s with
    | outside => outside
    | escape =>
      if within c ' ' '/' then escapeIntermediate
      else if c = '[' then control
      else if c = ']' then command
      else if c = 'P' then device
      else if c = 'X' || c = '^' || c = '_' then string
      else if within c '0' '~' then outside
      else escape
    | escapeIntermediate => if within c '0' '~' then outside else escapeIntermediate
    | control => if within c '@' '~' then outside else control
    | command => if c = '\x07' then outside else command
    | string => if hasStringEnd c then outside else string
    | deviceContents => if hasStringEnd c then outside else deviceContents
    | device => nextDevice device c
    | deviceParameter => nextDevice deviceParameter c
    | deviceIntermediate => nextDevice deviceIntermediate c

end EscapeState

/-- The visible part of a text; the flag tells that what is under way has given way to a blank. -/
def visibleFrom (s : EscapeState) (interrupted : Bool) : List Char → List Char
  | [] => []
  | c :: rest =>
    if (interrupted || s == .outside) && isVisible c then
      c :: visibleFrom (if c ≤ '\x7f' then s else .outside) true rest
    else if s.showsBlanks && isBlankControl c then c :: visibleFrom s true rest
    else visibleFrom (s.next c) false rest

/-- The visible part of a text. -/
def visible (text : String) : String := String.ofList (visibleFrom .outside false text.toList)

end BasicComputer
