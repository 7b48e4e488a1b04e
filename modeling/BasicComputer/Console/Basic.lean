import BasicComputer.Console.Plain
import BasicComputer.Console.Style
import BasicComputer.Journal

/-!
# The console

Text goes to one of two streams: what a program prints to standard output, everything about the machine
to standard error. The console remembers whether a line is just beginning, on either stream alike. In
minimal mode decoration is left out and what is told about the machine is plain.
-/

namespace BasicComputer

inductive Stream
  | output
  | error
  deriving DecidableEq, Repr

inductive Destination
  /-- What a program prints, unchanged. -/
  | program
  /-- What is told about the machine in every mode. -/
  | always
  /-- Decoration, left out in minimal mode. -/
  | sometimes
  deriving DecidableEq, Repr

structure Console where
  minimal : Bool
  lineStart : Bool
  colored : Bool
  /-- Everything written so far, in order. -/
  written : Array (Stream × String)
  deriving DecidableEq, Repr

namespace Console

def initial (colored : Bool) : Console := ⟨false, true, colored, #[]⟩

/-- Everything written to one stream. -/
def text (c : Console) (stream : Stream) : String :=
  String.join ((c.written.toList.filter (·.1 == stream)).map (·.2))

/-- Whether a line begins after `text`, if one began before it or not. Escape sequences are invisible. -/
def lineStartAfter (lineStart : Bool) (text : List Char) : Bool :=
  match (plain text).getLast? with
  | some c => c == '\n'
  | none => lineStart

/-- Writes to a stream and keeps track of the beginnings of lines. -/
def emit (c : Console) (stream : Stream) (text : String) : Console :=
  { c with
    written := c.written.push (stream, text)
    lineStart := lineStartAfter c.lineStart text.toList }

def print (c : Console) (dest : Destination) (text : String) : Console :=
  match dest, c.minimal with
  | .program, _ => c.emit .output text
  | _, false => c.emit .error text
  | .always, true => c.emit .error (String.ofList (plain text.toList))
  | .sometimes, true => c

/-- Ends the line under way, if there is one. -/
def startLine (c : Console) (dest : Destination) : Console :=
  if c.lineStart then c else c.print dest "\n"

/-- Prints a text and ends its line. -/
def printLine (c : Console) (dest : Destination) (text : String) : Console :=
  c.print dest (text ++ "\n")

/-- Writes a line of the command's own to standard output, aside from the tracking of lines. -/
def announce (c : Console) (text : String) : Console :=
  { c with written := c.written.push (.output, text ++ "\n") }

end Console

/-! ### Records -/

/-- A record as a line of text. Each kind has a style, which `paint` puts on. -/
def Record.lineBy (paint : Style → String → String) : Record → String
  | .context title time => paint ⟨some .bold, some .cyan⟩ ("[" ++ title ++ ":T" ++ toString time ++ "]")
  | .step text => paint ⟨some .dimmed, none⟩ ("    " ++ text)
  | .info text => paint Color.green.style ("[INFO]: " ++ text)
  | .warning text => paint Color.yellow.style ("[WARNING]: " ++ text)
  | .error text => paint ⟨some .bold, some .red⟩ ("[ERROR]: " ++ text)

def Record.line (colored : Bool) (record : Record) : String := record.lineBy (·.paint colored)

namespace Console

/-- Prints a record that is painted in this way, on a line to itself. -/
def showRecordBy (paint : Style → String → String) (c : Console) (dest : Destination) (record : Record) :
    Console :=
  (c.startLine dest).printLine dest (record.lineBy paint)

def showRecord (c : Console) (dest : Destination) (record : Record) : Console :=
  c.showRecordBy (·.paint c.colored) dest record

def showRecords (c : Console) (dest : Destination) (records : List Record) : Console :=
  records.foldl (·.showRecord dest ·) c

end Console

end BasicComputer
