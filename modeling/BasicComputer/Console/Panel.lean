import BasicComputer.Console.Basic
import BasicComputer.Machine.Computer
import BasicComputer.Text.Column

/-!
# The register panel

Registers and flip-flops are shown in a framed table, or in minimal mode one to a line. A word is shown
in hexadecimal, in decimal without and with sign, and as a character.
-/

namespace BasicComputer

namespace Panel

/-- Dimmed whether colour is on or off. -/
def dim (text : String) : String := "\x1b[2m" ++ text ++ "\x1b[0m"

/-- Bold whether colour is on or off. -/
def strong (text : String) : String := "\x1b[1m" ++ text ++ "\x1b[0m"

/-- A word as a character, three columns wide. -/
def characterCell (w : Word) : String :=
  match w.toNat with
  | 0x00 => "NUL"
  | 0x08 => "BS "
  | 0x09 => "HT "
  | 0x0A => "LF "
  | 0x0D => "CR "
  | 0x1B => "ESC"
  | 0x7F => "DEL"
  | 0x20 => "[_]"
  | n =>
    if 0x21 ≤ n ∧ n ≤ 0x7E then Column.alignLeft 3 (Char.ofNat n).toString
    else if n < 0x80 then dim "───"
    else dim "┄┄┄"

/-- A word in all its readings. -/
def wordCells (w : Word) : String :=
  "0x" ++ Hex.lower 4 w.toNat ++ "  " ++ Column.alignRight 6 (toString w.toNat) ++ "  " ++
    Column.alignRight 6 (toString w.toInt) ++ "     " ++ characterCell w

def registers (c : Computer) : List (String × Word) :=
  [("AC", c.ac), ("DR", c.dr), ("AR", c.ar.word), ("IR", c.ir), ("PC", c.pc.word), ("TR", c.tr),
    ("INPR", c.inpr.word), ("OUTR", c.outr.word)]

def flags (c : Computer) : List (String × Bool) :=
  [("E", c.e), ("S", c.s), ("I", c.i), ("R", c.r), ("IEN", c.ien), ("FGI", c.fgi), ("FGO", c.fgo)]

def bit (b : Bool) : String := if b then "1" else "0"

/-- One register or flip-flop to a line. -/
def minimalRows (c : Computer) : List String :=
  (registers c).map (fun (name, w) => name ++ " " ++ Hex.upper 4 w.toNat) ++
    ["SC " ++ toString c.sc] ++ (flags c).map fun (name, b) => name ++ " " ++ bit b

def rule : String := String.ofList (List.replicate 38 '─')

def top : String := dim ("┌" ++ rule ++ "┐")

def bottom : String := dim ("└" ++ rule ++ "┘")

def heading : String :=
  "\x1b[2m│          \x1b[3mhex     int    uint    char\x1b[0m\x1b[2m │\x1b[0m"

def registerRow (name : String) (w : Word) : String :=
  dim "│" ++ " " ++ strong (Column.alignLeft 4 name) ++ "  " ++ wordCells w ++ " " ++ dim "│"

/-- The flip-flops and SC, filled with spaces up to the frame. -/
def flagRow (c : Computer) : String :=
  let cells := (flags c).map fun (name, b) => " " ++ name ++ " " ++ bit b
  let sc := "  SC " ++ toString c.sc
  let width := (String.join cells ++ sc).length
  dim "│" ++ String.join (cells.map strong) ++ sc ++
    String.ofList (List.replicate (38 - width) ' ') ++ dim "│"

def framedRows (c : Computer) : List String :=
  [top, heading] ++ (registers c).map (fun (name, w) => registerRow name w) ++ [flagRow c, bottom]

def rows (minimal : Bool) (c : Computer) : List String :=
  if minimal then minimalRows c else framedRows c

end Panel

namespace Console

def showRegisters (console : Console) (dest : Destination) (c : Computer) : Console :=
  (Panel.rows console.minimal c).foldl (·.printLine dest ·) (console.startLine dest)

/-- In minimal mode only the decimal reading with sign. -/
def showWord (console : Console) (dest : Destination) (w : Word) : Console :=
  console.print dest (if console.minimal then toString w.toInt else Panel.wordCells w)

end Console

end BasicComputer
