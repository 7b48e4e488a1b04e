import BasicComputer.Source.Line
import BasicComputer.Source.Scan
import BasicComputer.Symbols

/-!
# Layout

The first reading of a program gives every word its address and every label its binding. A location
counter holds the address of the next word. Lines after the end of the program are not looked at.
-/

namespace BasicComputer

/-- A statement with its address and the span of its line. -/
structure Placement where
  address : Address
  span : Span
  statement : Statement
  deriving DecidableEq, Repr

structure Layout where
  symbols : SymbolTable
  placements : Array Placement
  /-- The location counter. -/
  counter : Address
  /-- The address of the first line that holds a word or nothing but a label. -/
  entry : Option Address
  /-- Whether the end of the program has been reached. -/
  ended : Bool
  deriving DecidableEq, Repr

namespace Layout

def empty : Layout := ⟨.empty, #[], 0, none, false⟩

/-- Binds a line's label to the location counter. -/
def define (l : Layout) : Option Token → Except SourceError Layout
  | none => .ok l
  | some label =>
    match l.symbols.insert label.lexeme l.counter.word label.span with
    | .ok symbols => .ok { l with symbols }
    | .error first => .error ⟨.duplicateLabel label.lexeme first.span, label.span⟩

/-- Settles the entry, unless an earlier line has. -/
def enter (l : Layout) : Layout := { l with entry := some (l.entry.getD l.counter) }

/-- Carries out what a line does besides defining its label. -/
def place (l : Layout) (span : Span) : Line → Layout
  | ⟨none, .nothing⟩ => l
  | ⟨some _, .nothing⟩ => l.enter
  | ⟨_, .origin address⟩ => { l with counter := address }
  | ⟨_, .stop⟩ => { l with ended := true }
  | ⟨_, .word statement⟩ =>
    let l := l.enter
    { l with
      placements := l.placements.push ⟨l.counter, span, statement⟩
      counter := l.counter + 1 }

/-- Lays out the tokens of one line. -/
def addLine (l : Layout) : List Token → Except SourceError Layout
  | [] => .ok l
  | first :: rest => do
    let line ← Line.read (first :: rest)
    let l ← l.define line.label
    return l.place (first.span.join (rest.getLastD first).span) line

/-- Lays out the next line, which is an error where scanning broke off. -/
def extend (l : Layout) (line : Except SourceError (List Token)) : Except SourceError Layout :=
  if l.ended then .ok l else line >>= l.addLine

def ofLines (lines : List (Except SourceError (List Token))) : Except SourceError Layout :=
  lines.foldlM extend empty

end Layout

/-- The layout of a source text. -/
def layOut (source : String) : Except SourceError Layout := Layout.ofLines (scan source).lines

end BasicComputer
