import BasicComputer.Assembly.Layout

/-!
# Images

The second reading of a program turns every placed statement into a word. The image holds the words in
source order with the address at which the program begins.
-/

namespace BasicComputer

/-- A word for a cell and the span of the line that it comes from. -/
structure PlacedWord where
  address : Word
  word : Word
  span : Span
  deriving DecidableEq, Repr

/-- What is loaded into a machine. Addresses and entry count modulo 4096. -/
structure Image where
  entry : Word
  words : List PlacedWord
  deriving DecidableEq, Repr

namespace Image

def size (image : Image) : Nat := image.words.length

def isEmpty (image : Image) : Bool := image.words.isEmpty

/-- The span of the last word given for an address. -/
def spanOf? (image : Image) (address : Word) : Option Span :=
  (image.words.reverse.find? (·.address == address)).map (·.span)

end Image

/-- The number that an operand stands for: a hexadecimal one that is the number of a cell, or the address
of a label. -/
def SymbolTable.resolve (symbols : SymbolTable) (operand : Token) : Except SourceError Word :=
  if operand.kind = .number then (operand.hexadecimal 0xFFF).map (BitVec.ofNat 16)
  else
    match symbols.address? operand.lexeme with
    | some address => .ok address.word
    | none => .error ⟨.undefinedLabel operand.lexeme, operand.span⟩

/-- The number that an instruction is encoded with: that of its operand, or else 0. -/
def SymbolTable.operandWord (symbols : SymbolTable) : Option Token → Except SourceError Word
  | some operand => symbols.resolve operand
  | none => .ok 0

/-- How an instruction is refused that the encoder does not take: at its mark `I`, or at its operand. -/
def InstructionFault.sourceError (m : Mnemonic) (operand : Option Token) (mark : Option Span) :
    InstructionFault → SourceError
  | illegalIndirection => ⟨.illegalIndirection m.name, mark.getD ⟨0, 0⟩⟩
  | addressOutOfRange value =>
    ⟨.malformedLiteral ("address 0x" ++ Hex.upper 1 value.toNat ++ " is outside of memory"),
      (operand.map Token.span).getD ⟨0, 0⟩⟩

/-- The word of an instruction with this operand and mark. -/
def SymbolTable.encode (symbols : SymbolTable) (m : Mnemonic) (operand : Option Token)
    (mark : Option Span) : Except SourceError Word := do
  match m.instruction? (← symbols.operandWord operand) mark.isSome with
  | .ok i => .ok i.encode
  | .error fault => .error (fault.sourceError m operand mark)

/-- The word that a statement stands for. -/
def Statement.word (symbols : SymbolTable) : Statement → Except SourceError Word
  | memory op operand mark => symbols.encode (.memory op) operand mark
  | register op mark => symbols.encode (.register op) none mark
  | io op mark => symbols.encode (.io op) none mark
  | decimal literal => literal.decimal
  | hexadecimal literal => (literal.hexadecimal 0xFFFF).map (BitVec.ofNat 16)

def Placement.word (symbols : SymbolTable) (p : Placement) : Except SourceError PlacedWord := do
  return ⟨p.address.word, ← p.statement.word symbols, p.span⟩

/-- The image of a layout; without an entry, the program begins at address 0. -/
def Layout.image (l : Layout) : Except SourceError Image := do
  return ⟨(l.entry.getD 0).word, ← l.placements.toList.mapM (Placement.word l.symbols)⟩

/-- Assembles a source text, up to the first error of either reading. -/
def assemble (source : String) : Except SourceError Image := do
  (← layOut source).image

end BasicComputer
