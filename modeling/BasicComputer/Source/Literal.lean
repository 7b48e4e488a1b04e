import BasicComputer.Source.Error
import BasicComputer.Source.Token
import BasicComputer.Text.Numeral

/-!
# Literals

Decimal literals are signed numbers that fit sixteen bits in either reading; hexadecimal ones have up to
four digits and a limit.
-/

namespace BasicComputer

/-- Why a literal is malformed. -/
inductive LiteralFault
  | missing (directive : String)
  | notDecimal (lexeme : String)
  | unreadable (lexeme : String) (fault : NumeralFault)
  | outOfRange (value : Int)
  | notHexadecimal (lexeme : String)
  | overLimit (value limit : Nat)
  deriving DecidableEq, Repr

namespace LiteralFault

def reason : LiteralFault → String
  | missing directive => "`" ++ directive ++ "` requires a literal"
  | notDecimal lexeme => "`" ++ lexeme ++ "` is not a decimal number"
  | unreadable lexeme fault => "`" ++ lexeme ++ "`: " ++ fault.message
  | outOfRange value => toString value ++ " does not fit in 16 bits"
  | notHexadecimal lexeme => "`" ++ lexeme ++ "` is not a hexadecimal number of up to 4 digits"
  | overLimit value limit =>
    "0x" ++ Hex.upper 1 value ++ " is larger than 0x" ++ Hex.upper 1 limit

def errorAt (fault : LiteralFault) (span : Span) : SourceError := ⟨.malformedLiteral fault.reason, span⟩

end LiteralFault

namespace Token

/-- The word of a decimal literal from -32768 to 65535; negative numbers are in two's complement. The
digits are read within 32 bits before the range is looked at. -/
def decimal (t : Token) : Except SourceError Word :=
  if t.kind ≠ .number then .error ((LiteralFault.notDecimal t.lexeme).errorAt t.span)
  else
    match Numeral.readInt 10 2147483648 2147483647 t.lexeme.toList with
    | .error fault => .error ((LiteralFault.unreadable t.lexeme fault).errorAt t.span)
    | .ok value =>
      if -32768 ≤ value ∧ value ≤ 65535 then .ok (BitVec.ofInt 16 value)
      else .error ((LiteralFault.outOfRange value).errorAt t.span)

/-- The value of one to four hexadecimal digits that is at most `limit`, whatever the token's kind. -/
def hexadecimal (limit : Nat) (t : Token) : Except SourceError Nat :=
  let digits := t.lexeme.toList
  if digits.isEmpty || digits.length > 4 || !digits.all (Numeral.digit? 16 · |>.isSome) then
    .error ((LiteralFault.notHexadecimal t.lexeme).errorAt t.span)
  else
    let value := Numeral.value 16 digits
    if value ≤ limit then .ok value
    else .error ((LiteralFault.overLimit value limit).errorAt t.span)

/-- A hexadecimal literal as the number of a cell. -/
def address (t : Token) : Except SourceError Address :=
  (t.hexadecimal 0xFFF).map (BitVec.ofNat 12)

end Token

end BasicComputer
