/-!
# Numerals

How a text of digits is read as a number within bounds. Digits are taken from the left and the first
position that cannot be read decides the fault; at one position a bad digit outweighs an overflow.
-/

namespace BasicComputer

/-- Why a text is not a numeral of the wanted range. -/
inductive NumeralFault
  | empty
  | badDigit
  | tooLarge
  | tooSmall
  deriving DecidableEq, Repr

def NumeralFault.message : NumeralFault → String
  | .empty => "cannot parse integer from empty string"
  | .badDigit => "invalid digit found in string"
  | .tooLarge => "number too large to fit in target type"
  | .tooSmall => "number too small to fit in target type"

namespace Numeral

/-- What a character counts for as a digit: letters go on from ten, in either case. Any other character
ranks above the digits of every base up to thirty-six. -/
def rank (c : Char) : Nat :=
  if c.isDigit then c.toNat - '0'.toNat
  else if c.isLower then c.toNat - 'a'.toNat + 10
  else if c.isUpper then c.toNat - 'A'.toNat + 10
  else 36

/-- The value of a digit of the given base. -/
def digit? (base : Nat) (c : Char) : Option Nat :=
  if rank c < base then some (rank c) else none

/-- The number that digits stand for in the given base. -/
def value (base : Nat) (digits : List Char) : Nat :=
  digits.foldl (fun n c => n * base + rank c) 0

/-- Reads digits after a part already read as `value`; exceeding `bound` is the fault `overflow`. -/
def readDigits (base bound : Nat) (overflow : NumeralFault) :
    Nat → List Char → Except NumeralFault Nat
  | value, [] => .ok value
  | value, c :: rest =>
    match digit? base c with
    | none => .error .badDigit
    | some d =>
      if value * base + d ≤ bound then readDigits base bound overflow (value * base + d) rest
      else .error overflow

/-- Reads a number from 0 to `bound`, with one optional plus sign. -/
def readNat (base bound : Nat) : List Char → Except NumeralFault Nat
  | [] => .error .empty
  | ['+'] => .error .badDigit
  | '+' :: digits => readDigits base bound .tooLarge 0 digits
  | digits => readDigits base bound .tooLarge 0 digits

/-- Reads a number from `-depth` to `bound`, with one optional sign. -/
def readInt (base depth bound : Nat) : List Char → Except NumeralFault Int
  | ['-'] => .error .badDigit
  | '-' :: digits => (readDigits base depth .tooSmall 0 digits).map fun n => -(n : Int)
  | digits => (readNat base bound digits).map Int.ofNat

end Numeral

end BasicComputer
