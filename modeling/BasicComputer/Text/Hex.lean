/-!
# Hexadecimal text

Numbers are shown in hexadecimal with at least a given number of digits.
-/

namespace BasicComputer.Hex

/-- Lower-case digits, zeros in front up to the width. -/
def lower (width n : Nat) : String :=
  String.ofList ((Nat.toDigits 16 n).leftpad width '0')

/-- Upper-case digits, zeros in front up to the width. -/
def upper (width n : Nat) : String :=
  String.ofList (((Nat.toDigits 16 n).map Char.toUpper).leftpad width '0')

end BasicComputer.Hex
