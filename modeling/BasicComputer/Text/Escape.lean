/-!
# Escaped characters

A character is shown in printable ASCII: quotes, the backslash, tab, carriage return and newline with a
backslash in front, what is printable as itself, and anything else by its code point.
-/

namespace BasicComputer

def escapeChar (c : Char) : List Char :=
  match c with
  | '\t' => ['\\', 't']
  | '\r' => ['\\', 'r']
  | '\n' => ['\\', 'n']
  | '\'' => ['\\', '\'']
  | '"' => ['\\', '"']
  | '\\' => ['\\', '\\']
  | c =>
    if ' ' ≤ c ∧ c ≤ '~' then [c]
    else ['\\', 'u', '\x7b'] ++ Nat.toDigits 16 c.toNat ++ ['\x7d']

end BasicComputer
