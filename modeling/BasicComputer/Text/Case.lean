/-!
# Upper case

Labels, mnemonics and digits are compared in upper case. Only ASCII letters have another case here.
-/

namespace BasicComputer

def upperCase (text : List Char) : String := String.ofList (text.map Char.toUpper)

end BasicComputer
