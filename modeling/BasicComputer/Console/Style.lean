/-!
# Styles

A style is written in front of a text as an escape sequence and taken back behind it. Where the text
takes back a style of its own, the outer style is written again.
-/

namespace BasicComputer

inductive Color
  | red
  | green
  | yellow
  | cyan
  | brightBlue
  | rgb (red green blue : Nat)
  deriving DecidableEq, Repr

def Color.code : Color → String
  | red => "31"
  | green => "32"
  | yellow => "33"
  | cyan => "36"
  | brightBlue => "94"
  | rgb r g b => "38;2;" ++ toString r ++ ";" ++ toString g ++ ";" ++ toString b

/-- The weight of the letters. -/
inductive Weight
  | bold
  | dimmed
  deriving DecidableEq, Repr

def Weight.code : Weight → String
  | bold => "1"
  | dimmed => "2"

structure Style where
  weight : Option Weight
  color : Option Color
  deriving DecidableEq, Repr

namespace Style

/-- The escape sequence that takes back every style. -/
def reset : List Char := ['\x1b', '[', '0', 'm']

/-- The escape sequence that begins the style. -/
def opening (style : Style) : List Char :=
  let codes := (style.weight.map Weight.code).toList ++ (style.color.map Color.code).toList
  ['\x1b', '['] ++ (";".intercalate codes).toList ++ ['m']

/-- Writes `opening` again behind each reset. -/
def reopen (opening : List Char) : List Char → List Char
  | '\x1b' :: '[' :: '0' :: 'm' :: rest => reset ++ opening ++ reopen opening rest
  | c :: rest => c :: reopen opening rest
  | [] => []

/-- The text in the style, or as it is where colour is off. -/
def paint (style : Style) (colored : Bool) (text : String) : String :=
  if colored then
    String.ofList (style.opening ++ reopen style.opening text.toList ++ reset)
  else text

end Style

/-- A colour on its own. -/
def Color.style (color : Color) : Style := ⟨none, some color⟩

end BasicComputer
