/-!
# Columns

A text is brought to a column's width, counted in characters, by spaces at one end.
-/

namespace BasicComputer.Column

/-- Spaces in front. -/
def alignRight (width : Nat) (text : String) : String :=
  String.ofList (text.toList.leftpad width ' ')

/-- Spaces at the end. -/
def alignLeft (width : Nat) (text : String) : String :=
  String.ofList (text.toList.rightpad width ' ')

end BasicComputer.Column
