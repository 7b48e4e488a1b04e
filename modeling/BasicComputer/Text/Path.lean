/-!
# Paths

The parts of a path stand between slashes; empty parts and single dots name nothing. The extension of a
file is what follows the last dot of its name, unless the name begins with that dot.
-/

namespace BasicComputer.Path

/-- The parts that name something. -/
def parts (path : String) : List String :=
  (path.splitOn "/").filter fun part => part != "" && part != "."

/-- The last part that names something; two dots name no file. -/
def fileName? (path : String) : Option String :=
  match (parts path).getLast? with
  | some ".." => none
  | part => part

/-- What follows the last dot of a reversed name. -/
def extensionOfReversed (name : List Char) : Option (List Char) :=
  match name.dropWhile (· != '.') with
  | [] => none
  | [_] => none
  | _ => some (name.takeWhile (· != '.')).reverse

def extension? (path : String) : Option String :=
  match fileName? path with
  | none => none
  | some name => (extensionOfReversed name.toList.reverse).map String.ofList

end BasicComputer.Path
