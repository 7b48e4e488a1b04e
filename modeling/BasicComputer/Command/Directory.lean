import BasicComputer.Text.Path

/-!
# Directories

How a path leads to a file. A directory holds files under paths of their own; the directories between are
there because a file is in them. Nothing outside is known.
-/

namespace BasicComputer

/-- Why a file cannot be read. -/
inductive FileFault
  | notFound
  | notDirectory
  | isDirectory
  | nameTooLong
  | denied
  | notText
  | other (message : String)
  deriving DecidableEq, Repr

def FileFault.message : FileFault → String
  | notFound => "No such file or directory (os error 2)"
  | denied => "Permission denied (os error 13)"
  | notDirectory => "Not a directory (os error 20)"
  | isDirectory => "Is a directory (os error 21)"
  | nameTooLong => "File name too long (os error 36)"
  | notText => "stream did not contain valid UTF-8"
  | other message => message

/-- Files by the parts of their paths. -/
structure Directory where
  files : List (List String × String)
  deriving DecidableEq, Repr

/-- Where a part of a path has led. -/
inductive Place
  /-- In the directory, along these parts, the last one first. -/
  | inside (parts : List String)
  /-- Above the directory. -/
  | above
  deriving DecidableEq, Repr

namespace Directory

/-- The files of these paths. -/
def ofFiles (files : List (String × String)) : Directory :=
  ⟨files.map fun (path, text) => (Path.parts path, text)⟩

/-- The text of the file at this place. -/
def file? (d : Directory) (parts : List String) : Option String :=
  d.files.lookup parts.reverse

/-- A file lies below this place. -/
def isDirectory (d : Directory) (parts : List String) : Bool :=
  parts.isEmpty || d.files.any fun (path, _) => parts.reverse.isPrefixOf path && path != parts.reverse

/-- The longest name of a file, in bytes. -/
def longestName : Nat := 255

/-- The longest path, in bytes. -/
def longestPath : Nat := 4095

/-- Goes one part further from a place. -/
def enter (d : Directory) (place : Place) (part : String) : Except FileFault Place :=
  match place with
  | .above =>
    if part = ".." || part = "." then .ok .above
    else if part.utf8ByteSize > longestName then .error .nameTooLong
    else .error .notFound
  | .inside parts =>
    if (d.file? parts).isSome then .error .notDirectory
    else if part = "." then .ok place
    else if part = ".." then
      match parts with
      | [] => .ok .above
      | _ :: rest => .ok (.inside rest)
    else if part.utf8ByteSize > longestName then .error .nameTooLong
    else if (d.file? (part :: parts)).isSome || d.isDirectory (part :: parts) then
      .ok (.inside (part :: parts))
    else .error .notFound

/-- Reads the file that a path leads to. A path that begins with a slash leads out of the directory, and
one that ends with a slash leads to a directory. -/
def read (d : Directory) (path : String) : Except FileFault String := do
  if path.utf8ByteSize > longestPath then throw .nameTooLong
  let start := if path.startsWith "/" then .above else .inside []
  let steps := path.splitOn "/"
  let place ← (steps.filter (· != "")).foldlM d.enter start
  match place with
  | .above => throw .isDirectory
  | .inside parts =>
    match d.file? parts with
    | some text => if steps.getLast? = some "" then throw .notDirectory else return text
    | none => throw .isDirectory

end Directory

end BasicComputer
