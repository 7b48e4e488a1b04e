import BasicComputer.Console.Visible

/-!
# Refusals

Why a command line is not understood, and how that is told. What is at fault stands in quotes and is
marked by a style. Where no colour is used, the message is shown without escape sequences, be they its
own or those of an argument.
-/

namespace BasicComputer

inductive Refusal
  | invalidValue (value switch reason : String)
  | missingValue (wanted : String)
  | missingPath
  | unexpectedArgument (argument : String)
  | unexpectedValue (value switch : String)
  | repeated (switch : String)
  | unknownCommand (name : String)
  deriving DecidableEq, Repr

/-- The part that a marked text has in a message. -/
inductive Mark
  | title
  /-- What is at fault. -/
  | fault
  /-- What has to be written as it stands. -/
  | literal
  deriving DecidableEq, Repr

namespace Mark

/-- The escape sequences in front of a marked text. -/
def opening : Mark → String
  | title => "\x1b[1m\x1b[31m"
  | fault => "\x1b[33m"
  | literal => "\x1b[1m"

/-- The text between the escape sequences of its mark. -/
def apply (m : Mark) (text : String) : String := m.opening ++ text ++ "\x1b[0m"

/-- The marked text in quotes. -/
def quote (m : Mark) (text : String) : String := "'" ++ m.apply text ++ "'"

end Mark

namespace Refusal

/-- What is wrong. -/
def sentence : Refusal → String
  | invalidValue value switch reason =>
    "invalid value " ++ Mark.fault.quote value ++ " for " ++ Mark.literal.quote switch ++ ": " ++ reason
  | missingValue wanted =>
    "a value is required for " ++ Mark.fault.quote wanted ++ " but none was supplied"
  | missingPath => "the following required arguments were not provided:"
  | unexpectedArgument argument => "unexpected argument " ++ Mark.fault.quote argument ++ " found"
  | unexpectedValue value switch =>
    "unexpected value " ++ Mark.fault.quote value ++ " for " ++ Mark.literal.quote switch ++
      " found; no more were expected"
  | repeated switch => "the argument " ++ Mark.fault.quote switch ++ " cannot be used multiple times"
  | unknownCommand name => "unrecognized subcommand " ++ Mark.fault.quote name

/-- The whole message, with its marks. -/
def marked (r : Refusal) : String :=
  Mark.title.apply "error:" ++ " " ++ r.sentence ++ "\n\nFor more information, try " ++
    Mark.literal.quote "--help" ++ ".\n"

/-- The whole message as it is shown, in colour or not. -/
def message (r : Refusal) (colored : Bool) : String :=
  if colored then r.marked else visible r.marked

end Refusal

end BasicComputer
