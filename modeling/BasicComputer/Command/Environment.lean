import BasicComputer.Settings

/-!
# The environment

The variables that a session looks at, and what they say of colour. Variables that ask for colour are
read in two ways: once for what a session writes, and once for what is told of a command line that is not
understood.
-/

namespace BasicComputer

/-- The texts of the variables that are set, and whether the output goes to a terminal. -/
structure Environment where
  texts : List (String × String)
  terminal : Bool
  deriving DecidableEq, Repr

/-- How many colours may be used. -/
inductive Palette
  | plain
  /-- The sixteen colours that have names. -/
  | named
  /-- Every colour. -/
  | full
  deriving DecidableEq, Repr

namespace Environment

/-- The names of the variables that are looked at. -/
def names : List String :=
  ["MANO_MAX_STEPS", "MANO_TRACE", "NO_COLOR", "CLICOLOR", "CLICOLOR_FORCE", "COLORTERM"]

/-- The text of a variable; of two texts the first counts. -/
def get? (e : Environment) (name : String) : Option String := e.texts.lookup name

def settings (e : Environment) : Settings :=
  .ofTexts (e.get? "MANO_MAX_STEPS") (e.get? "MANO_TRACE")

/-- Colour on a terminal has not been turned off. -/
def colorsTerminal (e : Environment) : Bool := e.terminal && e.get? "CLICOLOR" != some "0"

/-- A session is coloured where colour is forced by any text but `0`; otherwise on a terminal, unless
there is a text against it. -/
def colorsSession (e : Environment) : Bool :=
  (e.get? "CLICOLOR_FORCE").any (· != "0") || ((e.get? "NO_COLOR").isNone && e.colorsTerminal)

/-- What is told of a command line is coloured unless there is a text against it; only a text that is not
empty counts for or against. -/
def colorsRefusal (e : Environment) : Bool :=
  let isGiven (name : String) : Bool := (e.get? name).any (· != "")
  !isGiven "NO_COLOR" && (isGiven "CLICOLOR_FORCE" || e.colorsTerminal)

/-- The colours of a session. -/
def palette (e : Environment) : Palette :=
  if e.colorsSession then
    match e.get? "COLORTERM" with
    | some "truecolor" | some "24bit" => .full
    | _ => .named
  else .plain

end Environment

end BasicComputer
