import BasicComputer.Command.Environment
import BasicComputer.Console.Style

/-!
# Banner

What the program says of itself.
-/

namespace BasicComputer.Banner

def version : String := "0.1.0"

/-- The answer to the question for the version. -/
def versionLine : String := "mano " ++ version

def logo : String :=
  "\n  _ __ ___   __ _ _ __   ___\n | '_ ` _ \\ / _` | '_ \\ / _ \\\n" ++
    " | | | | | | (_| | | | | (_) |\n |_| |_| |_|\\__,_|_| |_|\\___/"

/-- The logo is light blue, or the nearest colour that has a name. -/
def logoStyle : Palette → Style
  | .full => ⟨some .bold, some (.rgb 120 190 255)⟩
  | _ => ⟨some .bold, some .brightBlue⟩

def welcome : String :=
  "\nWelcome to mano, an assembler and clock-pulse simulator for the basic computer\n" ++
    "found in Mano's Computer System Architecture.\n" ++
    "Please use `-h` or `--help` to access the usage instructions and documentation.\n"

/-- The lines that are shown where no command is given. -/
def lines (palette : Palette) : List String :=
  ["\n~ mano v" ++ version ++ " ~", (logoStyle palette).paint (palette != .plain) logo, welcome]

/-- The lines that are shown where help is asked for. -/
def helpLines : List String :=
  ["Usage: mano [PATH] [COMMAND]", "", "Commands:",
    "  run      Assemble and run a `.asm` file, then show its output and registers",
    "  check    Check a `.asm` file without running it",
    "  listing  Print the assembled words of a `.asm` file next to their source lines", "",
    "Options of run: --input <INPUT> --max-steps <MAX_STEPS> --trace --break <ADDRESS> --minimal"]

end BasicComputer.Banner
