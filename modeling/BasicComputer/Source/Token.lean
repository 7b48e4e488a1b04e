import BasicComputer.Instruction.Basic
import BasicComputer.Span

/-!
# Tokens

The kinds of token in a source text, and the keywords among its words: mnemonics and directives.
-/

namespace BasicComputer

/-- Instructions to the assembler itself. -/
inductive Directive
  /-- Moves the location counter. -/
  | org
  /-- Ends the program. -/
  | stop
  /-- Holds a decimal number. -/
  | dec
  /-- Holds a hexadecimal number. -/
  | hex
  deriving DecidableEq, Repr

namespace Directive

def all : List Directive := [.org, .stop, .dec, .hex]

def name : Directive → String
  | org => "ORG"
  | stop => "END"
  | dec => "DEC"
  | hex => "HEX"

/-- The directive of exactly this spelling. -/
def ofName? (name : String) : Option Directive := all.find? (·.name == name)

theorem ofName?_name (d : Directive) : ofName? d.name = some d := by cases d <;> decide

end Directive

inductive TokenKind
  | identifier
  /-- A word with a comma behind it. -/
  | label
  | mnemonic (m : Mnemonic)
  | directive (d : Directive)
  /-- Begins with a sign or a digit; the statement that uses it settles the base. -/
  | number
  | comment
  | gap
  | newline
  deriving DecidableEq, Repr

namespace TokenKind

def describe : TokenKind → String
  | identifier => "identifier"
  | label => "label definition"
  | mnemonic m => "mnemonic " ++ m.name
  | directive d => "directive " ++ d.name
  | number => "numeric literal"
  | comment => "comment"
  | gap => "whitespace"
  | newline => "end of line"

/-- Comments and gaps say nothing to the assembler. -/
def isTrivia : TokenKind → Bool
  | comment | gap => true
  | _ => false

/-- The kind of an upper-case word with no comma behind it. -/
def ofWord (word : String) : TokenKind :=
  match Mnemonic.ofName? word, Directive.ofName? word with
  | some m, _ => mnemonic m
  | none, some d => directive d
  | none, none => identifier

end TokenKind

/-- A piece of a source text, its letters in upper case. -/
structure Token where
  kind : TokenKind
  lexeme : String
  span : Span
  deriving DecidableEq, Repr

end BasicComputer
