import BasicComputer.Span

/-!
# Source errors

What can be wrong with a source text, where, and how it is told.
-/

namespace BasicComputer

inductive Problem
  /-- A character that begins no token, the only problem of scanning. -/
  | unknownCharacter (reason : String)
  /-- A label that the span `first` defines already. -/
  | duplicateLabel (label : String) (first : Span)
  | undefinedLabel (label : String)
  | unknownMnemonic (mnemonic : String)
  | operandCount (mnemonic : String) (expected found : Nat)
  /-- The mark `I` on an instruction without an address. -/
  | illegalIndirection (mnemonic : String)
  | malformedLiteral (reason : String)
  /-- A token that is sound but misplaced. -/
  | unexpectedToken (expected found : String)
  deriving DecidableEq, Repr

namespace Problem

def message : Problem → String
  | unknownCharacter reason => "Encountered an " ++ reason
  | duplicateLabel label _ => "Duplicate label `" ++ label ++ "`"
  | undefinedLabel label => "Undefined label `" ++ label ++ "`"
  | unknownMnemonic mnemonic => "Unknown mnemonic `" ++ mnemonic ++ "`"
  | operandCount mnemonic expected found =>
    "`" ++ mnemonic ++ "` expects " ++ toString expected ++
      (if expected = 1 then " operand" else " operands") ++ ", found " ++ toString found
  | illegalIndirection mnemonic => "`" ++ mnemonic ++ "` cannot use indirect addressing"
  | malformedLiteral reason => "Encountered an invalid literal: " ++ reason
  | unexpectedToken expected found => "Expected " ++ expected ++ ", found " ++ found

def code : Problem → String
  | unknownCharacter .. => "lex::unknown"
  | duplicateLabel .. => "parse::duplicate_label"
  | undefinedLabel .. => "parse::undefined_label"
  | unknownMnemonic .. => "parse::unknown_mnemonic"
  | operandCount .. => "parse::arity"
  | illegalIndirection .. => "parse::indirection"
  | malformedLiteral .. => "parse::bad_lit"
  | unexpectedToken .. => "parse::unexpected_token"

def help : Problem → String
  | unknownCharacter .. =>
    "only labels, mnemonics, directives, literals and `/` comments are allowed"
  | duplicateLabel .. => "labels may only be defined once per program"
  | undefinedLabel .. => "define the label with `NAME,` at the start of a line"
  | unknownMnemonic .. => "check the instruction table of the basic computer"
  | operandCount .. => "memory-reference instructions take one operand, all others take none"
  | illegalIndirection .. => "only memory-reference instructions support the `I` marker"
  | malformedLiteral .. => "`DEC` takes -32768 to 65535, `HEX` and `ORG` take hexadecimal digits"
  | unexpectedToken .. => "lines look like `[LABEL,] MNEMONIC [OPERAND [I]]`"

/-- What is written at the error's own span. -/
def label : Problem → String
  | unknownCharacter .. => "unknown token"
  | duplicateLabel .. => "duplicate label"
  | undefinedLabel .. => "undefined label"
  | unknownMnemonic .. => "unknown mnemonic"
  | operandCount .. => "incorrect operands"
  | illegalIndirection .. => "illegal indirection"
  | malformedLiteral .. => "incorrect literal"
  | unexpectedToken .. => "unexpected token"

end Problem

structure SourceError where
  problem : Problem
  span : Span
  deriving DecidableEq, Repr

def SourceError.message (e : SourceError) : String := e.problem.message

/-- An error as it is put before the user. -/
structure Report where
  message : String
  code : String
  help : String
  severity : String
  /-- Stretches of the source with the remark written at each. -/
  labels : List (Span × String)
  deriving DecidableEq, Repr

/-- The remark at the error's own span comes first; a duplicate label also shows its first definition. -/
def SourceError.report (e : SourceError) : Report where
  message := e.message
  code := e.problem.code
  help := e.problem.help
  severity := "Error"
  labels := (e.span, e.problem.label) ::
    match e.problem with
    | .duplicateLabel _ first => [(first, "first defined here")]
    | _ => []

end BasicComputer
