import BasicComputer.Source.Literal

/-!
# Lines

A line is an optional label and then an instruction, a directive or nothing. Whatever follows the
leading keyword must be able to act as an operand; keywords in that place are read by their spelling.
-/

namespace BasicComputer

/-- What a line puts into one word of memory. The span belongs to the mark `I`. -/
inductive Statement
  | memory (op : MemoryOp) (operand : Token) (indirect : Option Span)
  | register (op : RegisterOp) (indirect : Option Span)
  | io (op : IoOp) (indirect : Option Span)
  | decimal (literal : Token)
  | hexadecimal (literal : Token)
  deriving DecidableEq, Repr

/-- What a line does besides defining a label. -/
inductive Content
  | nothing
  | origin (address : Address)
  | stop
  | word (statement : Statement)
  deriving DecidableEq, Repr

structure Line where
  label : Option Token
  content : Content
  deriving DecidableEq, Repr

/-- The token as an operand. -/
def Token.asOperand (t : Token) : Except SourceError Token :=
  match t.kind with
  | .identifier | .number => .ok t
  | .mnemonic _ | .directive _ => .ok { t with kind := .identifier }
  | kind => .error ⟨.unexpectedToken "operand" kind.describe, t.span⟩

/-- The span from a keyword to the last of its operands. -/
def operandsSpan (head : Token) (operands : List Token) : Span :=
  operands.foldl (fun span t => span.join t.span) head.span

/-- The error for `operands` where `name` takes `expected` of them. -/
def operandCountError (name : String) (expected : Nat) (head : Token) (operands : List Token) :
    SourceError :=
  ⟨.operandCount name expected operands.length, operandsSpan head operands⟩

/-- Separates the mark `I`: the last of more operands than the instruction takes. -/
def splitIndirect (expected : Nat) (operands : List Token) : List Token × Option Span :=
  match operands.getLast? with
  | some last =>
    if last.lexeme = "I" ∧ expected < operands.length then (operands.dropLast, some last.span)
    else (operands, none)
  | none => (operands, none)

/-- The statement of an instruction line. -/
def Mnemonic.statement (m : Mnemonic) (head : Token) (operands : List Token) :
    Except SourceError Statement :=
  match m with
  | memory op =>
    match splitIndirect 1 operands with
    | ([operand], indirect) => .ok (.memory op operand indirect)
    | (others, _) => .error (operandCountError op.name 1 head others)
  | register op =>
    match splitIndirect 0 operands with
    | ([], indirect) => .ok (.register op indirect)
    | (others, _) => .error (operandCountError op.name 0 head others)
  | io op =>
    match splitIndirect 0 operands with
    | ([], indirect) => .ok (.io op indirect)
    | (others, _) => .error (operandCountError op.name 0 head others)

/-- The only operand of a directive that takes a literal. -/
def soleLiteral (head : Token) (operands : List Token) : Except SourceError Token :=
  match operands with
  | [] => .error ((LiteralFault.missing head.lexeme).errorAt head.span)
  | [literal] => .ok literal
  | _ => .error (operandCountError head.lexeme 1 head operands)

/-- The content of a directive line. Only an origin's literal is read at once. -/
def Directive.content (d : Directive) (head : Token) (operands : List Token) :
    Except SourceError Content :=
  match d with
  | stop =>
    if operands.isEmpty then .ok .stop else .error (operandCountError head.lexeme 0 head operands)
  | org => do return .origin (← (← soleLiteral head operands).address)
  | dec => do return .word (.decimal (← soleLiteral head operands))
  | hex => do return .word (.hexadecimal (← soleLiteral head operands))

/-- The content of a line without its label. -/
def Content.read : List Token → Except SourceError Content
  | [] => .ok .nothing
  | head :: rest =>
    match head.kind with
    | .mnemonic m => do return .word (← m.statement head (← rest.mapM Token.asOperand))
    | .directive d => do d.content head (← rest.mapM Token.asOperand)
    | .identifier => .error ⟨.unknownMnemonic head.lexeme, head.span⟩
    | kind => .error ⟨.unexpectedToken "mnemonic or directive" kind.describe, head.span⟩

/-- Reads the tokens of a line, which hold no trivia. -/
def Line.read : List Token → Except SourceError Line
  | [] => .ok ⟨none, .nothing⟩
  | t :: rest =>
    if t.kind = .label then do return ⟨some t, ← Content.read rest⟩
    else do return ⟨none, ← Content.read (t :: rest)⟩

end BasicComputer
