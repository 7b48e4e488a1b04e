import BasicComputer.Assembly.Image
import BasicComputer.Proofs.Source.Grammar
import BasicComputer.Proofs.Source.Lines

/-! # Programs

What a source text says: where its program ends, which address every line has, which labels it defines,
and the word that each of its statements stands for. Nothing here depends on an order of work. -/

namespace BasicComputer

/-! ## The lines of a program -/

/-- The tokens of a line without its label. -/
def Line.body : List Token → List Token
  | [] => []
  | t :: rest => if t.kind = .label then rest else t :: rest

/-- The line holds the directive that ends the program. -/
def TextLine.ends (t : TextLine) : Bool :=
  match t.tokens with
  | .ok tokens => (Line.body tokens).head?.any (·.kind == .directive .stop)
  | .error _ => false

/-- The lines of a text up to the end of its program. -/
def TextLine.throughEnd : List TextLine → List TextLine
  | [] => []
  | t :: rest => if t.ends then [t] else t :: throughEnd rest

/-- The tokens of a line and the line that they read as. -/
structure SourceLine where
  tokens : List Token
  line : Line

namespace SourceLine

/-- Where the line moves the location counter. -/
def origin? (l : SourceLine) : Option Address :=
  match l.line.content with
  | .origin address => some address
  | _ => none

def statement? (l : SourceLine) : Option Statement :=
  match l.line.content with
  | .word statement => some statement
  | _ => none

/-- The label that the line defines. -/
def label? (l : SourceLine) : Option String :=
  l.line.label.map fun label => upperCase label.lexeme.toList

/-- The line has a word, or a label and nothing else. -/
def canEnter (l : SourceLine) : Bool :=
  match l.line with
  | ⟨_, .word _⟩ | ⟨some _, .nothing⟩ => true
  | _ => false

/-- From the first token to the last. -/
def span (l : SourceLine) : Span :=
  match l.tokens with
  | [] => default
  | first :: rest => first.span.join (rest.getLastD first).span

end SourceLine

namespace Program

variable (p q before : List SourceLine)

/-- The source text has these lines up to the end of its program, each of a form that a line may
have. -/
def Reads (source : String) (p : List SourceLine) : Prop :=
  List.Forall₂ (fun l t => t.tokens = .ok l.tokens ∧ l.line.Form l.tokens) p
    (TextLine.throughEnd (TextLine.ofText 0 source.toList))

/-- The address after these lines: the last origin, or else 0, and one more for every word since. -/
def counter : Address :=
  let since := before.reverse.takeWhile (·.origin?.isNone)
  (before.reverse.findSome? (·.origin?)).getD 0 + BitVec.ofNat 12 (since.countP (·.statement?.isSome))

/-- Every line of a program, with the lines before it. -/
def linesFrom (before : List SourceLine) :
    List SourceLine → List (List SourceLine × SourceLine)
  | [] => []
  | l :: rest => (before, l) :: linesFrom (before ++ [l]) rest

/-- The statements of a program in order, with their addresses. -/
def placements : List Placement :=
  (linesFrom [] p).filterMap fun (before, l) =>
    l.statement?.map fun statement => ⟨counter before, l.span, statement⟩

/-- The address of the first line that can be entered. -/
def start? : Option Address := ((linesFrom [] p).find? (·.2.canEnter)).map (counter ·.1)

/-- The labels that a program defines, all in upper case. -/
def labels : List String := p.filterMap (·.label?)

/-- A line defines the label, in some spelling of its letters' case, at this address. -/
def Defines (label : String) (a : Address) : Prop :=
  ∃ before l after, p = before ++ l :: after ∧ l.label? = some (upperCase label.toList) ∧
    a = counter before

/-- The word that a statement of the program stands for. -/
inductive Means : Statement → Word → Prop
  | number {op : MemoryOp} {operand : Token} {indirect : Option Span} {n : Nat}
      (hk : operand.kind = .number) (hn : operand.DenotesHexadecimal n) (hle : n ≤ 0xFFF) :
      Means (.memory op operand indirect)
        (BitVec.ofNat 16 (indirect.isSome.toNat * 0x8000 + op.opcode.toNat * 0x1000 + n))
  | label {op : MemoryOp} {operand : Token} {indirect : Option Span} {a : Address}
      (hk : operand.kind ≠ .number) (ha : Defines p operand.lexeme a) :
      Means (.memory op operand indirect)
        (BitVec.ofNat 16 (indirect.isSome.toNat * 0x8000 + op.opcode.toNat * 0x1000 + a.toNat))
  | register (op : RegisterOp) :
      Means (.register op none) (BitVec.ofNat 16 (0x7000 + op.selector.toNat))
  | io (op : IoOp) : Means (.io op none) (BitVec.ofNat 16 (0xF000 + op.selector.toNat))
  | decimal {literal : Token} {v : Int} (hv : literal.DenotesDecimal v) :
      Means (.decimal literal) (BitVec.ofInt 16 v)
  | hexadecimal {literal : Token} {n : Nat} (hn : literal.DenotesHexadecimal n) :
      Means (.hexadecimal literal) (BitVec.ofNat 16 n)

/-- The image has one word for every statement, and begins where the program is entered. -/
structure Assembles (image : Image) : Prop where
  entry_eq : image.entry = ((start? p).getD 0).word
  words : List.Forall₂
    (fun placement w => w.address = placement.address.word ∧ w.span = placement.span ∧
      Means p placement.statement w.word) (placements p) image.words

end Program

end BasicComputer
