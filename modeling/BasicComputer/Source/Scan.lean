import BasicComputer.Source.Error
import BasicComputer.Source.Token
import BasicComputer.Text.Case
import BasicComputer.Text.Escape

/-!
# Scanning

A source text is cut into tokens from the left, each as long as its kind allows. Scanning breaks off at
the first character that begins no token.
-/

namespace BasicComputer

/-- Blanks that separate tokens within a line. -/
def isGap (c : Char) : Bool := c == ' ' || c == '\t' || c == '\r'

/-- What the first character of a token makes of it. -/
inductive Lead
  | comment
  | newline
  | gap
  | number
  | word
  deriving DecidableEq, Repr

namespace Lead

def of? (c : Char) : Option Lead :=
  if c == '/' then some comment
  else if c == '\n' then some newline
  else if isGap c then some gap
  else if c == '+' || c == '-' || c.isDigit then some number
  else if c.isAlpha then some word
  else none

/-- Whether a character after the first goes on with the token. -/
def continues : Lead → Char → Bool
  | comment, c => c != '\n'
  | newline, _ => false
  | gap, c => isGap c
  | number, c => c.isAlphanum
  | word, c => c.isAlphanum

/-- The kind of a token that is no label. -/
def kind (lexeme : String) : Lead → TokenKind
  | comment => .comment
  | newline => .newline
  | gap => .gap
  | number => .number
  | word => .ofWord lexeme

end Lead

/-- The tokens of a text, and the error at which scanning broke off. -/
structure Scan where
  tokens : List Token
  fault : Option SourceError
  deriving DecidableEq, Repr

namespace Scan

def cons (t : Token) (s : Scan) : Scan := { s with tokens := t :: s.tokens }

/-- The error for a character that begins no token. -/
def unknownCharacter (offset : Nat) (c : Char) : SourceError where
  problem := .unknownCharacter ("unexpected character `" ++ String.ofList (escapeChar c) ++ "`")
  span := ⟨offset, offset + c.utf8Size⟩

theorem length_dropWhile_le (p : Char → Bool) (text : List Char) :
    (text.dropWhile p).length ≤ text.length :=
  (List.dropWhile_suffix p).length_le

/-- Scans a text whose first byte has the given offset. A comma right behind a word makes it a label and
belongs to no token. -/
def scanFrom (offset : Nat) (text : List Char) : Scan :=
  match text with
  | [] => ⟨[], none⟩
  | c :: rest =>
    match Lead.of? c with
    | none => ⟨[], some (unknownCharacter offset c)⟩
    | some lead =>
      let run := c :: rest.takeWhile lead.continues
      let after := rest.dropWhile lead.continues
      let stop := offset + byteLength run
      let lexeme := upperCase run
      if lead == .word && after.head? == some ',' then
        (scanFrom (stop + 1) after.tail).cons ⟨.label, lexeme, ⟨offset, stop⟩⟩
      else
        (scanFrom stop after).cons ⟨lead.kind lexeme, lexeme, ⟨offset, stop⟩⟩
termination_by text.length
decreasing_by
  · have := length_dropWhile_le lead.continues rest
    simp only [List.length_tail, List.length_cons]
    omega
  · have := length_dropWhile_le lead.continues rest
    simp only [List.length_cons]
    omega

/-- Cuts a list of tokens at its newlines. -/
def splitLines : List Token → List (List Token)
  | [] => [[]]
  | t :: rest =>
    if t.kind = .newline then [] :: splitLines rest
    else
      match splitLines rest with
      | [] => [[t]]
      | line :: lines => (t :: line) :: lines

/-- The lines of the text without trivia. The line at which scanning broke off is an error. -/
def lines (s : Scan) : List (Except SourceError (List Token)) :=
  let lines := splitLines (s.tokens.filter (!·.kind.isTrivia))
  match s.fault with
  | none => lines.map .ok
  | some e => lines.dropLast.map .ok ++ [.error e]

end Scan

/-- Scans a whole source text. -/
def scan (source : String) : Scan := Scan.scanFrom 0 source.toList

/-- All tokens of a source text but its trivia. -/
def tokenize (source : String) : Except SourceError (List Token) :=
  match scan source with
  | ⟨tokens, none⟩ => .ok (tokens.filter (!·.kind.isTrivia))
  | ⟨_, some e⟩ => .error e

end BasicComputer
