import BasicComputer.Proofs.Except
import BasicComputer.Proofs.Source.Literals
import BasicComputer.Source.Line

/-! # The grammar of lines

The forms that a line may have, and that reading a line accepts these forms and no others. Reading alone
also lets the mark `I` pass behind instructions without an address; those have no form. -/

namespace BasicComputer

/-! ## Operands -/

namespace Token

/-- Identifiers, numbers and keywords can act as operands. -/
inductive IsOperand (t : Token) : Prop
  | identifier (h : t.kind = .identifier)
  | number (h : t.kind = .number)
  | mnemonic {m : Mnemonic} (h : t.kind = .mnemonic m)
  | directive {d : Directive} (h : t.kind = .directive d)

theorem isOperand_ofWord {t : Token} {word : String} (h : t.kind = TokenKind.ofWord word) :
    t.IsOperand := by
  unfold TokenKind.ofWord at h
  split at h
  · exact .mnemonic h
  · exact .directive h
  · exact .identifier h

/-- The token as an operand: what is no number is an identifier. -/
def operand (t : Token) : Token := if t.kind = .number then t else { t with kind := .identifier }

@[simp] theorem lexeme_operand (t : Token) : t.operand.lexeme = t.lexeme := by
  unfold operand
  split <;> rfl

@[simp] theorem span_operand (t : Token) : t.operand.span = t.span := by
  unfold operand
  split <;> rfl

theorem asOperand_eq_ok_iff {t u : Token} : t.asOperand = .ok u ↔ t.IsOperand ∧ u = t.operand := by
  obtain ⟨kind, lexeme, span⟩ := t
  refine ⟨?_, ?_⟩
  · intro h
    cases kind with
    | identifier | mnemonic | directive =>
        cases h
        exact ⟨by first | exact .identifier rfl | exact .mnemonic rfl | exact .directive rfl, rfl⟩
    | number =>
        cases h
        exact ⟨.number rfl, rfl⟩
    | label | comment | gap | newline => cases h
  · intro hx
    rcases hx with ⟨h, rfl⟩
    cases h with
    | identifier h | number h | mnemonic h | directive h =>
        cases h
        rfl

theorem mapM_asOperand_eq_ok_iff {tokens args : List Token} :
    tokens.mapM asOperand = .ok args ↔
      (∀ t ∈ tokens, t.IsOperand) ∧ args = tokens.map operand := by
  have hmap : List.Forall₂ (fun t u => u = t.operand) tokens args ↔ args = tokens.map operand := by
    rw [eq_comm, ← List.forall₂_eq_eq_eq, List.forall₂_map_left_iff]
    simp only [eq_comm]
  simp only [mapM_eq_ok_iff, asOperand_eq_ok_iff, List.forall₂_and_left, hmap]

end Token

/-! ## Forms -/

/-- The forms of a line without its label. -/
inductive Content.Form : List Token → Content → Prop
  | nothing : Form [] .nothing
  | origin {head operand : Token} {n : Nat} (hh : head.kind = .directive .org)
      (ho : operand.IsOperand) (hn : operand.DenotesHexadecimal n) (hle : n ≤ 0xFFF) :
      Form [head, operand] (.origin (BitVec.ofNat 12 n))
  | stop {head : Token} (hh : head.kind = .directive .stop) : Form [head] .stop
  | decimal {head operand : Token} (hh : head.kind = .directive .dec) (ho : operand.IsOperand) :
      Form [head, operand] (.word (.decimal operand.operand))
  | hexadecimal {head operand : Token} (hh : head.kind = .directive .hex) (ho : operand.IsOperand) :
      Form [head, operand] (.word (.hexadecimal operand.operand))
  | direct {head operand : Token} {op : MemoryOp} (hh : head.kind = .mnemonic (.memory op))
      (ho : operand.IsOperand) : Form [head, operand] (.word (.memory op operand.operand none))
  | indirect {head operand mark : Token} {op : MemoryOp} (hh : head.kind = .mnemonic (.memory op))
      (ho : operand.IsOperand) (hm : mark.IsOperand) (hi : mark.lexeme = "I") :
      Form [head, operand, mark] (.word (.memory op operand.operand (some mark.span)))
  | register {head : Token} {op : RegisterOp} (hh : head.kind = .mnemonic (.register op)) :
      Form [head] (.word (.register op none))
  | io {head : Token} {op : IoOp} (hh : head.kind = .mnemonic (.io op)) :
      Form [head] (.word (.io op none))

/-- The forms of a line. -/
inductive Line.Form : List Token → Line → Prop
  | unlabeled {tokens : List Token} {content : Content} (h : content.Form tokens) :
      Form tokens ⟨none, content⟩
  | labeled {label : Token} {rest : List Token} {content : Content} (hl : label.kind = .label)
      (h : content.Form rest) : Form (label :: rest) ⟨some label, content⟩

/-! ## Statements -/

/-- The mark `I`, where there is one, stands behind the operands. -/
theorem splitIndirect_cases {expected : Nat} {args others : List Token} {indirect : Option Span}
    (h : splitIndirect expected args = (others, indirect)) :
    (args = others ∧ indirect = none) ∨
      ∃ mark, args = others ++ [mark] ∧ mark.lexeme = "I" ∧ indirect = some mark.span := by
  unfold splitIndirect at h
  split at h
  next last hlast =>
    obtain ⟨front, rfl⟩ := List.getLast?_eq_some_iff.mp hlast
    split at h
    next hmark =>
      cases h
      exact .inr ⟨last, by simp, hmark.1, rfl⟩
    next =>
      cases h
      exact .inl ⟨rfl, rfl⟩
  next =>
    cases h
    exact .inl ⟨rfl, rfl⟩

variable {head : Token} {args : List Token} {statement : Statement}

theorem statement_memory_eq_ok_iff {op : MemoryOp} :
    (Mnemonic.memory op).statement head args = .ok statement ↔
      (∃ operand, args = [operand] ∧ statement = .memory op operand none) ∨
        ∃ operand mark, args = [operand, mark] ∧ mark.lexeme = "I" ∧
          statement = .memory op operand (some mark.span) := by
  refine ⟨?_, ?_⟩
  · intro h
    simp only [Mnemonic.statement] at h
    split at h
    next operand indirect heq =>
      cases h
      obtain ⟨rfl, rfl⟩ | ⟨mark, rfl, hmark, rfl⟩ := splitIndirect_cases heq
      · exact .inl ⟨operand, rfl, rfl⟩
      · exact .inr ⟨operand, mark, rfl, hmark, rfl⟩
    next => cases h
  · intro hx
    rcases hx with ⟨operand, rfl, rfl⟩ | ⟨operand, mark, rfl, hmark, rfl⟩
    · simp [Mnemonic.statement, splitIndirect]
    · simp [Mnemonic.statement, splitIndirect, hmark]

/-- What register-reference and input-output instructions have in common. -/
theorem statement_eq_ok_iff {m : Mnemonic} {build : Option Span → Statement}
    (hm : m.statement head args =
      match splitIndirect 0 args with
      | ([], indirect) => .ok (build indirect)
      | (others, _) => .error (operandCountError m.name 0 head others)) :
    m.statement head args = .ok statement ↔
      (args = [] ∧ statement = build none) ∨
        ∃ mark, args = [mark] ∧ mark.lexeme = "I" ∧ statement = build (some mark.span) := by
  rw [hm]
  refine ⟨?_, ?_⟩
  · intro h
    split at h
    next indirect heq =>
      cases h
      obtain ⟨rfl, rfl⟩ | ⟨mark, rfl, hmark, rfl⟩ := splitIndirect_cases heq
      · exact .inl ⟨rfl, rfl⟩
      · exact .inr ⟨mark, rfl, hmark, rfl⟩
    next => cases h
  · intro hx
    rcases hx with ⟨rfl, rfl⟩ | ⟨mark, rfl, hmark, rfl⟩
    · simp [splitIndirect]
    · simp [splitIndirect, hmark]

theorem statement_register_eq_ok_iff {op : RegisterOp} :
    (Mnemonic.register op).statement head args = .ok statement ↔
      (args = [] ∧ statement = .register op none) ∨
        ∃ mark, args = [mark] ∧ mark.lexeme = "I" ∧ statement = .register op (some mark.span) :=
  statement_eq_ok_iff rfl

theorem statement_io_eq_ok_iff {op : IoOp} :
    (Mnemonic.io op).statement head args = .ok statement ↔
      (args = [] ∧ statement = .io op none) ∨
        ∃ mark, args = [mark] ∧ mark.lexeme = "I" ∧ statement = .io op (some mark.span) :=
  statement_eq_ok_iff rfl

/-! ## Contents -/

variable {rest tokens : List Token} {content : Content}

theorem soleLiteral_eq_ok_iff {literal : Token} :
    soleLiteral head args = .ok literal ↔ args = [literal] := by
  match args with
  | [] => simp [soleLiteral]
  | [_] => simp [soleLiteral, eq_comm]
  | _ :: _ :: _ => simp [soleLiteral]

theorem read_mnemonic_eq_ok_iff {m : Mnemonic} (hh : head.kind = .mnemonic m) :
    Content.read (head :: rest) = .ok content ↔
      (∀ t ∈ rest, t.IsOperand) ∧
        ∃ statement, m.statement head (rest.map Token.operand) = .ok statement ∧
          content = .word statement := by
  simp only [Content.read, hh, bind_eq_ok_iff, pure_eq_ok_iff, Token.mapM_asOperand_eq_ok_iff]
  refine ⟨?_, ?_⟩
  · intro h
    rcases h with ⟨args, ⟨hall, rfl⟩, hs⟩
    exact ⟨hall, hs⟩
  · intro h
    rcases h with ⟨hall, hs⟩
    exact ⟨_, ⟨hall, rfl⟩, hs⟩

theorem read_directive_eq_ok_iff {d : Directive} (hh : head.kind = .directive d) :
    Content.read (head :: rest) = .ok content ↔
      (∀ t ∈ rest, t.IsOperand) ∧ d.content head (rest.map Token.operand) = .ok content := by
  simp only [Content.read, hh, bind_eq_ok_iff, Token.mapM_asOperand_eq_ok_iff]
  refine ⟨?_, ?_⟩
  · intro h
    rcases h with ⟨args, ⟨hall, rfl⟩, hc⟩
    exact ⟨hall, hc⟩
  · intro h
    rcases h with ⟨hall, hc⟩
    exact ⟨_, ⟨hall, rfl⟩, hc⟩

/-- A statement without a mark `I` that has nothing to mark. -/
def Statement.Unmarked : Statement → Prop
  | .register _ (some _) | .io _ (some _) => False
  | _ => True

theorem Content.Form.read (h : content.Form tokens) : Content.read tokens = .ok content := by
  cases h with
  | nothing => rfl
  | @origin head operand n hh ho hn hle =>
      have haddress : operand.operand.address = .ok (BitVec.ofNat 12 n) := by
        refine Token.address_eq_ok_iff.mpr ⟨n, ?_, hle, rfl⟩
        simpa [Token.DenotesHexadecimal] using hn
      rw [read_directive_eq_ok_iff hh]
      refine ⟨by simpa using ho, ?_⟩
      simp only [Directive.content, bind_eq_ok_iff, pure_eq_ok_iff, soleLiteral_eq_ok_iff]
      exact ⟨_, rfl, _, haddress, rfl⟩
  | stop hh =>
      rw [read_directive_eq_ok_iff hh]
      exact ⟨by simp, rfl⟩
  | decimal hh ho =>
      rw [read_directive_eq_ok_iff hh]
      exact ⟨by simpa using ho, rfl⟩
  | hexadecimal hh ho =>
      rw [read_directive_eq_ok_iff hh]
      exact ⟨by simpa using ho, rfl⟩
  | direct hh ho =>
      rw [read_mnemonic_eq_ok_iff hh]
      exact ⟨by simpa using ho, _, statement_memory_eq_ok_iff.mpr (.inl ⟨_, rfl, rfl⟩), rfl⟩
  | @indirect head operand mark op hh ho hm hi =>
      have hmark : mark.operand.lexeme = "I" := by simpa using hi
      rw [read_mnemonic_eq_ok_iff hh]
      refine ⟨by simpa using ⟨ho, hm⟩, _, statement_memory_eq_ok_iff.mpr ?_, rfl⟩
      exact .inr ⟨operand.operand, mark.operand, rfl, hmark, by simp⟩
  | register hh =>
      rw [read_mnemonic_eq_ok_iff hh]
      exact ⟨by simp, _, statement_register_eq_ok_iff.mpr (.inl ⟨rfl, rfl⟩), rfl⟩
  | io hh =>
      rw [read_mnemonic_eq_ok_iff hh]
      exact ⟨by simp, _, statement_io_eq_ok_iff.mpr (.inl ⟨rfl, rfl⟩), rfl⟩

theorem form_of_mnemonic {m : Mnemonic} (hh : head.kind = .mnemonic m)
    (hall : ∀ t ∈ rest, t.IsOperand)
    (hs : m.statement head (rest.map Token.operand) = .ok statement) (hu : statement.Unmarked) :
    Content.Form (head :: rest) (.word statement) := by
  cases m with
  | memory op =>
      obtain ⟨operand, hrest, rfl⟩ | ⟨operand, mark, hrest, hmark, rfl⟩ :=
        statement_memory_eq_ok_iff.mp hs
      · obtain ⟨t, rfl, rfl⟩ := List.map_eq_singleton_iff.mp hrest
        exact .direct hh (hall t (by simp))
      · obtain ⟨t, rest', rfl, rfl, hrest'⟩ := List.map_eq_cons_iff.mp hrest
        obtain ⟨u, rfl, rfl⟩ := List.map_eq_singleton_iff.mp hrest'
        rw [Token.span_operand]
        exact .indirect hh (hall t (by simp)) (hall u (by simp)) (by simpa using hmark)
  | register op =>
      obtain ⟨hrest, rfl⟩ | ⟨mark, -, -, rfl⟩ := statement_register_eq_ok_iff.mp hs
      · obtain rfl := List.map_eq_nil_iff.mp hrest
        exact .register hh
      · exact hu.elim
  | io op =>
      obtain ⟨hrest, rfl⟩ | ⟨mark, -, -, rfl⟩ := statement_io_eq_ok_iff.mp hs
      · obtain rfl := List.map_eq_nil_iff.mp hrest
        exact .io hh
      · exact hu.elim

theorem form_of_directive {d : Directive} (hh : head.kind = .directive d)
    (hall : ∀ t ∈ rest, t.IsOperand)
    (hc : d.content head (rest.map Token.operand) = .ok content) : content.Form (head :: rest) := by
  cases d with
  | stop =>
      simp only [Directive.content, List.isEmpty_iff] at hc
      split at hc
      next hrest =>
        obtain rfl := List.map_eq_nil_iff.mp hrest
        cases hc
        exact .stop hh
      next => cases hc
  | org =>
      simp only [Directive.content, bind_eq_ok_iff, pure_eq_ok_iff, soleLiteral_eq_ok_iff] at hc
      obtain ⟨literal, hrest, address, haddress, rfl⟩ := hc
      obtain ⟨t, rfl, rfl⟩ := List.map_eq_singleton_iff.mp hrest
      obtain ⟨n, hn, hle, rfl⟩ := Token.address_eq_ok_iff.mp haddress
      exact .origin hh (hall t (by simp)) (by simpa [Token.DenotesHexadecimal] using hn) hle
  | dec =>
      simp only [Directive.content, bind_eq_ok_iff, pure_eq_ok_iff, soleLiteral_eq_ok_iff] at hc
      obtain ⟨literal, hrest, rfl⟩ := hc
      obtain ⟨t, rfl, rfl⟩ := List.map_eq_singleton_iff.mp hrest
      exact .decimal hh (hall t (by simp))
  | hex =>
      simp only [Directive.content, bind_eq_ok_iff, pure_eq_ok_iff, soleLiteral_eq_ok_iff] at hc
      obtain ⟨literal, hrest, rfl⟩ := hc
      obtain ⟨t, rfl, rfl⟩ := List.map_eq_singleton_iff.mp hrest
      exact .hexadecimal hh (hall t (by simp))

theorem Content.form_of_read (h : Content.read tokens = .ok content)
    (hu : ∀ statement, content = .word statement → statement.Unmarked) : content.Form tokens := by
  cases tokens with
  | nil =>
      cases h
      exact .nothing
  | cons head rest =>
      cases hh : head.kind with
      | mnemonic m =>
          rw [read_mnemonic_eq_ok_iff hh] at h
          obtain ⟨hall, statement, hs, rfl⟩ := h
          exact form_of_mnemonic hh hall hs (hu statement rfl)
      | directive d =>
          rw [read_directive_eq_ok_iff hh] at h
          obtain ⟨hall, hc⟩ := h
          exact form_of_directive hh hall hc
      | identifier | label | number | comment | gap | newline =>
          simp [Content.read, hh] at h

/-! ## Lines -/

variable {line : Line}

theorem Line.read_label_eq_ok_iff {label : Token} (hl : label.kind = .label) :
    Line.read (label :: rest) = .ok line ↔
      ∃ content, Content.read rest = .ok content ∧ line = ⟨some label, content⟩ := by
  simp only [Line.read, hl, if_true, bind_eq_ok_iff, pure_eq_ok_iff]

theorem Line.read_unlabeled_eq_ok_iff {t : Token} (hl : t.kind ≠ .label) :
    Line.read (t :: rest) = .ok line ↔
      ∃ content, Content.read (t :: rest) = .ok content ∧ line = ⟨none, content⟩ := by
  simp only [Line.read, hl, if_false, bind_eq_ok_iff, pure_eq_ok_iff]

theorem Content.Form.head_ne_label {t : Token} (h : content.Form (t :: rest)) :
    t.kind ≠ .label := by
  intro hl
  cases h <;> simp_all

theorem Line.Form.read (h : line.Form tokens) : Line.read tokens = .ok line := by
  cases h with
  | labeled hl h => exact (Line.read_label_eq_ok_iff hl).mpr ⟨_, h.read, rfl⟩
  | unlabeled h =>
      cases tokens with
      | nil =>
          cases h
          rfl
      | cons t rest =>
          exact (Line.read_unlabeled_eq_ok_iff h.head_ne_label).mpr ⟨_, h.read, rfl⟩

theorem Line.form_of_read (h : Line.read tokens = .ok line)
    (hu : ∀ statement, line.content = .word statement → statement.Unmarked) :
    line.Form tokens := by
  cases tokens with
  | nil =>
      cases h
      exact .unlabeled .nothing
  | cons t rest =>
      by_cases hl : t.kind = .label
      · obtain ⟨content, hc, rfl⟩ := (Line.read_label_eq_ok_iff hl).mp h
        exact .labeled hl (Content.form_of_read hc hu)
      · obtain ⟨content, hc, rfl⟩ := (Line.read_unlabeled_eq_ok_iff hl).mp h
        exact .unlabeled (Content.form_of_read hc hu)

end BasicComputer
