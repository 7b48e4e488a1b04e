import BasicComputer.Proofs.Assembly.Correctness
import BasicComputer.Proofs.Source.Places

/-! # Errors of assembly

The first reading refuses lines, the second finds statements that stand for no word. Each stops at the
first of them, and no error of the one could be taken for an error of the other. -/

namespace BasicComputer

/-! ## What lines are refused for -/

/-- What the tokens of a line may be refused for. A malformed literal is told where a token stands, and
an unknown mnemonic is one of the tokens. -/
def SourceError.Blames (tokens : List Token) (e : SourceError) : Prop :=
  match e.problem with
  | .malformedLiteral _ => ∃ t ∈ tokens, e.span = t.span
  | .unknownMnemonic mnemonic => ∃ t ∈ tokens, e.span = t.span ∧ mnemonic = t.lexeme
  | .operandCount .. | .unexpectedToken .. => True
  | .unknownCharacter _ | .duplicateLabel .. | .undefinedLabel _ | .illegalIndirection _ => False

theorem SourceError.Blames.mono {tokens tokens' : List Token} {e : SourceError} (h : e.Blames tokens)
    (hsub : tokens ⊆ tokens') : e.Blames tokens' := by
  obtain ⟨problem, span⟩ := e
  cases problem with
  | malformedLiteral | unknownMnemonic =>
      obtain ⟨t, ht, hblamed⟩ := h
      exact ⟨t, hsub ht, hblamed⟩
  | _ => exact h

theorem LiteralFault.blames_errorAt (fault : LiteralFault) {t : Token} {tokens : List Token}
    (h : t ∈ tokens) : (fault.errorAt t.span).Blames tokens :=
  ⟨t, h, rfl⟩

section

variable {head : Token} {rest tokens : List Token} {e : SourceError}

theorem blames_of_mapM_asOperand (h : rest.mapM Token.asOperand = .error e) : e.Blames tokens := by
  obtain ⟨-, t, -, -, ht, -⟩ := List.findSome?_eq_some_iff.mp (mapM_eq_error_iff.mp h)
  rw [errorOf?_eq_some_iff] at ht
  unfold Token.asOperand at ht
  split at ht <;> cases ht
  trivial

theorem blames_of_statement {m : Mnemonic} {args : List Token}
    (h : m.statement head args = .error e) : e.Blames tokens := by
  unfold Mnemonic.statement at h
  split at h <;> split at h <;> cases h <;> trivial

theorem blames_of_soleLiteral {args : List Token} (h : soleLiteral head args = .error e) :
    e.Blames (head :: rest) := by
  unfold soleLiteral at h
  split at h
  · cases h
    exact LiteralFault.blames_errorAt _ List.mem_cons_self
  · cases h
  · cases h
    trivial

theorem blames_of_directive {d : Directive}
    (h : d.content head (rest.map Token.operand) = .error e) : e.Blames (head :: rest) := by
  cases d with
  | stop =>
      simp only [Directive.content] at h
      split at h
      · cases h
      · cases h
        trivial
  | org =>
      simp only [Directive.content, bind_eq_error_iff] at h
      rcases h with h | ⟨literal, hliteral, h | ⟨address, -, hpure⟩⟩
      · exact blames_of_soleLiteral h
      · obtain ⟨t, ht, rfl⟩ := List.map_eq_singleton_iff.mp (soleLiteral_eq_ok_iff.mp hliteral)
        obtain ⟨fault, rfl⟩ := Token.exists_fault_of_address h
        rw [Token.span_operand]
        exact fault.blames_errorAt (by simp [ht])
      · cases hpure
  | dec | hex =>
      simp only [Directive.content, bind_eq_error_iff] at h
      rcases h with h | ⟨literal, -, hpure⟩
      · exact blames_of_soleLiteral h
      · cases hpure

theorem blames_of_content (h : Content.read tokens = .error e) : e.Blames tokens := by
  cases tokens with
  | nil => cases h
  | cons head rest =>
      cases hh : head.kind with
      | mnemonic m =>
          simp only [Content.read, hh, bind_eq_error_iff] at h
          rcases h with h | ⟨args, -, h | ⟨statement, -, hpure⟩⟩
          · exact blames_of_mapM_asOperand h
          · exact blames_of_statement h
          · cases hpure
      | directive d =>
          simp only [Content.read, hh, bind_eq_error_iff, Token.mapM_asOperand_eq_ok_iff] at h
          rcases h with h | ⟨args, ⟨-, rfl⟩, h⟩
          · exact blames_of_mapM_asOperand h
          · exact blames_of_directive h
      | identifier =>
          simp only [Content.read, hh] at h
          cases h
          exact ⟨head, List.mem_cons_self, rfl, rfl⟩
      | label | number | comment | gap | newline =>
          simp only [Content.read, hh] at h
          cases h
          trivial

theorem blames_of_read (h : Line.read tokens = .error e) : e.Blames tokens := by
  cases tokens with
  | nil => cases h
  | cons t rest =>
      rw [Line.read] at h
      split at h
      · rcases bind_eq_error_iff.mp h with h | ⟨content, -, hpure⟩
        · exact (blames_of_content h).mono (List.subset_cons_self t rest)
        · cases hpure
      · rcases bind_eq_error_iff.mp h with h | ⟨content, -, hpure⟩
        · exact blames_of_content h
        · cases hpure

end

/-! ## What the first reading finds -/

namespace Program

/-- Why a line of text does not go on from the lines of a program. -/
inductive Refuses (p : List SourceLine) (t : TextLine) : SourceError → Prop
  | scan {e : SourceError} (h : t.tokens = .error e) : Refuses p t e
  | read {tokens : List Token} {e : SourceError} (ht : t.tokens = .ok tokens)
      (h : Line.read tokens = .error e) : Refuses p t e
  | label {x y : SourceLine} {label first : Token} (hx : ReadsAs x t) (hl : x.line.label = some label)
      (hy : y ∈ p) (hf : y.line.label = some first)
      (heq : upperCase first.lexeme.toList = upperCase label.lexeme.toList) :
      Refuses p t ⟨.duplicateLabel label.lexeme first.span, label.span⟩

variable {p : List SourceLine} {t : TextLine} {e : SourceError}

/-- A label is refused for the line that has it already. -/
theorem exists_first_of_define (h : (labels p).Nodup) {label? : Option Token}
    (hdefine : (layout p).define label? = .error e) :
    ∃ label first, ∃ y ∈ p, label? = some label ∧ y.line.label = some first ∧
      upperCase first.lexeme.toList = upperCase label.lexeme.toList ∧
      e = ⟨.duplicateLabel label.lexeme first.span, label.span⟩ := by
  have hkeys : ((bindings p).map Prod.fst).Nodup := map_fst_bindings ▸ h
  cases label? with
  | none => cases hdefine
  | some label =>
      simp only [Layout.define, SymbolTable.insert, SymbolTable.get?, layout] at hdefine
      cases hlookup : (bindings p).lookup (upperCase label.lexeme.toList) with
      | none =>
          rw [hlookup] at hdefine
          cases hdefine
      | some b =>
          rw [hlookup] at hdefine
          cases hdefine
          obtain ⟨before, y, after, rfl, hb⟩ := mem_bindings.mp ((lookup_eq_some_iff_mem hkeys).mp hlookup)
          obtain ⟨first, hfirst, heq⟩ := Option.map_eq_some_iff.mp hb
          obtain ⟨hkey, rfl⟩ := Prod.mk.inj heq
          exact ⟨label, first, y, by simp, rfl, hfirst, hkey, rfl⟩

theorem refuses_of_extend (h : (labels p).Nodup) (he : (layout p).ended = false)
    (hextend : (layout p).extend t.tokens = .error e) : Refuses p t e := by
  rw [Layout.extend, he, if_neg Bool.false_ne_true, bind_eq_error_iff] at hextend
  rcases hextend with hscan | ⟨tokens, ht, hadd⟩
  · exact .scan hscan
  · cases tokens with
    | nil => cases hadd
    | cons first rest =>
        simp only [Layout.addLine, bind_eq_error_iff] at hadd
        rcases hadd with hread | ⟨line, hread, hdefine | ⟨next, -, hpure⟩⟩
        · exact .read ht hread
        · obtain ⟨label, earlier, y, hy, hl, hf, heq, rfl⟩ := exists_first_of_define h hdefine
          exact .label (x := ⟨first :: rest, line⟩) ⟨ht, hread⟩ hl hy hf heq
        · cases hpure

theorem refuses_of_foldlM {lines : List TextLine} (h : (labels p).Nodup)
    (he : (layout p).ended = false)
    (hfold : (lines.map TextLine.tokens).foldlM Layout.extend (layout p) = .error e) :
    ∃ before t after q, lines = before ++ t :: after ∧ List.Forall₂ ReadsAs q before ∧
      Refuses (p ++ q) t e := by
  induction lines generalizing p with
  | nil => cases hfold
  | cons t lines ih =>
      rw [List.map_cons, List.foldlM_cons, bind_eq_error_iff] at hfold
      rcases hfold with hfold | ⟨next, hnext, hfold⟩
      · exact ⟨[], t, lines, [], rfl, .nil, by simpa using refuses_of_extend h he hfold⟩
      · obtain ⟨x, hx, hnodup, rfl⟩ := (extend_eq_ok_iff h he).mp hnext
        cases hended : (layout (p ++ [x])).ended with
        | true =>
            -- Behind the end of the program nothing is refused.
            rw [foldlM_extend_of_ended hended] at hfold
            cases hfold
        | false =>
            obtain ⟨before, u, after, q, rfl, hq, hrefuses⟩ := ih hnodup hended hfold
            exact ⟨t :: before, u, after, x :: q, rfl, .cons hx hq, by simpa using hrefuses⟩

/-- The first reading stops at a line that does not go on from the lines before it. -/
theorem refuses_of_layOut {source : String} (h : layOut source = .error e) :
    ∃ before t after q, TextLine.ofText 0 source.toList = before ++ t :: after ∧
      List.Forall₂ ReadsAs q before ∧ Refuses q t e := by
  rw [layOut_eq_foldlM, ← layout_nil] at h
  exact refuses_of_foldlM (p := []) List.nodup_nil rfl h

end Program

/-! ## What the second reading finds -/

namespace Program

variable (p : List SourceLine)

/-- What is wrong with a statement of the program that stands for no word. -/
inductive Faults : Statement → SourceError → Prop
  | undefined {op : MemoryOp} {operand : Token} {indirect : Option Span}
      (hk : operand.kind ≠ .number) (ha : ∀ a, ¬Defines p operand.lexeme a) :
      Faults (.memory op operand indirect) ⟨.undefinedLabel operand.lexeme, operand.span⟩
  | address {op : MemoryOp} {operand : Token} {indirect : Option Span} {fault : LiteralFault}
      (hk : operand.kind = .number) (h : operand.address = .error (fault.errorAt operand.span)) :
      Faults (.memory op operand indirect) (fault.errorAt operand.span)
  | register (op : RegisterOp) (mark : Span) :
      Faults (.register op (some mark)) ⟨.illegalIndirection op.name, mark⟩
  | io (op : IoOp) (mark : Span) :
      Faults (.io op (some mark)) ⟨.illegalIndirection op.name, mark⟩
  | decimal {literal : Token} {fault : LiteralFault}
      (h : literal.decimal = .error (fault.errorAt literal.span)) :
      Faults (.decimal literal) (fault.errorAt literal.span)
  | hexadecimal {literal : Token} {fault : LiteralFault}
      (h : literal.hexadecimal 0xFFFF = .error (fault.errorAt literal.span)) :
      Faults (.hexadecimal literal) (fault.errorAt literal.span)

/-- Of the lines whose statements stand for no word, the first has this fault. -/
def FirstFault (e : SourceError) : Prop :=
  ∃ before x after s, p = before ++ x :: after ∧ x.statement? = some s ∧ Faults p s e ∧
    ∀ y ∈ before, ∀ s, y.statement? = some s → ∃ w, Means p s w

variable {p}

theorem resolve_eq_error_iff (h : (labels p).Nodup) {operand : Token} {e : SourceError} :
    (layout p).symbols.resolve operand = .error e ↔
      (operand.kind = .number ∧ operand.address = .error e) ∨
        operand.kind ≠ .number ∧ (∀ a, ¬Defines p operand.lexeme a) ∧
          e = ⟨.undefinedLabel operand.lexeme, operand.span⟩ := by
  by_cases hk : operand.kind = .number
  · simp [SymbolTable.resolve, Token.address, hk, map_eq_error_iff]
  · rw [SymbolTable.resolve, if_neg hk]
    simp only [hk, false_and, false_or, ne_eq, not_false_eq_true, true_and, ← address?_eq_some_iff h]
    cases (layout p).symbols.address? operand.lexeme <;> simp [eq_comm]

theorem statement_word_eq_error_iff (h : (labels p).Nodup) {s : Statement} {e : SourceError} :
    s.word (layout p).symbols = .error e ↔ Faults p s e := by
  refine ⟨?_, ?_⟩
  · intro hw
    cases s with
    | memory op operand indirect =>
        have hresolve := (Statement.word_memory_eq_error_iff _).mp hw
        rcases (resolve_eq_error_iff h).mp hresolve with ⟨hk, ha⟩ | ⟨hk, ha, rfl⟩
        · obtain ⟨fault, rfl⟩ := Token.exists_fault_of_address ha
          exact .address hk ha
        · exact .undefined hk ha
    | register op mark =>
        cases mark with
        | none => cases hw
        | some mark =>
            cases hw
            exact .register op mark
    | io op mark =>
        cases mark with
        | none => cases hw
        | some mark =>
            cases hw
            exact .io op mark
    | decimal literal =>
        obtain ⟨fault, rfl⟩ := Token.exists_fault_of_decimal hw
        exact .decimal hw
    | hexadecimal literal =>
        rw [Statement.word, map_eq_error_iff] at hw
        obtain ⟨fault, rfl⟩ := Token.exists_fault_of_hexadecimal hw
        exact .hexadecimal hw
  · intro hf
    cases hf with
    | undefined hk ha =>
        rw [Statement.word_memory_eq_error_iff]
        exact (resolve_eq_error_iff h).mpr (.inr ⟨hk, ha, rfl⟩)
    | address hk ha =>
        rw [Statement.word_memory_eq_error_iff]
        exact (resolve_eq_error_iff h).mpr (.inl ⟨hk, ha⟩)
    | register op mark | io op mark => rfl
    | decimal hd => exact hd
    | hexadecimal hx => exact map_eq_error_iff.mpr hx

/-- The second reading stops at the first line whose statement stands for no word. -/
theorem image_eq_error_iff (h : (labels p).Nodup) {e : SourceError} :
    (layout p).image = .error e ↔ FirstFault p e := by
  have hword (placement : Placement) : errorOf? (placement.word (layout p).symbols) =
      errorOf? (placement.statement.word (layout p).symbols) := by
    unfold Placement.word
    cases placement.statement.word (layout p).symbols <;> rfl
  have himage : (layout p).image = .error e ↔
      (placements p).mapM (Placement.word (layout p).symbols) = .error e := by
    rw [Layout.image, bind_eq_error_iff]
    simp [pure, Except.pure, layout]
  rw [himage, mapM_eq_error_iff]
  simp only [hword]
  rw [findSome?_placements fun s => errorOf? (s.word (layout p).symbols),
    List.findSome?_eq_some_iff]
  simp only [Option.bind_eq_some_iff, Option.bind_eq_none_iff, errorOf?_eq_some_iff,
    errorOf?_eq_none_iff, statement_word_eq_error_iff h, statement_word_eq_ok_iff h]
  refine ⟨?_, ?_⟩
  · intro hx
    rcases hx with ⟨before, x, after, hp, ⟨s, hs, hfault⟩, hbefore⟩
    exact ⟨before, x, after, s, hp, hs, hfault, hbefore⟩
  · intro hx
    rcases hx with ⟨before, x, after, s, hp, hs, hfault, hbefore⟩
    exact ⟨before, x, after, hp, ⟨s, hs, hfault⟩, hbefore⟩

end Program

theorem assemble_eq_error_iff {source : String} {e : SourceError} :
    assemble source = .error e ↔
      layOut source = .error e ∨
        ∃ p, List.Forall₂ Program.ReadsAs p
            (TextLine.throughEnd (TextLine.ofText 0 source.toList)) ∧
          layOut source = .ok (Program.layout p) ∧ Program.FirstFault p e := by
  rw [assemble, bind_eq_error_iff]
  refine or_congr_right ?_
  refine ⟨?_, ?_⟩
  · intro h
    rcases h with ⟨l, hl, hi⟩
    obtain ⟨p, hreads, hnodup, rfl⟩ := Program.layOut_eq_ok_iff.mp hl
    exact ⟨p, hreads, hl, (Program.image_eq_error_iff hnodup).mp hi⟩
  · intro h
    rcases h with ⟨p, hreads, hl, hfault⟩
    obtain ⟨q, hreads', hnodup, -⟩ := Program.layOut_eq_ok_iff.mp hl
    obtain rfl := List.left_unique_forall₂' Program.readsAs_unique hreads hreads'
    exact ⟨_, hl, (Program.image_eq_error_iff hnodup).mpr hfault⟩

/-! ## Which reading finds what -/

/-- The token that a statement's word depends on. -/
def Statement.operand? : Statement → Option Token
  | memory _ operand _ => some operand
  | decimal literal | hexadecimal literal => some literal
  | register _ _ | io _ _ => none

theorem Content.Form.exists_operand {tokens : List Token} {s : Statement}
    (h : Content.Form tokens (.word s)) {operand : Token} (ho : s.operand? = some operand) :
    ∃ t ∈ tokens, operand = t.operand := by
  cases h with
  | direct | indirect | decimal | hexadecimal =>
      cases ho
      exact ⟨_, List.mem_cons_of_mem _ List.mem_cons_self, rfl⟩
  | register | io => cases ho

namespace Program

theorem exists_operand_of_read {x : SourceLine} (hread : Line.read x.tokens = .ok x.line)
    {s : Statement} (hs : x.statement? = some s) (hu : s.Unmarked) {operand : Token}
    (ho : s.operand? = some operand) : ∃ t ∈ x.tokens, operand = t.operand := by
  have hcontent := SourceLine.statement?_eq_some_iff.mp hs
  have hform : x.line.Form x.tokens := by
    refine Line.form_of_read hread ?_
    intro statement hstatement
    cases hcontent.symm.trans hstatement
    exact hu
  obtain ⟨t, ht, hoperand⟩ := (hcontent ▸ hform.content_form).exists_operand ho
  exact ⟨t, Line.body_subset _ ht, hoperand⟩

/-- If a line could be refused for what is wrong with a statement, tokens of the two lines would have the
same span. -/
theorem Faults.exists_span_eq {p : List SourceLine} {s : Statement} {e : SourceError}
    (h : Faults p s e) {x : SourceLine} (hread : Line.read x.tokens = .ok x.line)
    (hs : x.statement? = some s) {tokens : List Token} (he : e.Blames tokens) :
    ∃ t ∈ x.tokens, ∃ u ∈ tokens, t.span = u.span := by
  cases h with
  | undefined hk ha => exact he.elim
  | register op mark | io op mark => exact he.elim
  | address | decimal | hexadecimal =>
      obtain ⟨u, hu, hspan⟩ := he
      obtain ⟨t, ht, hoperand⟩ := exists_operand_of_read hread hs trivial rfl
      refine ⟨t, ht, u, hu, ?_⟩
      rw [← hspan, hoperand]
      exact (Token.span_operand t).symm

/-- Some line of the text can be read, and its statement has this fault in some program. -/
def FaultOf (source : String) (e : SourceError) : Prop :=
  ∃ t ∈ TextLine.ofText 0 source.toList, ∃ x, ReadsAs x t ∧
    ∃ s, x.statement? = some s ∧ ∃ p, Faults p s e

/-- What is wrong with a statement is never found by the first reading. -/
theorem layOut_ne_error_of_faultOf {source : String} {e : SourceError} (h : FaultOf source e) :
    layOut source ≠ .error e := by
  intro hlayout
  obtain ⟨t, ht, x, ⟨htokens, hread⟩, s, hs, p, hfault⟩ := h
  obtain ⟨before, u, after, q, hlines, -, hrefuses⟩ := refuses_of_layOut hlayout
  have hu : u ∈ TextLine.ofText 0 source.toList := by simp [hlines]
  cases hrefuses with
  | scan hscan =>
      obtain ⟨place, c, rfl, -, -⟩ := TextLine.exists_unknownCharacter hscan
      cases hfault
  | label => cases hfault
  | read htokens' hread' =>
      -- The tokens stand in one line, which would be read and refused.
      obtain ⟨a, ha, b, hb, hspan⟩ := hfault.exists_span_eq hread hs (blames_of_read hread')
      obtain rfl := TextLine.eq_of_span_eq ht hu htokens htokens' ha hb hspan
      cases htokens.symm.trans htokens'
      cases hread.symm.trans hread'

end Program

end BasicComputer
