import BasicComputer.Proofs.Source.Grammar
import Mathlib.Data.List.Induction

/-! # Lines side by side

Where tokens stand decides nothing about a line but the places that it is told of. Two lines of the same
words are read to the same end, and the spans that come out are related as the spans that went in. -/

namespace BasicComputer

/-! ## The same but for spans -/

section

variable (R : Span → Span → Prop)

/-- What covers related spans is related. -/
def Joins : Prop :=
  ∀ ⦃s t s' t' : Span⦄, R s s' → R t t' → R (s.join t) (s'.join t')

structure Token.Alike (t u : Token) : Prop where
  kind_eq : t.kind = u.kind
  lexeme_eq : t.lexeme = u.lexeme
  span : R t.span u.span

def Problem.Alike : Problem → Problem → Prop
  | .duplicateLabel label first, .duplicateLabel label' first' => label = label' ∧ R first first'
  | p, q => p = q

structure SourceError.Alike (e e' : SourceError) : Prop where
  problem : e.problem.Alike R e'.problem
  span : R e.span e'.span

inductive Statement.Alike : Statement → Statement → Prop
  | memory (op : MemoryOp) {operand operand' : Token} {mark mark' : Option Span}
      (ho : operand.Alike R operand') (hm : Option.Rel R mark mark') :
      Alike (.memory op operand mark) (.memory op operand' mark')
  | register (op : RegisterOp) {mark mark' : Option Span} (hm : Option.Rel R mark mark') :
      Alike (.register op mark) (.register op mark')
  | io (op : IoOp) {mark mark' : Option Span} (hm : Option.Rel R mark mark') :
      Alike (.io op mark) (.io op mark')
  | decimal {literal literal' : Token} (hl : literal.Alike R literal') :
      Alike (.decimal literal) (.decimal literal')
  | hexadecimal {literal literal' : Token} (hl : literal.Alike R literal') :
      Alike (.hexadecimal literal) (.hexadecimal literal')

inductive Content.Alike : Content → Content → Prop
  | nothing : Alike .nothing .nothing
  | origin (a : Address) : Alike (.origin a) (.origin a)
  | stop : Alike .stop .stop
  | word {s s' : Statement} (h : s.Alike R s') : Alike (.word s) (.word s')

structure Line.Alike (l l' : Line) : Prop where
  label : Option.Rel (Token.Alike R) l.label l'.label
  content : l.content.Alike R l'.content

end

variable {R : Span → Span → Prop} {t u : Token}

/-! ## The same altogether -/

theorem joins_eq : Joins Eq := by
  rintro s t s' t' rfl rfl
  rfl

theorem Token.alike_refl (t : Token) : t.Alike Eq t := ⟨rfl, rfl, rfl⟩

theorem Problem.alike_eq_iff {p q : Problem} : p.Alike Eq q ↔ p = q := by
  unfold Problem.Alike
  split
  · rw [Problem.duplicateLabel.injEq]
  · rfl

theorem SourceError.alike_eq_iff {e e' : SourceError} : e.Alike Eq e' ↔ e = e' := by
  refine ⟨?_, ?_⟩
  · rintro ⟨hproblem, hspan⟩
    obtain ⟨problem, span⟩ := e
    exact congrArg₂ SourceError.mk (Problem.alike_eq_iff.mp hproblem) hspan
  · rintro rfl
    exact ⟨Problem.alike_eq_iff.mpr rfl, rfl⟩

/-! ## Literals -/

theorem LiteralFault.alike_errorAt (fault : LiteralFault) {s s' : Span} (h : R s s') :
    (fault.errorAt s).Alike R (fault.errorAt s') :=
  ⟨rfl, h⟩

namespace Token.Alike

theorem hexadecimal (h : t.Alike R u) (limit : Nat) :
    Agree (SourceError.Alike R) Eq (t.hexadecimal limit) (u.hexadecimal limit) := by
  simp only [Token.hexadecimal, ← h.lexeme_eq]
  split
  · exact .error (LiteralFault.alike_errorAt _ h.span)
  · split
    · exact .ok rfl
    · exact .error (LiteralFault.alike_errorAt _ h.span)

theorem address (h : t.Alike R u) : Agree (SourceError.Alike R) Eq t.address u.address :=
  (h.hexadecimal 0xFFF).map fun _ _ => congrArg (BitVec.ofNat 12)

theorem decimal (h : t.Alike R u) :
    Agree (SourceError.Alike R) Eq t.decimal u.decimal := by
  simp only [Token.decimal, ← h.lexeme_eq, ← h.kind_eq]
  split
  · exact .error (LiteralFault.alike_errorAt _ h.span)
  · split
    · exact .error (LiteralFault.alike_errorAt _ h.span)
    · split
      · exact .ok rfl
      · exact .error (LiteralFault.alike_errorAt _ h.span)

/-! ## Operands -/

theorem asOperand (h : t.Alike R u) :
    Agree (SourceError.Alike R) (Token.Alike R) t.asOperand u.asOperand := by
  unfold Token.asOperand
  rw [← h.kind_eq]
  split
  · exact .ok h
  · exact .ok h
  · exact .ok ⟨rfl, h.lexeme_eq, h.span⟩
  · exact .ok ⟨rfl, h.lexeme_eq, h.span⟩
  · exact .error ⟨rfl, h.span⟩

end Token.Alike

section

variable {args args' : List Token}

theorem asOperands_alike (h : List.Forall₂ (Token.Alike R) args args') :
    Agree (SourceError.Alike R) (List.Forall₂ (Token.Alike R)) (args.mapM Token.asOperand)
      (args'.mapM Token.asOperand) := by
  induction h with
  | nil => exact .ok .nil
  | cons ht _ ih =>
      simp only [List.mapM_cons]
      exact ht.asOperand.bind fun _ _ ha => ih.bind fun _ _ has => .ok (.cons ha has)

theorem operandsSpan_alike (hR : Joins R) (ht : t.Alike R u)
    (h : List.Forall₂ (Token.Alike R) args args') : R (operandsSpan t args) (operandsSpan u args') := by
  suffices hfold : ∀ s s', R s s' → R (args.foldl (fun span t => span.join t.span) s)
      (args'.foldl (fun span t => span.join t.span) s') from hfold _ _ ht.span
  induction h with
  | nil => exact fun _ _ hs => hs
  | cons ha _ ih => exact fun s s' hs => ih _ _ (hR hs ha.span)

theorem operandCountError_alike (hR : Joins R) (name : String) (expected : Nat)
    (ht : t.Alike R u) (h : List.Forall₂ (Token.Alike R) args args') :
    (operandCountError name expected t args).Alike R (operandCountError name expected u args') := by
  refine ⟨?_, operandsSpan_alike hR ht h⟩
  simp only [operandCountError, h.length_eq]
  rfl

/-- The partners of a list and of a last member. -/
theorem exists_concat_of_forall₂ {α β : Type} {P : α → β → Prop} {l : List α} {a : α} {l' : List β}
    (h : List.Forall₂ P (l ++ [a]) l') : ∃ k b, l' = k ++ [b] ∧ List.Forall₂ P l k ∧ P a b := by
  have hreverse := List.forall₂_reverse_iff.mpr h
  rw [List.reverse_append, List.reverse_singleton, List.singleton_append] at hreverse
  obtain ⟨b, k, hb, hk, hl'⟩ := List.forall₂_cons_left_iff.mp hreverse
  refine ⟨k.reverse, b, ?_, ?_, hb⟩
  · rw [← List.reverse_cons, ← hl', List.reverse_reverse]
  · rwa [← List.forall₂_reverse_iff, List.reverse_reverse]

theorem splitIndirect_alike (expected : Nat) (h : List.Forall₂ (Token.Alike R) args args') :
    List.Forall₂ (Token.Alike R) (splitIndirect expected args).1 (splitIndirect expected args').1 ∧
      Option.Rel R (splitIndirect expected args).2 (splitIndirect expected args').2 := by
  cases args using List.reverseRecOn with
  | nil =>
      cases h
      exact ⟨.nil, .none⟩
  | append_singleton front last =>
      obtain ⟨front', last', rfl, hfront, hlast⟩ := exists_concat_of_forall₂ h
      have hlength := h.length_eq
      simp only [splitIndirect, List.getLast?_concat, List.dropLast_concat, ← hlast.lexeme_eq,
        ← hlength]
      split
      · exact ⟨hfront, .some hlast.span⟩
      · exact ⟨h, .none⟩

/-! ## Statements -/

/-- What register-reference and input-output instructions have in common. -/
theorem statement_alike_of_no_operand (hR : Joins R) {m : Mnemonic} {build : Option Span → Statement}
    (hm : ∀ head args, m.statement head args =
      match splitIndirect 0 args with
      | ([], indirect) => .ok (build indirect)
      | (others, _) => .error (operandCountError m.name 0 head others))
    (hbuild : ∀ mark mark', Option.Rel R mark mark' → (build mark).Alike R (build mark'))
    (ht : t.Alike R u) (h : List.Forall₂ (Token.Alike R) args args') :
    Agree (SourceError.Alike R) (Statement.Alike R) (m.statement t args) (m.statement u args') := by
  obtain ⟨hothers, hmark⟩ := splitIndirect_alike 0 h
  rw [hm, hm]
  generalize splitIndirect 0 args = split at hothers hmark
  generalize splitIndirect 0 args' = split' at hothers hmark
  obtain ⟨others, mark⟩ := split
  obtain ⟨others', mark'⟩ := split'
  cases hothers with
  | nil => exact .ok (hbuild _ _ hmark)
  | cons ha has => exact .error (operandCountError_alike hR _ _ ht (.cons ha has))

theorem statement_alike (hR : Joins R) (m : Mnemonic) (ht : t.Alike R u)
    (h : List.Forall₂ (Token.Alike R) args args') :
    Agree (SourceError.Alike R) (Statement.Alike R) (m.statement t args) (m.statement u args') := by
  cases m with
  | memory op =>
      obtain ⟨hothers, hmark⟩ := splitIndirect_alike 1 h
      simp only [Mnemonic.statement]
      generalize splitIndirect 1 args = split at hothers hmark
      generalize splitIndirect 1 args' = split' at hothers hmark
      obtain ⟨others, mark⟩ := split
      obtain ⟨others', mark'⟩ := split'
      cases hothers with
      | nil => exact .error (operandCountError_alike hR _ _ ht .nil)
      | cons ha has =>
          cases has with
          | nil => exact .ok (.memory op ha hmark)
          | cons hb has => exact .error (operandCountError_alike hR _ _ ht (.cons ha (.cons hb has)))
  | register op =>
      exact statement_alike_of_no_operand hR (fun _ _ => rfl) (fun _ _ => .register op) ht h
  | io op => exact statement_alike_of_no_operand hR (fun _ _ => rfl) (fun _ _ => .io op) ht h

/-! ## Contents -/

theorem soleLiteral_alike (hR : Joins R) (ht : t.Alike R u)
    (h : List.Forall₂ (Token.Alike R) args args') :
    Agree (SourceError.Alike R) (Token.Alike R) (soleLiteral t args) (soleLiteral u args') := by
  cases h with
  | nil =>
      simp only [soleLiteral, ← ht.lexeme_eq]
      exact .error (LiteralFault.alike_errorAt _ ht.span)
  | cons ha has =>
      cases has with
      | nil => exact .ok ha
      | cons hb has =>
          simp only [soleLiteral, ← ht.lexeme_eq]
          exact .error (operandCountError_alike hR _ _ ht (.cons ha (.cons hb has)))

theorem directive_alike (hR : Joins R) (d : Directive) (ht : t.Alike R u)
    (h : List.Forall₂ (Token.Alike R) args args') :
    Agree (SourceError.Alike R) (Content.Alike R) (d.content t args) (d.content u args') := by
  have hliteral := soleLiteral_alike hR ht h
  cases d with
  | stop =>
      cases h with
      | nil => exact .ok .stop
      | cons ha has =>
          simp only [Directive.content, List.isEmpty_cons, Bool.false_eq_true, if_false,
            ← ht.lexeme_eq]
          exact .error (operandCountError_alike hR _ _ ht (.cons ha has))
  | org =>
      refine hliteral.bind fun _ _ hl => hl.address.bind fun a _ ha => ?_
      subst ha
      exact .ok (.origin a)
  | dec => exact hliteral.bind fun _ _ hl => .ok (.word (.decimal hl))
  | hex => exact hliteral.bind fun _ _ hl => .ok (.word (.hexadecimal hl))

end

/-! ## Lines -/

variable {tokens tokens' : List Token}

theorem content_alike (hR : Joins R) (h : List.Forall₂ (Token.Alike R) tokens tokens') :
    Agree (SourceError.Alike R) (Content.Alike R) (Content.read tokens) (Content.read tokens') := by
  cases h with
  | nil => exact .ok .nothing
  | @cons head head' rest rest' hh hrest =>
      have hargs := asOperands_alike hrest
      have hkind := hh.kind_eq
      cases hk : head.kind with
      | mnemonic m =>
          simp only [Content.read, hk, ← hkind]
          exact hargs.bind fun _ _ has => (statement_alike hR m hh has).bind fun _ _ hs => .ok (.word hs)
      | directive d =>
          simp only [Content.read, hk, ← hkind]
          exact hargs.bind fun _ _ has => directive_alike hR d hh has
      | identifier =>
          simp only [Content.read, hk, ← hkind, ← hh.lexeme_eq]
          exact .error ⟨rfl, hh.span⟩
      | label | number | comment | gap | newline =>
          simp only [Content.read, hk, ← hkind]
          exact .error ⟨rfl, hh.span⟩

/-- Reading takes alike tokens to alike lines, or refuses them for the same reason. -/
theorem read_alike (hR : Joins R) (h : List.Forall₂ (Token.Alike R) tokens tokens') :
    Agree (SourceError.Alike R) (Line.Alike R) (Line.read tokens) (Line.read tokens') := by
  cases h with
  | nil => exact .ok ⟨.none, .nothing⟩
  | @cons first first' rest rest' hfirst hrest =>
      simp only [Line.read, ← hfirst.kind_eq]
      split
      · exact (content_alike hR hrest).bind fun _ _ hc => .ok ⟨.some hfirst, hc⟩
      · exact (content_alike hR (.cons hfirst hrest)).bind fun _ _ hc => .ok ⟨.none, hc⟩

end BasicComputer
