import BasicComputer.Proofs.Assembly.Errors
import BasicComputer.Proofs.Source.Alike
import BasicComputer.Proofs.Text.Case

/-! # What spans show

Words and errors come with spans of the source text. Each covers characters of a single line: the span of
a word all that is said on its line, the span of an error what is wrong there. -/

namespace BasicComputer

/-- The span covers at least one character of the text, and no newline. -/
def Span.InLine (s : Span) (text : List Char) : Prop :=
  ∃ piece, piece ≠ [] ∧ '\n' ∉ piece ∧ s.Covers 0 text piece

/-- The span begins with the first token of the line and ends with the last. -/
def SourceLine.Runs (x : SourceLine) (s : Span) : Prop :=
  ∃ first last, x.tokens.head? = some first ∧ x.tokens.getLast? = some last ∧
    s = ⟨first.span.start, last.span.stop⟩

/-- The words of the image are those of the program's lines with a statement, one by one, and their spans
show these lines. -/
structure Image.Shows (source : String) (image : Image) : Prop where
  inLine : ∀ w ∈ image.words, w.span.InLine source.toList
  runs : ∃ p, List.Forall₂ Program.ReadsAs p (TextLine.throughEnd (TextLine.ofText 0 source.toList)) ∧
    List.Forall₂ (fun x w => x.Runs w.span) (p.filter (·.statement?.isSome)) image.words
  increasing : image.words.Pairwise fun v w => v.span.stop < w.span.start
  layout : ∃ l, layOut source = .ok l ∧
    image.words.map (fun w => (w.address, w.span)) =
      l.placements.toList.map fun p => (p.address.word, p.span)

/-- What the problem is about is written at its span, and a label's first definition before it. -/
def Problem.Shows (text : List Char) (span : Span) : Problem → Prop
  | .duplicateLabel label first =>
    (first.InLine text ∧ first.stop < span.start) ∧
      upperCase (first.slice text) = label ∧ upperCase (span.slice text) = label
  | .undefinedLabel name | .unknownMnemonic name => upperCase (span.slice text) = name
  | _ => True

/-- The error's span covers characters of a single line, and shows what the problem is about. -/
structure SourceError.Shows (source : String) (e : SourceError) : Prop where
  inLine : e.span.InLine source.toList
  problem : e.problem.Shows source.toList e.span

/-! ## Places in a line -/

section

variable {text : List Char} {line : TextLine} {s : Span} {t : Token}

theorem Span.Within.inLine (hline : line ∈ TextLine.ofText 0 text)
    (h : s.Within line.offset line.text) : s.InLine text := by
  obtain ⟨hnewline, before, after, htext, hoffset⟩ := TextLine.exists_eq_append hline
  obtain ⟨piece, hp, hcovers⟩ := h.exists_covers
  refine ⟨piece, hp, ?_, htext ▸ (hoffset ▸ hcovers).append before after⟩
  obtain ⟨above, below, hpiece, -, -⟩ := hcovers
  exact fun hmem => hnewline (hpiece ▸ by simp [hmem])

/-- A token's span shows its lexeme. -/
theorem Token.ReadFrom.upperCase_slice (hline : line ∈ TextLine.ofText 0 text)
    (h : t.ReadFrom line.offset line.text) : upperCase (t.span.slice text) = t.lexeme := by
  obtain ⟨-, before, after, rfl, hoffset⟩ := TextLine.exists_eq_append hline
  rw [hoffset] at h
  obtain ⟨piece, -, hcovers, hlexeme⟩ := h.append before after
  rw [hcovers.slice_eq, hlexeme]

theorem Token.ReadFrom.upperCase_lexeme {offset : Nat} (h : t.ReadFrom offset text) :
    upperCase t.lexeme.toList = t.lexeme := by
  obtain ⟨piece, -, -, hlexeme⟩ := h
  rw [hlexeme]
  exact (congrArg upperCase String.toList_ofList).trans (upperCase_map_toUpper piece)

end

/-! ## Lines that can be read -/

section

variable {tokens : List Token} {offset : Nat} {text : List Char}

/-- Reading a line next to itself: what it makes of spans that lie in a text lies there. -/
theorem agree_read_within (h : ∀ t ∈ tokens, t.span.Within offset text) :
    Agree (SourceError.Alike fun s _ => s.Within offset text) (Line.Alike fun s _ => s.Within offset text)
      (Line.read tokens) (Line.read tokens) := by
  have hjoins : Joins fun s _ => s.Within offset text := fun _ _ _ _ hs ht => hs.join ht
  exact read_alike hjoins (List.forall₂_same.mpr fun t ht => ⟨rfl, rfl, h t ht⟩)

theorem within_of_read_error (h : ∀ t ∈ tokens, t.span.Within offset text) {e : SourceError}
    (hread : Line.read tokens = .error e) : e.span.Within offset text := by
  have hagree := agree_read_within h
  rw [hread] at hagree
  cases hagree with
  | error he => exact he.span

/-- The mark `I` of a statement. -/
def Statement.mark? : Statement → Option Span
  | .memory _ _ mark | .register _ mark | .io _ mark => mark
  | .decimal _ | .hexadecimal _ => none

theorem within_of_mark (h : ∀ t ∈ tokens, t.span.Within offset text) {x : Line} {s : Statement}
    (hread : Line.read tokens = .ok x) (hs : x.content = .word s) {mark : Span}
    (hmark : s.mark? = some mark) : mark.Within offset text := by
  have hagree := agree_read_within h
  rw [hread] at hagree
  cases hagree with
  | ok halike =>
      have hcontent := halike.content
      rw [hs] at hcontent
      cases hcontent with
      | word hstatement =>
          cases hstatement with
          | memory _ _ hm | register _ hm | io _ hm =>
              cases hm with
              | none => cases hmark
              | some hwithin =>
                  cases hmark
                  exact hwithin
          | decimal | hexadecimal => cases hmark

end

namespace Program

variable {x y : SourceLine} {t u : TextLine}

theorem ReadsAs.readFrom (h : ReadsAs x t) : ∀ token ∈ x.tokens, token.ReadFrom t.offset t.text :=
  TextLine.readFrom_of_mem_tokens h.1

theorem ReadsAs.within (h : ReadsAs x t) : ∀ token ∈ x.tokens, token.span.Within t.offset t.text :=
  fun token htoken => (h.readFrom token htoken).within

/-- The tokens of a line come one behind another, so its span is that from the first to the last. -/
theorem ReadsAs.runs (h : ReadsAs x t) (hne : x.tokens ≠ []) : x.Runs x.span := by
  obtain ⟨tokens, line⟩ := x
  obtain ⟨first, rest, rfl⟩ := List.exists_cons_of_ne_nil hne
  have hlt (token : Token) (htoken : token ∈ first :: rest) : token.span.start < token.span.stop :=
    (h.within token htoken).lt
  have hbehind := (List.pairwise_cons.mp (TextLine.pairwise_tokens h.1)).1
  refine ⟨first, rest.getLast?.getD first, rfl, List.getLast?_cons, ?_⟩
  have hfirst := hlt first List.mem_cons_self
  simp only [SourceLine.span, Span.join, List.getLastD_eq_getLast?]
  cases hlast : rest.getLast? with
  | none => simp
  | some last =>
      have hmem := List.mem_of_getLast? hlast
      have hprecedes : first.span.stop ≤ last.span.start := hbehind last hmem
      have hlast := hlt last (List.mem_cons_of_mem first hmem)
      rw [Option.getD_some, Nat.min_eq_left (by omega), Nat.max_eq_right (by omega)]

theorem ReadsAs.within_span (h : ReadsAs x t) (hne : x.tokens ≠ []) :
    x.span.Within t.offset t.text := by
  obtain ⟨tokens, line⟩ := x
  obtain ⟨first, rest, rfl⟩ := List.exists_cons_of_ne_nil hne
  have hlast : rest.getLastD first ∈ first :: rest := List.getLastD_mem_cons
  exact (h.within first List.mem_cons_self).join (h.within _ hlast)

theorem ReadsAs.tokens_ne_nil (h : ReadsAs x t) (hs : x.statement?.isSome = true) : x.tokens ≠ [] := by
  obtain ⟨tokens, line⟩ := x
  rintro rfl
  cases h.2
  cases hs

/-! ## Words -/

theorem exists_readsAs_of_mem {p : List SourceLine} {lines : List TextLine}
    (h : List.Forall₂ ReadsAs p lines) (hx : x ∈ p) : ∃ t ∈ lines, ReadsAs x t := by
  induction h with
  | nil => cases hx
  | cons hreads _ ih =>
      rcases List.mem_cons.mp hx with rfl | hx
      · exact ⟨_, List.mem_cons_self, hreads⟩
      · obtain ⟨t, ht, hreads⟩ := ih hx
        exact ⟨t, List.mem_cons_of_mem _ ht, hreads⟩

theorem pairwise_span {p : List SourceLine} {lines : List TextLine} (h : List.Forall₂ ReadsAs p lines)
    (hlines : lines.Pairwise TextLine.Precedes) :
    (p.filter (·.statement?.isSome)).Pairwise fun x y => x.span.stop < y.span.start := by
  induction h with
  | nil => exact .nil
  | @cons x t p lines hx hp ih =>
      rw [List.pairwise_cons] at hlines
      rw [List.filter_cons]
      split
      next hs =>
        refine .cons ?_ (ih hlines.2)
        intro y hy
        obtain ⟨hmem, hs'⟩ := List.mem_filter.mp hy
        obtain ⟨u, hu, hy⟩ := exists_readsAs_of_mem hp hmem
        have hprecedes : t.offset + byteLength t.text < u.offset := hlines.1 u hu
        have hstop := (hx.within_span (hx.tokens_ne_nil hs)).inside.stop_le
        have hstart := (hy.within_span (hy.tokens_ne_nil hs')).inside.start_le
        omega
      next => exact ih hlines.2

end Program

theorem TextLine.throughEnd_sublist (lines : List TextLine) : (throughEnd lines).Sublist lines := by
  induction lines with
  | nil => exact .slnil
  | cons t lines ih =>
      rw [throughEnd]
      split
      · exact .cons_cons t (List.nil_sublist lines)
      · exact .cons_cons t ih

theorem Image.shows_of_assemble {source : String} {image : Image} (h : assemble source = .ok image) :
    image.Shows source := by
  obtain ⟨l, hl, himage⟩ := bind_eq_ok_iff.mp h
  obtain ⟨p, hreads, hnodup, rfl⟩ := Program.layOut_eq_ok_iff.mp hl
  have hwords := ((Program.image_eq_ok_iff hnodup).mp himage).words
  have hspans : (p.filter (·.statement?.isSome)).map SourceLine.span =
      image.words.map PlacedWord.span := by
    rw [← Program.map_span_placements, ← forall₂_iff_map_eq]
    exact hwords.imp fun _ _ hw => hw.2.1.symm
  have hline {x : SourceLine} (hx : x ∈ p.filter (·.statement?.isSome)) :
      x.Runs x.span ∧ x.span.InLine source.toList := by
    obtain ⟨hmem, hs⟩ := List.mem_filter.mp hx
    obtain ⟨t, ht, hreads⟩ := Program.exists_readsAs_of_mem hreads hmem
    have hne := hreads.tokens_ne_nil hs
    exact ⟨hreads.runs hne, (hreads.within_span hne).inLine ((TextLine.throughEnd_sublist _).subset ht)⟩
  have hpairwise := Program.pairwise_span hreads
    ((TextLine.pairwise_number 0 _).sublist (TextLine.throughEnd_sublist _))
  refine ⟨?_, ⟨p, hreads, ?_⟩, ?_, ⟨_, hl, ?_⟩⟩
  · intro w hw
    obtain ⟨x, hx, hspan⟩ := List.mem_map.mp (hspans ▸ List.mem_map_of_mem hw)
    exact hspan ▸ (hline hx).2
  · have hall := (List.forall₂_and_left _ _).mpr ⟨fun x hx => (hline hx).1, forall₂_iff_map_eq.mpr hspans⟩
    exact hall.imp fun x w hw => hw.2 ▸ hw.1
  · rw [← List.pairwise_map (f := PlacedWord.span) (R := fun s t => s.stop < t.start), ← hspans,
      List.pairwise_map]
    exact hpairwise
  · rw [← forall₂_iff_map_eq]
    exact (hwords.imp fun _ _ hw => Prod.ext hw.1 hw.2.1).flip

/-! ## Errors -/

theorem label_mem_of_read {tokens : List Token} {x : Line} (h : Line.read tokens = .ok x) {label : Token}
    (hl : x.label = some label) : label ∈ tokens := by
  cases tokens with
  | nil =>
      cases h
      cases hl
  | cons t rest =>
      by_cases ht : t.kind = .label
      · obtain ⟨content, -, rfl⟩ := (Line.read_label_eq_ok_iff ht).mp h
        cases hl
        exact List.mem_cons_self
      · obtain ⟨content, -, rfl⟩ := (Line.read_unlabeled_eq_ok_iff ht).mp h
        cases hl

namespace SourceError

variable {source : String} {t : TextLine} (ht : t ∈ TextLine.ofText 0 source.toList) {e : SourceError}

include ht

theorem shows_of_scan (h : t.tokens = .error e) : e.Shows source := by
  obtain ⟨place, c, rfl, -, hcovers⟩ := TextLine.exists_unknownCharacter h
  exact ⟨(hcovers.within (List.cons_ne_nil _ _)).inLine ht, trivial⟩

theorem shows_of_read {tokens : List Token} (htokens : t.tokens = .ok tokens)
    (h : Line.read tokens = .error e) : e.Shows source := by
  have hread := TextLine.readFrom_of_mem_tokens htokens
  have hwithin := within_of_read_error (fun token htoken => (hread token htoken).within) h
  have hblames := blames_of_read h
  refine ⟨hwithin.inLine ht, ?_⟩
  obtain ⟨problem, span⟩ := e
  cases problem with
  | unknownMnemonic name =>
      obtain ⟨token, htoken, rfl, rfl⟩ := hblames
      exact (hread token htoken).upperCase_slice ht
  | duplicateLabel | undefinedLabel => exact hblames.elim
  | unknownCharacter | operandCount | illegalIndirection | malformedLiteral | unexpectedToken => trivial

/-- A label and its first definition, on the lines `t` and `u`. -/
theorem shows_of_label {u : TextLine} (hu : u ∈ TextLine.ofText 0 source.toList) (hut : u.Precedes t)
    {x y : SourceLine} (hx : Program.ReadsAs x t) (hy : Program.ReadsAs y u) {label first : Token}
    (hl : x.line.label = some label) (hf : y.line.label = some first)
    (heq : upperCase first.lexeme.toList = upperCase label.lexeme.toList) :
    Shows source ⟨.duplicateLabel label.lexeme first.span, label.span⟩ := by
  have hlabel := hx.readFrom label (label_mem_of_read hx.2 hl)
  have hfirst := hy.readFrom first (label_mem_of_read hy.2 hf)
  -- Lexemes are in upper case already, so the two labels are the same to the letter.
  have hlexeme : first.lexeme = label.lexeme := by
    rwa [hfirst.upperCase_lexeme, hlabel.upperCase_lexeme] at heq
  have hbefore : first.span.stop < label.span.start := by
    have hstop := hfirst.within.inside.stop_le
    have hstart := hlabel.within.inside.start_le
    rw [TextLine.Precedes] at hut
    omega
  exact ⟨hlabel.within.inLine ht, ⟨hfirst.within.inLine hu, hbefore⟩,
    (hfirst.upperCase_slice hu).trans hlexeme, hlabel.upperCase_slice ht⟩

theorem shows_of_fault {p : List SourceLine} {x : SourceLine} (hx : Program.ReadsAs x t) {s : Statement}
    (hs : x.statement? = some s) (h : Program.Faults p s e) : e.Shows source := by
  have hcontent := SourceLine.statement?_eq_some_iff.mp hs
  cases h with
  | undefined =>
      obtain ⟨token, htoken, rfl⟩ := Program.exists_operand_of_read hx.2 hs trivial rfl
      rw [Token.lexeme_operand, Token.span_operand]
      exact ⟨(hx.within token htoken).inLine ht, (hx.readFrom token htoken).upperCase_slice ht⟩
  | address | decimal | hexadecimal =>
      obtain ⟨token, htoken, rfl⟩ := Program.exists_operand_of_read hx.2 hs trivial rfl
      rw [Token.span_operand]
      exact ⟨(hx.within token htoken).inLine ht, trivial⟩
  | register op mark | io op mark =>
      exact ⟨(within_of_mark hx.within hx.2 hcontent rfl).inLine ht, trivial⟩

end SourceError

theorem Program.Refuses.shows {source : String} {before after : List TextLine} {t : TextLine}
    (hlines : TextLine.ofText 0 source.toList = before ++ t :: after) {p : List SourceLine}
    (hp : List.Forall₂ Program.ReadsAs p before) {e : SourceError} (h : Program.Refuses p t e) :
    e.Shows source := by
  have ht : t ∈ TextLine.ofText 0 source.toList := by simp [hlines]
  cases h with
  | scan h => exact SourceError.shows_of_scan ht h
  | read htokens h => exact SourceError.shows_of_read ht htokens h
  | label hx hl hy hf heq =>
      obtain ⟨u, hu, hy⟩ := Program.exists_readsAs_of_mem hp hy
      have hpairwise : (before ++ t :: after).Pairwise TextLine.Precedes :=
        hlines ▸ TextLine.pairwise_number 0 _
      have hut := (List.pairwise_append.mp hpairwise).2.2 u hu t List.mem_cons_self
      exact SourceError.shows_of_label ht (by simp [hlines, hu]) hut hx hy hl hf heq

theorem SourceError.shows_of_assemble {source : String} {e : SourceError}
    (h : assemble source = .error e) : e.Shows source := by
  rcases assemble_eq_error_iff.mp h with h | ⟨p, hreads, -, before, x, after, s, rfl, hs, hfault, -⟩
  · obtain ⟨before, t, after, q, hlines, hq, hrefuses⟩ := Program.refuses_of_layOut h
    exact hrefuses.shows hlines hq
  · obtain ⟨t, ht, hx⟩ := Program.exists_readsAs_of_mem hreads (by simp : x ∈ before ++ x :: after)
    exact shows_of_fault ((TextLine.throughEnd_sublist _).subset ht) hx hs hfault

/-! ## The encoder -/

/-- What a statement hands to the encoder: its mnemonic, its operand and its mark `I`. -/
def Statement.parts? : Statement → Option (Mnemonic × Option Token × Option Span)
  | .memory op operand mark => some (.memory op, some operand, mark)
  | .register op mark => some (.register op, none, mark)
  | .io op mark => some (.io op, none, mark)
  | .decimal _ | .hexadecimal _ => none

theorem Statement.word_eq_encode {symbols : SymbolTable} {s : Statement} {m : Mnemonic}
    {operand : Option Token} {mark : Option Span} (h : s.parts? = some (m, operand, mark)) :
    s.word symbols = symbols.encode m operand mark := by
  cases s with
  | memory | register | io =>
      cases h
      rfl
  | decimal | hexadecimal => cases h

/-- Spans show what they are said to show: those of words the lines that the words come from, in their
order, and those of errors what is wrong. No error of the second reading lacks a span of its own: the
encoder finds every operand within range, and refuses a mark only where there is one. -/
theorem assemble_shows :
    (∀ source image, assemble source = .ok image → image.Shows source) ∧
      (∀ source e, assemble source = .error e → e.Shows source) ∧
      ∀ (symbols : SymbolTable) (s : Statement) m operand mark w, s.parts? = some (m, operand, mark) →
        symbols.operandWord operand = .ok w →
        (∀ value, m.instruction? w mark.isSome ≠ .error (.addressOutOfRange value)) ∧
          (m.instruction? w mark.isSome = .error .illegalIndirection →
            ∃ span, mark = some span ∧ s.word symbols = .error ⟨.illegalIndirection m.name, span⟩) ∧
          ∀ i, m.instruction? w mark.isSome = .ok i → s.word symbols = .ok i.encode := by
  refine ⟨fun _ _ => Image.shows_of_assemble, fun _ _ => SourceError.shows_of_assemble, ?_⟩
  intro symbols s m operand mark w hs hw
  rw [Statement.word_eq_encode hs, SymbolTable.encode_eq hw]
  refine ⟨Mnemonic.instruction?_ne_addressOutOfRange (SymbolTable.operandWord_lt hw), ?_, ?_⟩
  · intro hrefused
    obtain ⟨span, rfl⟩ := Option.isSome_iff_exists.mp (Mnemonic.indirect_of_illegalIndirection hrefused)
    exact ⟨span, rfl, by rw [hrefused]; rfl⟩
  · intro i hi
    rw [hi]

theorem assemble_shows_repeatedLabel :
    (assemble "/ä\nLop, bun lop" = .ok ⟨0, [⟨0, 0x4000, ⟨4, 16⟩⟩]⟩ ∧
        Image.Shows "/ä\nLop, bun lop" ⟨0, [⟨0, 0x4000, ⟨4, 16⟩⟩]⟩) ∧
      (assemble "Lop, HLT\nlop, HLT" = .error ⟨.duplicateLabel "LOP" ⟨0, 3⟩, ⟨9, 12⟩⟩ ∧
        SourceError.Shows "Lop, HLT\nlop, HLT" ⟨.duplicateLabel "LOP" ⟨0, 3⟩, ⟨9, 12⟩⟩) ∧
      (Mnemonic.register .inc).instruction? 0 true = .error .illegalIndirection ∧
        ∃ span, some (⟨4, 5⟩ : Span) = some span ∧
          (Statement.register .inc (some ⟨4, 5⟩)).word .empty =
            .error ⟨.illegalIndirection "INC", span⟩ := by
  have hloop : assemble "/ä\nLop, bun lop" = .ok ⟨0, [⟨0, 0x4000, ⟨4, 16⟩⟩]⟩ := by decide +kernel
  have hlabel : assemble "Lop, HLT\nlop, HLT" =
      .error ⟨.duplicateLabel "LOP" ⟨0, 3⟩, ⟨9, 12⟩⟩ := by decide +kernel
  have hmark : (Mnemonic.register .inc).instruction? 0 true = .error .illegalIndirection := rfl
  obtain ⟨hwords, herrors, hencoder⟩ := assemble_shows
  obtain ⟨-, hrefused, -⟩ := hencoder .empty (.register .inc (some ⟨4, 5⟩)) _ _ _ 0 rfl rfl
  exact ⟨⟨hloop, hwords _ _ hloop⟩, ⟨hlabel, herrors _ _ hlabel⟩, hmark, hrefused hmark⟩

end BasicComputer
