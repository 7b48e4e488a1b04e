import BasicComputer.Proofs.Assembly.Layout
import BasicComputer.Proofs.Assembly.Parallel
import BasicComputer.Proofs.Source.Places
import Mathlib.Data.List.DropRight

/-! # Spacing carries no meaning

Blanks, comments and empty lines say nothing. Two texts with the same words on the same lines are assembled
to the same words or refused for the same reason, and every span of the one result begins and ends with
the same tokens as that of the other. -/

namespace BasicComputer

/-! ## The same words on the same lines -/

def Token.isNewline (t : Token) : Bool := t.kind == .newline

/-- The kind of a token and what is written. -/
def Token.spelling (t : Token) : TokenKind × String := (t.kind, t.lexeme)

/-- Of newlines one after another only the last. -/
def mergeNewlines : List Token → List Token
  | [] => []
  | t :: rest =>
    if t.isNewline && rest.head?.any Token.isNewline then mergeNewlines rest
    else t :: mergeNewlines rest

/-- The tokens with single newlines, and with none at the beginning and at the end. -/
def condense (tokens : List Token) : List Token :=
  ((mergeNewlines tokens).dropWhile Token.isNewline).rdropWhile Token.isNewline

/-- The spans begin at the same token and end at the same token of two lists. -/
structure SameTokens (ts us : List Token) (s s' : Span) : Prop where
  start : ∃ p ∈ ts.zip us, s.start = p.1.span.start ∧ s'.start = p.2.span.start
  stop : ∃ p ∈ ts.zip us, s.stop = p.1.span.stop ∧ s'.stop = p.2.span.stop

/-- The images differ in spans only. -/
structure Image.Alike (R : Span → Span → Prop) (image image' : Image) : Prop where
  entry_eq : image.entry = image'.entry
  words : List.Forall₂ (fun w w' => w.address = w'.address ∧ w.word = w'.word ∧ R w.span w'.span)
    image.words image'.words

/-! ## Lines with something on them -/

namespace Scan

/-- The lines of the tokens but the empty ones. -/
def filledLines (tokens : List Token) : List (List Token) :=
  (splitLines tokens).filter (!·.isEmpty)

variable {t : Token} {tokens : List Token}

theorem splitLines_newline (h : t.isNewline = true) :
    splitLines (t :: tokens) = [] :: splitLines tokens := by
  rw [Token.isNewline, beq_iff_eq] at h
  rw [splitLines, if_pos h]

theorem splitLines_cons (h : t.isNewline = false) {line : List Token} {lines : List (List Token)}
    (hlines : splitLines tokens = line :: lines) :
    splitLines (t :: tokens) = (t :: line) :: lines := by
  rw [Token.isNewline, beq_eq_false_iff_ne] at h
  rw [splitLines, if_neg h, hlines]

theorem splitLines_concat (h : t.isNewline = true) :
    splitLines (tokens ++ [t]) = splitLines tokens ++ [[]] := by
  induction tokens with
  | nil => rw [List.nil_append, splitLines_newline h]; rfl
  | cons u tokens ih =>
      cases hu : u.isNewline with
      | true => rw [List.cons_append, splitLines_newline hu, splitLines_newline hu, ih, List.cons_append]
      | false =>
          obtain ⟨line, lines, hlines⟩ := List.exists_cons_of_ne_nil (splitLines_ne_nil tokens)
          rw [hlines] at ih
          rw [List.cons_append, splitLines_cons hu ih, splitLines_cons hu hlines]
          rfl

/-- Merging newlines takes away empty lines behind the first line only. -/
theorem splitLines_mergeNewlines (tokens : List Token) :
    ∃ line lines lines', splitLines tokens = line :: lines ∧
      splitLines (mergeNewlines tokens) = line :: lines' ∧
      lines'.filter (!·.isEmpty) = lines.filter (!·.isEmpty) := by
  fun_induction mergeNewlines tokens with
  | case1 => exact ⟨[], [], [], rfl, rfl, rfl⟩
  | case2 t rest h ih =>
      obtain ⟨ht, hrest⟩ := Bool.and_eq_true_iff.mp h
      obtain ⟨line, lines, lines', hlines, hlines', hfilter⟩ := ih
      cases rest with
      | nil => cases hrest
      | cons u rest =>
          rw [splitLines_newline (by simpa using hrest)] at hlines
          cases hlines
          refine ⟨[], _, lines', splitLines_newline ht, hlines', ?_⟩
          rw [splitLines_newline (by simpa using hrest), hfilter]
          rfl
  | case3 t rest h ih =>
      obtain ⟨line, lines, lines', hlines, hlines', hfilter⟩ := ih
      cases ht : t.isNewline with
      | true =>
          refine ⟨[], _, _, splitLines_newline ht, splitLines_newline ht, ?_⟩
          rw [hlines, hlines', List.filter_cons, List.filter_cons, hfilter]
      | false => exact ⟨t :: line, lines, lines', splitLines_cons ht hlines, splitLines_cons ht hlines', hfilter⟩

theorem filledLines_mergeNewlines (tokens : List Token) :
    filledLines (mergeNewlines tokens) = filledLines tokens := by
  obtain ⟨line, lines, lines', hlines, hlines', hfilter⟩ := splitLines_mergeNewlines tokens
  rw [filledLines, filledLines, hlines, hlines', List.filter_cons, List.filter_cons, hfilter]

theorem filledLines_dropWhile (tokens : List Token) :
    filledLines (tokens.dropWhile Token.isNewline) = filledLines tokens := by
  induction tokens with
  | nil => rfl
  | cons t tokens ih =>
      cases ht : t.isNewline with
      | true =>
          rw [List.dropWhile_cons_of_pos ht, ih, filledLines, filledLines, splitLines_newline ht]
          rfl
      | false => rw [List.dropWhile_cons_of_neg (by simp [ht])]

theorem filledLines_rdropWhile (tokens : List Token) :
    filledLines (tokens.rdropWhile Token.isNewline) = filledLines tokens := by
  induction tokens using List.reverseRecOn with
  | nil => rfl
  | append_singleton tokens t ih =>
      cases ht : t.isNewline with
      | true =>
          rw [List.rdropWhile_concat_pos _ _ _ ht, ih, filledLines, filledLines, splitLines_concat ht,
            List.filter_append]
          simp
      | false => rw [List.rdropWhile_concat_neg _ _ _ (by simp [ht])]

theorem filledLines_condense (tokens : List Token) :
    filledLines (condense tokens) = filledLines tokens := by
  rw [condense, filledLines_rdropWhile, filledLines_dropWhile, filledLines_mergeNewlines]

end Scan

/-! ## Places of the same tokens -/

section

variable {ts us : List Token}

theorem mergeNewlines_sublist (tokens : List Token) : (mergeNewlines tokens).Sublist tokens := by
  fun_induction mergeNewlines tokens with
  | case1 => exact .slnil
  | case2 t rest h ih => exact ih.cons t
  | case3 t rest h ih => exact ih.cons_cons t

theorem condense_sublist (tokens : List Token) : (condense tokens).Sublist tokens :=
  ((List.rdropWhile_prefix _ _).sublist.trans (List.dropWhile_sublist _)).trans
    (mergeNewlines_sublist tokens)

/-- The tokens cover something each and come one behind another. -/
structure InOrder (tokens : List Token) : Prop where
  lt : ∀ t ∈ tokens, t.span.start < t.span.stop
  pairwise : tokens.Pairwise Token.Precedes

theorem InOrder.sublist (h : InOrder ts) (hs : us.Sublist ts) : InOrder us :=
  ⟨fun t ht => h.lt t (hs.subset ht), h.pairwise.sublist hs⟩

theorem inOrder_tokenize {source : String} (h : tokenize source = .ok ts) : InOrder ts := by
  obtain ⟨-, rfl⟩ := tokenize_eq_ok_iff.mp h
  refine ⟨fun t ht => ?_, (Scan.pairwise_scanFrom 0 source.toList).filter _⟩
  exact (Scan.readFrom_of_mem_scanFrom 0 source.toList t (List.mem_filter.mp ht).1).within.lt

/-- Neither token of the first pair begins or ends behind that of the second. -/
structure NotBehind (p q : Token × Token) : Prop where
  start_fst : p.1.span.start ≤ q.1.span.start
  start_snd : p.2.span.start ≤ q.2.span.start
  stop_fst : p.1.span.stop ≤ q.1.span.stop
  stop_snd : p.2.span.stop ≤ q.2.span.stop

theorem notBehind_of_precedes {t t' u u' : Token} (ht : t.Precedes t') (hu : u.Precedes u')
    (hlt : t.span.start < t.span.stop) (hlt' : t'.span.start < t'.span.stop)
    (hlu : u.span.start < u.span.stop) (hlu' : u'.span.start < u'.span.stop) :
    NotBehind (t, u) (t', u') := by
  rw [Token.Precedes] at ht hu
  exact ⟨by dsimp only; omega, by dsimp only; omega, by dsimp only; omega, by dsimp only; omega⟩

/-- Of two pairs of tokens at the same places, one is not behind the other. -/
theorem InOrder.notBehind_total (hts : InOrder ts) (hus : InOrder us) {p q : Token × Token}
    (hp : p ∈ ts.zip us) (hq : q ∈ ts.zip us) : NotBehind p q ∨ NotBehind q p := by
  induction ts generalizing us with
  | nil => cases hp
  | cons t ts ih =>
      cases us with
      | nil => cases hp
      | cons u us =>
          have hfirst {r : Token × Token} (hr : r ∈ ts.zip us) : NotBehind (t, u) r := by
            obtain ⟨hr1, hr2⟩ := List.of_mem_zip hr
            exact notBehind_of_precedes ((List.pairwise_cons.mp hts.pairwise).1 _ hr1)
              ((List.pairwise_cons.mp hus.pairwise).1 _ hr2) (hts.lt _ List.mem_cons_self)
              (hts.lt _ (List.mem_cons_of_mem t hr1)) (hus.lt _ List.mem_cons_self)
              (hus.lt _ (List.mem_cons_of_mem u hr2))
          rw [List.zip_cons_cons, List.mem_cons] at hp hq
          rcases hp with rfl | hp
          · rcases hq with rfl | hq
            · exact .inl ⟨Nat.le_refl _, Nat.le_refl _, Nat.le_refl _, Nat.le_refl _⟩
            · exact .inl (hfirst hq)
          · rcases hq with rfl | hq
            · exact .inr (hfirst hp)
            · exact ih (hts.sublist (List.sublist_cons_self t ts))
                (hus.sublist (List.sublist_cons_self u us)) hp hq

theorem joins_sameTokens (hts : InOrder ts) (hus : InOrder us) : Joins (SameTokens ts us) := by
  rintro s t s' t' ⟨⟨p, hp, hs, hs'⟩, p', hp', hstop, hstop'⟩ ⟨⟨q, hq, ht, ht'⟩, q', hq', hend, hend'⟩
  simp only [Span.join, hs, hs', hstop, hstop', ht, ht', hend, hend']
  refine ⟨?_, ?_⟩
  · rcases hts.notBehind_total hus hp hq with h | h
    · exact ⟨p, hp, Nat.min_eq_left h.start_fst, Nat.min_eq_left h.start_snd⟩
    · exact ⟨q, hq, Nat.min_eq_right h.start_fst, Nat.min_eq_right h.start_snd⟩
  · rcases hts.notBehind_total hus hp' hq' with h | h
    · exact ⟨q', hq', Nat.max_eq_right h.stop_fst, Nat.max_eq_right h.stop_snd⟩
    · exact ⟨p', hp', Nat.max_eq_left h.stop_fst, Nat.max_eq_left h.stop_snd⟩

theorem alike_of_spelling_eq (h : ts.map Token.spelling = us.map Token.spelling) :
    List.Forall₂ (Token.Alike (SameTokens ts us)) ts us := by
  obtain ⟨hlength, hzip⟩ := List.forall₂_iff_zip.mp (forall₂_iff_map_eq.mpr h)
  refine List.forall₂_iff_zip.mpr ⟨hlength, ?_⟩
  intro t u hmem
  obtain ⟨hkind, hlexeme⟩ := Prod.mk.inj (hzip hmem)
  exact ⟨hkind, hlexeme, ⟨_, hmem, rfl, rfl⟩, ⟨_, hmem, rfl, rfl⟩⟩

end

/-! ## Assembly -/

section

variable {R : Span → Span → Prop} {ts us : List Token}

theorem splitLines_alike (h : List.Forall₂ (Token.Alike R) ts us) :
    List.Forall₂ (List.Forall₂ (Token.Alike R)) (Scan.splitLines ts) (Scan.splitLines us) := by
  induction h with
  | nil => exact .cons .nil .nil
  | @cons t u ts us htu hrest ih =>
      have hkind : t.isNewline = u.isNewline := by rw [Token.isNewline, Token.isNewline, htu.kind_eq]
      cases ht : t.isNewline with
      | true =>
          rw [Scan.splitLines_newline ht, Scan.splitLines_newline (hkind ▸ ht)]
          exact .cons .nil ih
      | false =>
          obtain ⟨line, lines, hlines⟩ := List.exists_cons_of_ne_nil (Scan.splitLines_ne_nil ts)
          rw [hlines] at ih
          obtain ⟨line', lines', hline, hlines', heq⟩ := List.forall₂_cons_left_iff.mp ih
          rw [Scan.splitLines_cons ht hlines, Scan.splitLines_cons (hkind ▸ ht) heq]
          exact .cons (.cons htu hline) hlines'

theorem filledLines_alike (h : List.Forall₂ (Token.Alike R) ts us) :
    List.Forall₂ (List.Forall₂ (Token.Alike R)) (Scan.filledLines ts) (Scan.filledLines us) := by
  refine List.rel_filter ?_ (splitLines_alike h)
  intro line line' hline
  cases hline <;> simp

theorem foldlM_extend_filter_isEmpty (lines : List (List Token)) (l : Layout) :
    ((lines.filter (!·.isEmpty)).map .ok).foldlM Layout.extend l =
      (lines.map .ok).foldlM Layout.extend l := by
  induction lines generalizing l with
  | nil => rfl
  | cons line lines ih =>
      cases line with
      | nil =>
          rw [List.map_cons, List.foldlM_cons, Layout.extend_nil]
          exact ih l
      | cons t line =>
          rw [List.filter_cons_of_pos rfl, List.map_cons, List.map_cons, List.foldlM_cons,
            List.foldlM_cons]
          exact congrArg _ (funext ih)

/-- The first reading goes by the lines with something on them. -/
theorem layOut_of_tokenize {source : String} (h : tokenize source = .ok ts) :
    layOut source = ((Scan.filledLines (condense ts)).map .ok).foldlM Layout.extend .empty := by
  rw [Scan.filledLines_condense, Scan.filledLines, foldlM_extend_filter_isEmpty]
  obtain ⟨hfault, rfl⟩ := tokenize_eq_ok_iff.mp h
  rw [layOut, Layout.ofLines, Scan.lines, hfault]

theorem eq_of_wordMoves_zero {s : Statement} {w w' : Word} (h : s.WordMoves 0 w w') : w = w' := by
  cases s with
  | memory op operand mark =>
      obtain ⟨hi, ho, ha⟩ := h
      rw [← Word.ofFields_fields w, ← Word.ofFields_fields w', hi, ho, ha]
      simp
  | register | io | decimal | hexadecimal => exact h.symm

theorem Statement.Moves.of_zero {s : Statement} {w w' : PlacedWord} (h : s.Moves R 0 w w') :
    w.address = w'.address ∧ w.word = w'.word ∧ R w.span w'.span := by
  obtain ⟨⟨a, ha, ha'⟩, hspan, hword⟩ := h
  exact ⟨by simp [ha, ha'], eq_of_wordMoves_zero hword, hspan⟩

theorem Layout.Alike.image_of_zero {l l' : Layout} (h : l.Alike R 0 l') :
    Agree (SourceError.Alike R) (Image.Alike R) l.image l'.image := by
  refine h.image.imp ?_
  rintro image image' ⟨⟨hentry, hentry'⟩, hwords⟩
  refine ⟨?_, hwords.forall₂ fun _ _ _ hw => hw.of_zero⟩
  rw [hentry, hentry']
  cases l.entry <;> simp

/-- Texts with the same words on the same lines are assembled alike: both to images that differ in spans
only, or neither, with errors that differ in spans only. The spans belong to the same tokens. -/
theorem assemble_condensed {source source' : String} (ht : tokenize source = .ok ts)
    (hu : tokenize source' = .ok us)
    (h : (condense ts).map Token.spelling = (condense us).map Token.spelling) :
    Agree (SourceError.Alike (SameTokens (condense ts) (condense us)))
      (Image.Alike (SameTokens (condense ts) (condense us))) (assemble source) (assemble source') := by
  have hjoins := joins_sameTokens ((inOrder_tokenize ht).sublist (condense_sublist ts))
    ((inOrder_tokenize hu).sublist (condense_sublist us))
  have hlines := filledLines_alike (alike_of_spelling_eq h)
  have hall : List.Forall₂ (LineAlike (SameTokens (condense ts) (condense us)) 0)
      ((Scan.filledLines (condense ts)).map .ok) ((Scan.filledLines (condense us)).map .ok) := by
    rw [List.forall₂_map_left_iff, List.forall₂_map_right_iff]
    exact hlines.imp fun _ _ hline => ⟨.ok hline, .inl rfl⟩
  rw [assemble, assemble, layOut_of_tokenize ht, layOut_of_tokenize hu]
  exact (Layout.Alike.empty.foldlM hjoins hall).bind fun _ _ hl => hl.image_of_zero

theorem assemble_condensed_spreadLoop :
    ∃ ts us, tokenize "LOP, INC\nBUN LOP" = .ok ts ∧
      tokenize " lop, inc / again\n\n\tbun  lop\n" = .ok us ∧
      (condense ts).map Token.spelling = (condense us).map Token.spelling ∧
      assemble "LOP, INC\nBUN LOP" =
        .ok ⟨0, [⟨0, 0x7020, ⟨0, 8⟩⟩, ⟨1, 0x4000, ⟨9, 16⟩⟩]⟩ ∧
      assemble " lop, inc / again\n\n\tbun  lop\n" =
        .ok ⟨0, [⟨0, 0x7020, ⟨1, 9⟩⟩, ⟨1, 0x4000, ⟨20, 28⟩⟩]⟩ ∧
      Image.Alike (SameTokens (condense ts) (condense us))
        ⟨0, [⟨0, 0x7020, ⟨0, 8⟩⟩, ⟨1, 0x4000, ⟨9, 16⟩⟩]⟩
        ⟨0, [⟨0, 0x7020, ⟨1, 9⟩⟩, ⟨1, 0x4000, ⟨20, 28⟩⟩]⟩ := by
  have ht : tokenize "LOP, INC\nBUN LOP" = .ok
      [⟨.label, "LOP", ⟨0, 3⟩⟩, ⟨.mnemonic (.register .inc), "INC", ⟨5, 8⟩⟩, ⟨.newline, "\n", ⟨8, 9⟩⟩,
        ⟨.mnemonic (.memory .bun), "BUN", ⟨9, 12⟩⟩, ⟨.identifier, "LOP", ⟨13, 16⟩⟩] := by decide +kernel
  have hu : tokenize " lop, inc / again\n\n\tbun  lop\n" = .ok
      [⟨.label, "LOP", ⟨1, 4⟩⟩, ⟨.mnemonic (.register .inc), "INC", ⟨6, 9⟩⟩, ⟨.newline, "\n", ⟨17, 18⟩⟩,
        ⟨.newline, "\n", ⟨18, 19⟩⟩, ⟨.mnemonic (.memory .bun), "BUN", ⟨20, 23⟩⟩,
        ⟨.identifier, "LOP", ⟨25, 28⟩⟩, ⟨.newline, "\n", ⟨28, 29⟩⟩] := by decide +kernel
  have halike := assemble_condensed ht hu (by decide)
  have hclose : assemble "LOP, INC\nBUN LOP" =
      .ok ⟨0, [⟨0, 0x7020, ⟨0, 8⟩⟩, ⟨1, 0x4000, ⟨9, 16⟩⟩]⟩ := by decide +kernel
  have hspread : assemble " lop, inc / again\n\n\tbun  lop\n" =
      .ok ⟨0, [⟨0, 0x7020, ⟨1, 9⟩⟩, ⟨1, 0x4000, ⟨20, 28⟩⟩]⟩ := by decide +kernel
  rw [hclose, hspread] at halike
  cases halike with
  | ok h => exact ⟨_, _, ht, hu, by decide, hclose, hspread, h⟩

end

end BasicComputer
