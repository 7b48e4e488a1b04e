import BasicComputer.Proofs.Source.Lines

/-! # What spans cover

The scanner gives every token the span of the characters that it was read from, and tokens come in the
order of their spans. -/

namespace BasicComputer

theorem byteLength_pos (c : Char) (text : List Char) : 0 < byteLength (c :: text) := by
  have hc := c.utf8Size_pos
  rw [byteLength]
  omega

/-! ## Pieces of a text -/

/-- The span covers this piece of a text whose first byte has the given offset. -/
def Span.Covers (s : Span) (offset : Nat) (text piece : List Char) : Prop :=
  ∃ before after, text = before ++ piece ++ after ∧ s.start = offset + byteLength before ∧
    s.stop = s.start + byteLength piece

variable {s t : Span} {offset : Nat} {text piece : List Char}

namespace Span

theorem covers_first (offset : Nat) (piece after : List Char) :
    Covers ⟨offset, offset + byteLength piece⟩ offset (piece ++ after) piece :=
  ⟨[], after, rfl, rfl, rfl⟩

/-- A piece of a part of a text is a piece of the text. -/
theorem Covers.append (before after : List Char)
    (h : s.Covers (offset + byteLength before) text piece) :
    s.Covers offset (before ++ text ++ after) piece := by
  obtain ⟨above, below, rfl, hstart, hstop⟩ := h
  refine ⟨before ++ above, below ++ after, by simp only [List.append_assoc], ?_, hstop⟩
  rw [hstart, byteLength_append, Nat.add_assoc]

theorem Covers.le (h : s.Covers offset text piece) :
    offset ≤ s.start ∧ s.stop ≤ offset + byteLength text := by
  obtain ⟨before, after, rfl, hstart, hstop⟩ := h
  rw [byteLength_append, byteLength_append]
  omega

theorem Covers.lt (h : s.Covers offset text piece) (hp : piece ≠ []) : s.start < s.stop := by
  obtain ⟨c, rest, rfl⟩ := List.exists_cons_of_ne_nil hp
  obtain ⟨-, -, -, -, hstop⟩ := h
  have hpos := byteLength_pos c rest
  omega

/-! ## Slices -/

theorem sliceFrom_of_stop_le (h : s.stop ≤ offset) (text : List Char) :
    s.sliceFrom offset text = [] := by
  induction text generalizing offset with
  | nil => rfl
  | cons c rest ih =>
      have hout : ¬(s.start ≤ offset ∧ offset < s.stop) := by omega
      rw [sliceFrom, if_neg hout]
      exact ih (by omega)

theorem sliceFrom_append_of_start_le (h : s.start ≤ offset) (hstop : s.stop = offset + byteLength piece)
    (after : List Char) : s.sliceFrom offset (piece ++ after) = piece := by
  induction piece generalizing offset with
  | nil => exact sliceFrom_of_stop_le (Nat.le_of_eq hstop) after
  | cons c rest ih =>
      have hpos := byteLength_pos c rest
      rw [byteLength] at hstop hpos
      rw [List.cons_append, sliceFrom, if_pos (by omega), ih (by omega) (by omega)]

theorem sliceFrom_append_of_lt {before : List Char} (h : s.start = offset + byteLength before)
    (after : List Char) : s.sliceFrom offset (before ++ after) = s.sliceFrom s.start after := by
  induction before generalizing offset with
  | nil => rw [h]; rfl
  | cons c rest ih =>
      have hpos := byteLength_pos c rest
      rw [byteLength] at h hpos
      have hout : ¬(s.start ≤ offset ∧ offset < s.stop) := by omega
      rw [List.cons_append, sliceFrom, if_neg hout]
      exact ih (by omega)

/-- The slice of a whole text is the piece that the span covers. -/
theorem Covers.slice_eq (h : s.Covers 0 text piece) : s.slice text = piece := by
  obtain ⟨before, after, rfl, hstart, hstop⟩ := h
  rw [slice, List.append_assoc, sliceFrom_append_of_lt hstart]
  exact sliceFrom_append_of_start_le (Nat.le_refl _) hstop after

/-! ## Spans between characters -/

/-- The place is in front of a character or at the end. -/
def IsPlace (offset : Nat) (text : List Char) (n : Nat) : Prop :=
  ∃ before after, text = before ++ after ∧ n = offset + byteLength before

/-- The span covers characters of the text. -/
structure Within (s : Span) (offset : Nat) (text : List Char) : Prop where
  start : IsPlace offset text s.start
  stop : IsPlace offset text s.stop
  lt : s.start < s.stop

theorem Covers.within (h : s.Covers offset text piece) (hp : piece ≠ []) : s.Within offset text := by
  refine ⟨?_, ?_, h.lt hp⟩
  · obtain ⟨before, after, rfl, hstart, -⟩ := h
    exact ⟨before, piece ++ after, List.append_assoc .., hstart⟩
  · obtain ⟨before, after, rfl, hstart, hstop⟩ := h
    refine ⟨before ++ piece, after, rfl, ?_⟩
    rw [hstop, hstart, byteLength_append, Nat.add_assoc]

theorem Within.exists_covers (h : s.Within offset text) :
    ∃ piece, piece ≠ [] ∧ s.Covers offset text piece := by
  obtain ⟨⟨before, rest, htext, hstart⟩, ⟨through, after, htext', hstop⟩, hlt⟩ := h
  rcases List.append_eq_append_iff.mp (htext.symm.trans htext') with
    ⟨piece, rfl, hrest⟩ | ⟨back, rfl, -⟩
  · rw [byteLength_append] at hstop
    refine ⟨piece, ?_, before, after, htext', hstart, by omega⟩
    rintro rfl
    simp only [byteLength] at hstop
    omega
  · rw [byteLength_append] at hstart
    omega

theorem Within.join (hs : s.Within offset text) (ht : t.Within offset text) :
    (s.join t).Within offset text where
  start := by
    rcases Nat.le_total s.start t.start with h | h
    · simpa [Span.join, Nat.min_eq_left h] using hs.start
    · simpa [Span.join, Nat.min_eq_right h] using ht.start
  stop := by
    rcases Nat.le_total s.stop t.stop with h | h
    · simpa [Span.join, Nat.max_eq_right h] using ht.stop
    · simpa [Span.join, Nat.max_eq_left h] using hs.stop
  lt := by
    have hlt := hs.lt
    simp only [Span.join]
    omega

end Span

/-! ## Tokens -/

/-- The token was read from the characters that its span covers. -/
def Token.ReadFrom (t : Token) (offset : Nat) (text : List Char) : Prop :=
  ∃ piece, piece ≠ [] ∧ t.span.Covers offset text piece ∧ t.lexeme = upperCase piece

theorem Token.ReadFrom.within {t : Token} (h : t.ReadFrom offset text) : t.span.Within offset text := by
  obtain ⟨piece, hp, hcovers, -⟩ := h
  exact hcovers.within hp

theorem Token.ReadFrom.append {t : Token} (before after : List Char)
    (h : t.ReadFrom (offset + byteLength before) text) : t.ReadFrom offset (before ++ text ++ after) := by
  obtain ⟨piece, hp, hcovers, hlexeme⟩ := h
  exact ⟨piece, hp, hcovers.append before after, hlexeme⟩

/-- The second token begins where the first ends, or behind that. -/
def Token.Precedes (t u : Token) : Prop := t.span.stop ≤ u.span.start

namespace Scan

/-- A scan is at its end, breaks off, or has a token in front of another scan. Between the two is nothing
or the comma of a label. -/
theorem scan_induction {P : Nat → List Char → Scan → Prop} (nil : ∀ offset, P offset [] ⟨[], none⟩)
    (unknown : ∀ offset c rest, Lead.of? c = none →
      P offset (c :: rest) ⟨[], some (unknownCharacter offset c)⟩)
    (token : ∀ offset run between rest (t : Token), run ≠ [] →
      t.span = ⟨offset, offset + byteLength run⟩ → t.lexeme = upperCase run →
      P (offset + byteLength (run ++ between)) rest
        (scanFrom (offset + byteLength (run ++ between)) rest) →
      P offset (run ++ between ++ rest)
        ((scanFrom (offset + byteLength (run ++ between)) rest).cons t))
    (offset : Nat) (text : List Char) : P offset text (scanFrom offset text) := by
  fun_induction scanFrom offset text with
  | case1 offset => exact nil offset
  | case2 offset c tail hlead => exact unknown offset c tail hlead
  | case3 offset c tail lead hlead run after stop lexeme hlabel ih =>
      obtain ⟨rest, hafter⟩ := List.head?_eq_some_iff.mp
        (by simpa using (Bool.and_eq_true_iff.mp hlabel).2 : after.head? = some ',')
      have htail : after.tail = rest := by rw [hafter, List.tail_cons]
      have hcomma : byteLength [','] = 1 := by decide
      have hstop : stop + 1 = offset + byteLength (run ++ [',']) := by
        rw [byteLength_append, hcomma, ← Nat.add_assoc]
      have hsplit : run ++ [','] ++ rest = c :: tail := by
        rw [List.append_assoc, List.singleton_append, ← hafter]
        exact congrArg (c :: ·) List.takeWhile_append_dropWhile
      have hscan := token offset run [','] rest ⟨.label, lexeme, ⟨offset, stop⟩⟩ (List.cons_ne_nil _ _)
        rfl rfl (hstop ▸ htail ▸ ih)
      rwa [hsplit, ← hstop, ← htail] at hscan
  | case4 offset c tail lead hlead run after stop lexeme hlabel ih =>
      have hsplit : run ++ [] ++ after = c :: tail := by
        rw [List.append_nil]
        exact congrArg (c :: ·) List.takeWhile_append_dropWhile
      have hstop : stop = offset + byteLength (run ++ []) := by rw [List.append_nil]
      have hscan := token offset run [] after ⟨lead.kind lexeme, lexeme, ⟨offset, stop⟩⟩
        (List.cons_ne_nil _ _) rfl rfl (hstop ▸ ih)
      rwa [hsplit, ← hstop] at hscan

theorem readFrom_of_mem_scanFrom (offset : Nat) (text : List Char) :
    ∀ t ∈ (scanFrom offset text).tokens, t.ReadFrom offset text := by
  induction offset, text using scan_induction with
  | nil offset => simp
  | unknown offset c rest hlead => simp
  | token offset run between rest t hrun hspan hlexeme ih =>
      simp only [cons, List.forall_mem_cons]
      refine ⟨⟨run, hrun, ?_, hlexeme⟩, ?_⟩
      · rw [hspan, List.append_assoc]
        exact Span.covers_first offset run (between ++ rest)
      · intro u hu
        simpa using (ih u hu).append (run ++ between) []

theorem pairwise_scanFrom (offset : Nat) (text : List Char) :
    (scanFrom offset text).tokens.Pairwise Token.Precedes := by
  induction offset, text using scan_induction with
  | nil offset => exact .nil
  | unknown offset c rest hlead => exact .nil
  | token offset run between rest t hrun hspan hlexeme ih =>
      refine .cons ?_ ih
      intro u hu
      obtain ⟨piece, -, hcovers, -⟩ := readFrom_of_mem_scanFrom _ rest u hu
      have hle := hcovers.le.1
      rw [byteLength_append] at hle
      rw [Token.Precedes, hspan]
      dsimp only
      omega

/-- Scanning breaks off at a character that begins no token, and the error shows this character. -/
theorem exists_unknownCharacter (offset : Nat) (text : List Char) :
    ∀ e, (scanFrom offset text).fault = some e →
      ∃ place c, e = unknownCharacter place c ∧ Lead.of? c = none ∧ e.span.Covers offset text [c] := by
  induction offset, text using scan_induction with
  | nil offset => simp
  | unknown offset c rest hlead =>
      rintro e ⟨⟩
      refine ⟨offset, c, rfl, hlead, [], rest, rfl, rfl, ?_⟩
      simp [unknownCharacter, byteLength]
  | token offset run between rest t hrun hspan hlexeme ih =>
      intro e he
      obtain ⟨place, c, hc, hlead, hcovers⟩ := ih e he
      exact ⟨place, c, hc, hlead, by simpa using hcovers.append (run ++ between) []⟩

end Scan

end BasicComputer
