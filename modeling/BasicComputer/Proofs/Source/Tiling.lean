import BasicComputer.Proofs.Source.Boundary
import BasicComputer.Proofs.Source.Extent
import BasicComputer.Source.Scanner

/-! # Tokens tile their text

Drawn one at a time, the items of a source text are those of its scan, and then there are no more. They stand in
the text one behind the other, with nothing between them but the commas of labels, and every token is the
longest of its kind. -/

namespace BasicComputer

/-! ## Items and where they stand -/

/-- What scanning hands out: tokens, and at last the error if there is one. -/
def Scan.items (s : Scan) : List (Except SourceError Token) :=
  s.tokens.map .ok ++ s.fault.toList.map .error

/-- The span of a token or of an error. -/
def itemSpan : Except SourceError Token → Span
  | .ok t => t.span
  | .error e => e.span

namespace Token

/-- A letter with all the letters and digits that follow it. With a comma behind it it is a label, and otherwise
it is a mnemonic or a directive if that is its name. -/
structure IsWord (t : Token) (run after : List Char) : Prop where
  letters : ∃ c tail, run = c :: tail ∧ c.isAlpha = true ∧ ∀ d ∈ tail, d.isAlphanum = true
  longest : ∀ d ∈ after.head?, d.isAlphanum = false
  label_iff : t.kind = .label ↔ after.head? = some ','
  mnemonic_iff : ∀ m, t.kind = .mnemonic m ↔ after.head? ≠ some ',' ∧ t.lexeme = m.name
  directive_iff : ∀ d, t.kind = .directive d ↔ after.head? ≠ some ',' ∧ t.lexeme = d.name

/-- The characters `run` between the texts `before` and `after` are a token of this kind, and as long as they
can be. -/
def IsLongest (t : Token) (before run after : List Char) : Prop :=
  match t.kind with
  | .newline => run = ['\n']
  | .gap =>
    (∀ c ∈ run, isGap c = true) ∧ (∀ c ∈ before.getLast?, isGap c = false) ∧
      ∀ c ∈ after.head?, isGap c = false
  | .comment => (∃ tail, run = '/' :: tail) ∧ '\n' ∉ run ∧ ∀ c ∈ after.head?, c = '\n'
  | .number =>
    (∃ c tail, run = c :: tail ∧ (c = '+' ∨ c = '-' ∨ c.isDigit = true) ∧
      ∀ d ∈ tail, d.isAlphanum = true) ∧ ∀ d ∈ after.head?, d.isAlphanum = false
  | .identifier | .label | .mnemonic _ | .directive _ => t.IsWord run after

/-- The token stands in the text: its span covers characters that are its lexeme in upper case, and it is the
longest of its kind there. -/
def StandsIn (t : Token) (text : List Char) : Prop :=
  ∃ before run after, text = before ++ run ++ after ∧ run ≠ [] ∧
    t.span = ⟨byteLength before, byteLength (before ++ run)⟩ ∧ IsUpperCase t.lexeme.toList run ∧
    t.IsLongest before run after

/-- Where the next item begins. The comma behind a label is passed over. -/
def next (t : Token) : Nat := if t.kind = .label then t.span.stop + 1 else t.span.stop

end Token

/-- From this place on the items stand in the text one behind the other, up to its end or up to an error, which
shows a single character. -/
inductive Tiles (text : List Char) : Nat → List (Except SourceError Token) → Prop
  | done : Tiles text (byteLength text) []
  | error {e : SourceError} {c : Char} (he : e.span.Covers 0 text [c]) :
      Tiles text e.span.start [.error e]
  | token {t : Token} {items : List (Except SourceError Token)} (ht : t.StandsIn text)
      (hitems : Tiles text t.next items) : Tiles text t.span.start (.ok t :: items)

/-! ## Kinds -/

theorem Directive.name_of_ofName?_eq_some {name : String} {d : Directive}
    (h : Directive.ofName? name = some d) : d.name = name := by
  simpa using List.find?_some h

theorem Mnemonic.ofName?_directive (d : Directive) : Mnemonic.ofName? d.name = none := by
  cases d <;> decide

namespace TokenKind

variable {word : String}

theorem ofWord_eq_mnemonic_iff {m : Mnemonic} : ofWord word = .mnemonic m ↔ word = m.name := by
  refine ⟨?_, ?_⟩
  · intro h
    unfold ofWord at h
    split at h
    next heq =>
      cases h
      exact (Mnemonic.name_of_ofName?_eq_some heq).symm
    next => cases h
    next => cases h
  · rintro rfl
    rw [ofWord, Mnemonic.ofName?_name]

theorem ofWord_eq_directive_iff {d : Directive} : ofWord word = .directive d ↔ word = d.name := by
  refine ⟨?_, ?_⟩
  · intro h
    unfold ofWord at h
    split at h
    next => cases h
    next heq =>
      cases h
      exact (Directive.name_of_ofName?_eq_some heq).symm
    next => cases h
  · rintro rfl
    rw [ofWord, Mnemonic.ofName?_directive, Directive.ofName?_name]

theorem ofWord_cases (word : String) :
    ofWord word = .identifier ∨ (∃ m, ofWord word = .mnemonic m) ∨ ∃ d, ofWord word = .directive d := by
  unfold ofWord
  split <;> simp

end TokenKind

/-! ## One token -/

section

variable {before run rest : List Char}

theorem isWord_label {t : Token} (ht : t.kind = .label) (hrun : Lead.word.covers run = true) :
    t.IsWord run (',' :: rest) := by
  obtain ⟨c, tail, rfl, hc, htail⟩ := Lead.exists_of_covers hrun
  refine ⟨⟨c, tail, rfl, Lead.begins_of_eq_some hc, htail⟩, ?_, by simp [ht], ?_, ?_⟩
  · intro d hd
    obtain rfl := Option.some.inj hd
    rfl
  · simp [ht]
  · simp [ht]

theorem isWord_of_covers {t : Token} (ht : t.kind = .ofWord t.lexeme)
    (hrun : Lead.word.covers run = true) (hstop : ∀ c ∈ rest.head?, Lead.word.continues c = false)
    (hlabel : rest.head? ≠ some ',') : t.IsWord run rest := by
  obtain ⟨c, tail, rfl, hc, htail⟩ := Lead.exists_of_covers hrun
  refine ⟨⟨c, tail, rfl, Lead.begins_of_eq_some hc, htail⟩, hstop, ?_, ?_, ?_⟩
  · rcases TokenKind.ofWord_cases t.lexeme with h | ⟨m, h⟩ | ⟨d, h⟩ <;> simp [ht, h, hlabel]
  · intro m
    rw [ht, TokenKind.ofWord_eq_mnemonic_iff]
    exact ⟨fun h => ⟨hlabel, h⟩, fun h => h.2⟩
  · intro d
    rw [ht, TokenKind.ofWord_eq_directive_iff]
    exact ⟨fun h => ⟨hlabel, h⟩, fun h => h.2⟩

/-- What a cut makes a token is the longest of its kind. -/
theorem isLongest_of_covers {t : Token} {lead : Lead} (ht : t.kind = lead.kind t.lexeme)
    (hb : Boundary before (run ++ rest)) (hrun : lead.covers run = true)
    (hstop : ∀ c ∈ rest.head?, lead.continues c = false)
    (hlabel : ¬(lead = .word ∧ rest.head? = some ',')) : t.IsLongest before run rest := by
  obtain ⟨c, tail, rfl, hc, htail⟩ := Lead.exists_of_covers hrun
  have hbegins := Lead.begins_of_eq_some hc
  cases lead with
  | comment =>
      rw [Lead.begins, beq_iff_eq] at hbegins
      rw [Token.IsLongest, ht, Lead.kind]
      refine ⟨⟨tail, by rw [hbegins]⟩, Lead.newline_not_mem (by decide) hrun, ?_⟩
      exact fun d hd => by simpa [Lead.continues] using hstop d hd
  | newline =>
      rw [Lead.begins, beq_iff_eq] at hbegins
      rw [Token.IsLongest, ht, Lead.kind]
      cases tail with
      | nil => rw [hbegins]
      | cons d tail => cases htail d List.mem_cons_self
  | gap =>
      rw [Token.IsLongest, ht, Lead.kind]
      exact ⟨Lead.isGap_of_covers hrun, hb.gap c rfl hbegins, hstop⟩
  | number =>
      rw [Token.IsLongest, ht, Lead.kind]
      refine ⟨⟨c, tail, rfl, ?_, htail⟩, hstop⟩
      simpa [Lead.begins, or_assoc] using hbegins
  | word =>
      have hword := isWord_of_covers ht hrun hstop fun hcomma => hlabel ⟨rfl, hcomma⟩
      rw [Lead.kind] at ht
      rw [Token.IsLongest, ht]
      rcases TokenKind.ofWord_cases t.lexeme with h | ⟨m, h⟩ | ⟨d, h⟩ <;> rw [h] <;> exact hword

theorem standsIn_label (hrun : Lead.word.covers run = true) :
    Token.StandsIn ⟨.label, upperCase run, ⟨byteLength before, byteLength before + byteLength run⟩⟩
      (before ++ (run ++ ',' :: rest)) := by
  refine ⟨before, run, ',' :: rest, (List.append_assoc ..).symm, Lead.ne_nil_of_covers hrun, ?_,
    isUpperCase_iff.mpr rfl, isWord_label rfl hrun⟩
  rw [byteLength_append]

theorem standsIn_token {lead : Lead} (hb : Boundary before (run ++ rest)) (hrun : lead.covers run = true)
    (hstop : ∀ c ∈ rest.head?, lead.continues c = false)
    (hlabel : ¬(lead = .word ∧ rest.head? = some ',')) :
    Token.StandsIn
      ⟨lead.kind (upperCase run), upperCase run, ⟨byteLength before, byteLength before + byteLength run⟩⟩
      (before ++ (run ++ rest)) := by
  refine ⟨before, run, rest, (List.append_assoc ..).symm, Lead.ne_nil_of_covers hrun, ?_,
    isUpperCase_iff.mpr rfl, isLongest_of_covers rfl hb hrun hstop hlabel⟩
  rw [byteLength_append]

end

/-! ## All items -/

theorem Scan.items_cons (t : Token) (s : Scan) : (s.cons t).items = .ok t :: s.items := rfl

/-- The items of a cut tile the text from the place of the cut on. -/
theorem Cut.tiles {before rest : List Char} {s : Scan} (h : Cut before rest s) (hb : Boundary before rest) :
    Tiles (before ++ rest) (byteLength before) s.items := by
  induction h with
  | nil before =>
      rw [List.append_nil]
      exact .done
  | @unknown before rest c hc =>
      refine .error (e := Scan.unknownCharacter (byteLength before) c) (c := c) ?_
      exact ⟨before, rest, by simp, by simp [Scan.unknownCharacter],
        by simp [Scan.unknownCharacter, byteLength]⟩
  | @label before run rest s hrun hs ih =>
      have hnext : byteLength before + byteLength run + 1 = byteLength (before ++ run ++ [',']) := by
        rw [byteLength_append, byteLength_append]
        rfl
      have hitems := ih (hb.label hrun)
      rw [← hnext, List.append_assoc, List.append_assoc, List.singleton_append] at hitems
      exact .token (standsIn_label hrun) hitems
  | @token before run rest lead s hrun hstop hlabel hs ih =>
      have hitems := ih (hb.token hrun hstop hlabel)
      rw [byteLength_append, List.append_assoc] at hitems
      refine .token (standsIn_token hb hrun hstop hlabel) ?_
      rwa [Token.next, if_neg (lead.kind_ne_label _)]

theorem Token.StandsIn.within {t : Token} {text : List Char} (h : t.StandsIn text) :
    t.span.Within 0 text := by
  obtain ⟨before, run, after, rfl, hne, hspan, -⟩ := h
  have hcovers : t.span.Covers 0 (before ++ run ++ after) run :=
    ⟨before, after, rfl, by rw [hspan, Nat.zero_add], by rw [hspan, byteLength_append]⟩
  exact hcovers.within hne

/-- Every item covers characters of the text. -/
theorem Tiles.within {text : List Char} {place : Nat} {items : List (Except SourceError Token)}
    (h : Tiles text place items) : ∀ item ∈ items, (itemSpan item).Within 0 text := by
  induction h with
  | done => simp
  | error he => simpa [itemSpan] using he.within (List.cons_ne_nil _ _)
  | token ht _ ih => exact List.forall_mem_cons.mpr ⟨ht.within, ih⟩

/-! ## One item after another -/

namespace Cursor

theorem advanceWhile_eq (p : Char → Bool) (c : Cursor) :
    c.advanceWhile p = { c with rest := c.rest.dropWhile p } := by
  fun_induction advanceWhile p c with
  | case1 c h ih =>
      obtain ⟨start, left, rest⟩ := c
      cases rest with
      | nil => simp [isAtEnd] at h
      | cons d rest =>
          have hd : p d = true := by simpa [next, isAtEnd] using h
          rw [ih, advance, List.tail_cons, List.dropWhile_cons_of_pos hd]
  | case2 c h =>
      obtain ⟨start, left, rest⟩ := c
      cases rest with
      | nil => rfl
      | cons d rest =>
          have hd : ¬p d = true := by simpa [next, isAtEnd] using h
          rw [List.dropWhile_cons_of_neg hd]

variable (before run rest : List Char)

/-- The cursor with the characters `run` of a token behind it. -/
def behind : Cursor := ⟨byteLength before, byteLength (run ++ rest), rest⟩

theorem span_behind :
    (behind before run rest).span = ⟨byteLength before, byteLength before + byteLength run⟩ := by
  rw [span, passed, behind, byteLength_append, Nat.add_sub_cancel]

theorem mark_behind : (behind before run rest).mark = behind (before ++ run) [] rest := by
  rw [mark, passed, behind, behind, byteLength_append, byteLength_append, Nat.add_sub_cancel,
    List.nil_append]

theorem slice_behind : (behind before run rest).span.slice (before ++ (run ++ rest)) = run := by
  refine Span.Covers.slice_eq ⟨before, rest, (List.append_assoc ..).symm, ?_, ?_⟩
  · rw [span_behind, Nat.zero_add]
  · rw [span_behind]

variable {before run rest}

theorem advanceWhile_behind {lead : Lead} {c : Char} {tail : List Char}
    (htail : ∀ d ∈ tail, lead.continues d = true) (hstop : ∀ d ∈ rest.head?, lead.continues d = false) :
    (behind before [] (c :: tail ++ rest)).advance.advanceWhile lead.continues =
      behind before (c :: tail) rest := by
  rw [advanceWhile_eq]
  simp only [behind, advance, List.nil_append, List.cons_append, List.tail_cons,
    dropWhile_append_of_stop htail hstop]

end Cursor

namespace Scanner

variable {before run rest : List Char}

/-- The scanner with the text `before` behind it, where a token begins. -/
def between (before rest : List Char) : Scanner := ⟨before ++ rest, .behind before [] rest, false⟩

theorem draw_of_lead {s : Scanner} {lead : Lead} {c : Char} {text : List Char} (hs : s.failed = false)
    (hrest : s.cursor.rest = c :: text) (hc : Lead.of? c = some lead) :
    s.draw =
      let behind := s.cursor.advance.advanceWhile lead.continues
      let lexeme := upperCase (behind.span.slice s.source)
      if lead == .word && behind.next == ',' then
        (some (.ok ⟨.label, lexeme, behind.span⟩), { s with cursor := behind.advance.mark })
      else
        (some (.ok ⟨lead.kind lexeme, lexeme, behind.span⟩), { s with cursor := behind.mark }) := by
  rw [draw]
  simp only [hs, hrest, hc]

theorem draw_nil (before : List Char) : (between before []).draw = (none, between before []) := rfl

theorem draw_unknown (before rest : List Char) {c : Char} (hc : Lead.of? c = none) :
    (between before (c :: rest)).draw.1 =
        some (.error (Scan.unknownCharacter (byteLength before) c)) ∧
      (between before (c :: rest)).draw.2.failed = true := by
  have hspan := Cursor.span_behind before [c] rest
  simp only [draw, between, Cursor.behind, Cursor.advance, hc, List.nil_append, List.tail_cons]
  rw [Cursor.behind, List.singleton_append] at hspan
  rw [hspan]
  exact ⟨rfl, trivial⟩

/-- The scanner hands out the characters that belong to a token, and looks at the next. -/
theorem draw_of_covers {lead : Lead} (hrun : lead.covers run = true)
    (hstop : ∀ c ∈ rest.head?, lead.continues c = false) :
    (between before (run ++ rest)).draw =
      if lead == .word && (Cursor.behind before run rest).next == ',' then
        (some (.ok ⟨.label, upperCase run, ⟨byteLength before, byteLength before + byteLength run⟩⟩),
          { between before (run ++ rest) with cursor := (Cursor.behind before run rest).advance.mark })
      else
        (some (.ok ⟨lead.kind (upperCase run), upperCase run,
            ⟨byteLength before, byteLength before + byteLength run⟩⟩),
          { between before (run ++ rest) with cursor := (Cursor.behind before run rest).mark }) := by
  obtain ⟨c, tail, rfl, hc, htail⟩ := Lead.exists_of_covers hrun
  have hbehind : (Cursor.behind before [] (c :: tail ++ rest)).advance.advanceWhile lead.continues =
      Cursor.behind before (c :: tail) rest := Cursor.advanceWhile_behind htail hstop
  have hslice := Cursor.slice_behind before (c :: tail) rest
  rw [Cursor.span_behind] at hslice
  rw [draw_of_lead (s := between before (c :: tail ++ rest)) rfl rfl hc]
  simp only [between, hbehind, Cursor.span_behind, hslice]

theorem draw_label (hrun : Lead.word.covers run = true) :
    (between before (run ++ ',' :: rest)).draw =
      (some (.ok ⟨.label, upperCase run, ⟨byteLength before, byteLength before + byteLength run⟩⟩),
        between (before ++ run ++ [',']) rest) := by
  have hcomma : (Cursor.behind before run (',' :: rest)).advance = Cursor.behind before (run ++ [',']) rest := by
    simp [Cursor.behind, Cursor.advance]
  rw [draw_of_covers hrun (Lead.stops_at_comma rest)]
  refine (if_pos rfl).trans ?_
  rw [hcomma, Cursor.mark_behind, between, between]
  simp

theorem draw_token {lead : Lead} (hrun : lead.covers run = true)
    (hstop : ∀ c ∈ rest.head?, lead.continues c = false)
    (hlabel : ¬(lead = .word ∧ rest.head? = some ',')) :
    (between before (run ++ rest)).draw =
      (some (.ok ⟨lead.kind (upperCase run), upperCase run,
          ⟨byteLength before, byteLength before + byteLength run⟩⟩),
        between (before ++ run) rest) := by
  have hnext : ¬(lead == .word && (Cursor.behind before run rest).next == ',') = true := by
    intro h
    rw [Bool.and_eq_true, beq_iff_eq, beq_iff_eq] at h
    refine hlabel ⟨h.1, ?_⟩
    cases rest with
    | nil =>
        have hnul : '\x00' = ',' := h.2
        exact absurd hnul (by decide)
    | cons c rest => exact congrArg some h.2
  rw [draw_of_covers hrun hstop]
  refine (if_neg hnext).trans ?_
  rw [Cursor.mark_behind, between, between, List.append_assoc]

theorem drawn_of_failed {s : Scanner} (h : s.failed = true) (n : Nat) : s.drawn n = none := by
  have hdraw : s.draw = (none, s) := by
    rw [draw]
    simp only [h]
  induction n with
  | zero => rw [drawn, hdraw]
  | succ n ih => rw [drawn, hdraw, ih]

theorem drawn_at_end (before : List Char) (n : Nat) : (between before []).drawn n = none := by
  induction n with
  | zero => rw [drawn, draw_nil]
  | succ n ih => rw [drawn, draw_nil, ih]

end Scanner

/-- Where a token begins, the scanner hands out the items of the cut from there on, and then nothing more. -/
theorem Cut.drawn {before rest : List Char} {s : Scan} (h : Cut before rest s) (n : Nat) :
    (Scanner.between before rest).drawn n = s.items[n]? := by
  induction h generalizing n with
  | nil before => rw [Scanner.drawn_at_end, Scan.items, List.map_nil, List.nil_append]; rfl
  | @unknown before rest c hc =>
      obtain ⟨hitem, hfailed⟩ := Scanner.draw_unknown before rest hc
      cases n with
      | zero => rw [Scanner.drawn, hitem]; rfl
      | succ n => rw [Scanner.drawn, Scanner.drawn_of_failed hfailed]; rfl
  | @label before run rest s hrun hs ih =>
      cases n with
      | zero => rw [Scanner.drawn, Scanner.draw_label hrun]; rfl
      | succ n => rw [Scanner.drawn, Scanner.draw_label hrun, ih, Scan.items_cons, List.getElem?_cons_succ]
  | @token before run rest lead s hrun hstop hlabel hs ih =>
      cases n with
      | zero => rw [Scanner.drawn, Scanner.draw_token hrun hstop hlabel]; rfl
      | succ n =>
          rw [Scanner.drawn, Scanner.draw_token hrun hstop hlabel, ih, Scan.items_cons,
            List.getElem?_cons_succ]

/-- Drawn one at a time, the items of a source are those of its scan, and tile the source. The span of each
begins and ends between characters and is not empty. -/
theorem scanner_tiles (source : String) :
    (∀ n, (Scanner.ofSource source).drawn n = (scan source).items[n]?) ∧
      Tiles source.toList 0 (scan source).items ∧
      ∀ item ∈ (scan source).items, (itemSpan item).Within 0 source.toList := by
  have hcut := cut_scan source
  have htiles : Tiles source.toList 0 (scan source).items := hcut.tiles (.nil source.toList)
  exact ⟨hcut.drawn, htiles, htiles.within⟩

end BasicComputer
