import BasicComputer.Proofs.Source.Boundary

/-! # Which texts are scanned to their end

A source consists of letters, digits, signs, slashes, blanks and newlines, and of commas behind words. What
stands in a comment does not count. The scanner stops at the first character that breaks this rule. -/

namespace BasicComputer

/-- The characters that may stand anywhere in a source. -/
def isPlain (c : Char) : Bool :=
  c.isAlphanum || c == '+' || c == '-' || c == '/' || isGap c || c == '\n'

/-- The character cannot stand behind the text: it is outside of comments, and it is none that a source has, or
a comma without a word in front. -/
structure Violates (before : List Char) (c : Char) : Prop where
  outside : ¬InComment before
  unfit : isPlain c = false ∧ c ≠ ',' ∨ c = ',' ∧ ¬EndsInWord before

/-- Every character of the text can stand where it does, behind the text in front. -/
def Clean (before text : List Char) : Prop :=
  ∀ mid c after, text = mid ++ c :: after → ¬Violates (before ++ mid) c

/-! ## Clean texts -/

theorem not_violates_of_isPlain (before : List Char) {c : Char} (h : isPlain c = true) :
    ¬Violates before c := by
  rintro ⟨-, ⟨hplain, -⟩ | ⟨rfl, -⟩⟩
  · exact absurd h (by simp [hplain])
  · exact absurd h (by decide)

namespace Clean

variable {before text rest : List Char} {c : Char}

theorem nil (before : List Char) : Clean before [] := by
  intro mid c after h
  simp at h

theorem cons_iff : Clean before (c :: rest) ↔ ¬Violates before c ∧ Clean (before ++ [c]) rest := by
  constructor
  · intro h
    refine ⟨by simpa using h [] c rest rfl, ?_⟩
    rintro mid d after rfl
    simpa using h (c :: mid) d after rfl
  · rintro ⟨hc, hrest⟩ mid d after heq
    cases mid with
    | nil =>
        obtain ⟨rfl, -⟩ := List.cons.inj heq
        simpa using hc
    | cons e mid =>
        obtain ⟨rfl, rfl⟩ := List.cons.inj heq
        simpa using hrest mid d after rfl

theorem append_iff : Clean before (text ++ rest) ↔ Clean before text ∧ Clean (before ++ text) rest := by
  induction text generalizing before with
  | nil => simp [nil]
  | cons c text ih => rw [List.cons_append, cons_iff, cons_iff, ih, and_assoc, List.append_assoc]; rfl

/-- Plain characters can stand anywhere. -/
theorem of_isPlain (before : List Char) (h : ∀ c ∈ text, isPlain c = true) : Clean before text := by
  rintro mid c after rfl
  exact not_violates_of_isPlain _ (h c (by simp))

/-- Anything can stand in a comment. -/
theorem of_inComment (h : InComment before) (htext : '\n' ∉ text) : Clean before text := by
  rintro mid c after rfl hv
  obtain ⟨front, body, rfl, hbody⟩ := h
  refine hv.outside ⟨front, body ++ mid, by simp, ?_⟩
  rw [List.mem_append, not_or]
  exact ⟨hbody, fun hmid => htext (List.mem_append_left _ hmid)⟩

end Clean

/-! ## Tokens are clean -/

theorem Lead.isPlain_eq_false_of_none {c : Char} (h : Lead.of? c = none) : isPlain c = false := by
  unfold Lead.of? at h
  simp only [isPlain, Char.isAlphanum]
  grind

theorem Lead.isPlain_of_covers {lead : Lead} (hlead : lead ≠ .comment) {run : List Char}
    (h : lead.covers run = true) : ∀ c ∈ run, isPlain c = true := by
  refine Lead.forall_of_covers h (fun c hc => ?_) fun c hc => ?_
  · cases lead with
    | comment => exact absurd rfl hlead
    | newline | gap | number | word =>
        simp only [begins] at hc
        simp only [isPlain, Char.isAlphanum]
        grind
  · cases lead with
    | comment => exact absurd rfl hlead
    | newline => cases hc
    | gap | number | word =>
        simp only [continues] at hc
        simp [isPlain, hc]

theorem Clean.of_covers {lead : Lead} (before : List Char) {run : List Char}
    (h : lead.covers run = true) : Clean before run := by
  by_cases hlead : lead = .comment
  · subst hlead
    obtain ⟨c, tail, rfl, hc, htail⟩ := Lead.exists_of_covers h
    have hslash : c = '/' := by simpa [Lead.begins] using Lead.begins_of_eq_some hc
    subst hslash
    refine Clean.cons_iff.mpr ⟨not_violates_of_isPlain _ (by decide), .of_inComment ?_ ?_⟩
    · exact ⟨before, [], rfl, List.not_mem_nil⟩
    · exact fun hmem => absurd (htail _ hmem) (by decide)
  · exact .of_isPlain before (Lead.isPlain_of_covers hlead h)

/-- A label ends in a word. -/
theorem Boundary.endsInWord {before run rest : List Char} (hb : Boundary before (run ++ rest))
    (hrun : Lead.word.covers run = true) : EndsInWord (before ++ run) := by
  obtain ⟨c, tail, rfl, hc, htail⟩ := Lead.exists_of_covers hrun
  have halpha : c.isAlpha = true := Lead.begins_of_eq_some hc
  exact ⟨before, c, tail, rfl, halpha, htail, hb.run c rfl (by simp [Char.isAlphanum, halpha])⟩

/-! ## The first violation -/

/-- The character stands in the text where it cannot, and is the first that does. -/
structure FirstViolation (before text mid : List Char) (c : Char) : Prop where
  stands : ∃ after, text = mid ++ c :: after
  clean : Clean before mid
  violates : Violates (before ++ mid) c

namespace FirstViolation

variable {before text rest mid mid' : List Char} {c c' : Char}

theorem not_clean (h : FirstViolation before text mid c) : ¬Clean before text := by
  obtain ⟨after, rfl⟩ := h.stands
  exact fun hclean => hclean mid c after rfl h.violates

theorem append (h : FirstViolation (before ++ text) rest mid c) (htext : Clean before text) :
    FirstViolation before (text ++ rest) (text ++ mid) c := by
  obtain ⟨after, rfl⟩ := h.stands
  refine ⟨⟨after, by simp⟩, Clean.append_iff.mpr ⟨htext, h.clean⟩, ?_⟩
  rw [← List.append_assoc]
  exact h.violates

theorem unique (h : FirstViolation before text mid c) (h' : FirstViolation before text mid' c') :
    mid = mid' ∧ c = c' := by
  obtain ⟨after, rfl⟩ := h.stands
  obtain ⟨after', heq⟩ := h'.stands
  rcases List.append_eq_append_iff.mp heq with ⟨front, rfl, hfront⟩ | ⟨front, rfl, hfront⟩
  · cases front with
    | nil => simpa using (List.cons.inj hfront).1
    | cons d front =>
        obtain ⟨rfl, -⟩ := List.cons.inj hfront
        exact absurd h.violates (h'.clean mid c front rfl)
  · cases front with
    | nil => simpa using (List.cons.inj hfront).1.symm
    | cons d front =>
        obtain ⟨rfl, -⟩ := List.cons.inj hfront
        exact absurd h'.violates (h.clean mid' c' front rfl)

end FirstViolation

/-! ## Scanning -/

/-- What scanning a text behind another reports: nothing of a clean text, else its first violation. -/
def Reports (before text : List Char) : Option SourceError → Prop
  | none => Clean before text
  | some e => ∃ mid c, FirstViolation before text mid c ∧
      e = Scan.unknownCharacter (byteLength (before ++ mid)) c

namespace Reports

variable {before run text rest : List Char} {fault : Option SourceError}

theorem append (h : Reports (before ++ run) rest fault) (hrun : Clean before run) :
    Reports before (run ++ rest) fault := by
  cases fault with
  | none => exact Clean.append_iff.mpr ⟨hrun, h⟩
  | some e =>
      obtain ⟨mid, c, hfirst, rfl⟩ := h
      exact ⟨run ++ mid, c, hfirst.append hrun, by rw [List.append_assoc]⟩

theorem eq_none_iff (h : Reports before text fault) : fault = none ↔ Clean before text := by
  cases fault with
  | none => exact ⟨fun _ => h, fun _ => rfl⟩
  | some e =>
      obtain ⟨mid, c, hfirst, -⟩ := h
      exact ⟨(nomatch ·), fun hclean => absurd hclean hfirst.not_clean⟩

theorem eq_some_iff (h : Reports before text fault) {e : SourceError} :
    fault = some e ↔ ∃ mid c, FirstViolation before text mid c ∧
      e = Scan.unknownCharacter (byteLength (before ++ mid)) c := by
  cases fault with
  | none =>
      refine ⟨(nomatch ·), ?_⟩
      rintro ⟨mid, c, hfirst, -⟩
      exact absurd h hfirst.not_clean
  | some e' =>
      obtain ⟨mid, c, hfirst, rfl⟩ := h
      constructor
      · rintro ⟨⟩
        exact ⟨mid, c, hfirst, rfl⟩
      · rintro ⟨mid', c', hfirst', rfl⟩
        obtain ⟨rfl, rfl⟩ := hfirst.unique hfirst'
        rfl

end Reports

theorem Cut.reports {before text : List Char} {s : Scan} (h : Cut before text s)
    (hb : Boundary before text) : Reports before text s.fault := by
  induction h with
  | nil before => exact .nil before
  | @unknown before rest c hc =>
      have hplain := Lead.isPlain_eq_false_of_none hc
      refine ⟨[], c, ⟨⟨rest, rfl⟩, .nil before, ?_⟩, by rw [List.append_nil]⟩
      rw [List.append_nil]
      refine ⟨fun hcomment => ?_, ?_⟩
      · obtain rfl := hb.comment hcomment c rfl
        cases hplain
      · by_cases hcomma : c = ','
        · exact .inr ⟨hcomma, hb.comma (congrArg some hcomma)⟩
        · exact .inl ⟨hplain, hcomma⟩
  | @label before run rest s hrun _ ih =>
      have hcomma : ¬Violates (before ++ run) ',' := by
        rintro ⟨-, ⟨-, hne⟩ | ⟨-, hword⟩⟩
        · exact hne rfl
        · exact hword (hb.endsInWord hrun)
      have hlabel : Clean before (run ++ [',']) :=
        Clean.append_iff.mpr ⟨.of_covers before hrun, Clean.cons_iff.mpr ⟨hcomma, .nil _⟩⟩
      have hrest := ih (hb.label hrun)
      rw [List.append_assoc] at hrest
      have hall := hrest.append hlabel
      rw [List.append_assoc] at hall
      exact hall
  | token hrun hstop hlabel _ ih =>
      exact (ih (hb.token hrun hstop hlabel)).append (.of_covers _ hrun)

theorem reports_scan (source : String) : Reports [] source.toList (scan source).fault :=
  (cut_scan source).reports (.nil _)

/-- The error is told by its problem and its span: the character and its bytes. -/
theorem Scan.eq_unknownCharacter_iff {e : SourceError} {offset : Nat} {c : Char} :
    e = Scan.unknownCharacter offset c ↔
      e.problem = .unknownCharacter ("unexpected character `" ++ String.ofList (escapeChar c) ++ "`") ∧
        e.span = ⟨offset, offset + c.utf8Size⟩ := by
  cases e
  exact iff_of_eq (SourceError.mk.injEq ..)

/-- A source is tokenized when each of its characters can stand where it does. Else the error is one of
scanning, and points at the first character that cannot: its span is made of the bytes of this character. -/
theorem tokenize_language (source : String) :
    ((∃ tokens, tokenize source = .ok tokens) ↔
      ∀ before c after, source.toList = before ++ c :: after → ¬Violates before c) ∧
    ∀ e, tokenize source = .error e ↔
      ∃ before c after, source.toList = before ++ c :: after ∧ Violates before c ∧
        (∀ earlier d later, before = earlier ++ d :: later → ¬Violates earlier d) ∧
        e.problem = .unknownCharacter ("unexpected character `" ++ String.ofList (escapeChar c) ++ "`") ∧
        e.span = ⟨byteLength before, byteLength before + c.utf8Size⟩ := by
  have hreports := reports_scan source
  constructor
  · calc (∃ tokens, tokenize source = .ok tokens)
        ↔ (scan source).fault = none := by simp [tokenize_eq_ok_iff]
      _ ↔ Clean [] source.toList := hreports.eq_none_iff
  · intro e
    simp only [← Scan.eq_unknownCharacter_iff]
    rw [tokenize_eq_error_iff, hreports.eq_some_iff]
    constructor
    · rintro ⟨before, c, ⟨⟨after, hafter⟩, hclean, hviolates⟩, rfl⟩
      exact ⟨before, c, after, hafter, hviolates, hclean, rfl⟩
    · rintro ⟨before, c, after, hafter, hviolates, hclean, rfl⟩
      exact ⟨before, c, ⟨⟨after, hafter⟩, hclean, hviolates⟩, rfl⟩

example : tokenize "+A /,\n+A, é" = .error (Scan.unknownCharacter 8 ',') := by decide +kernel

end BasicComputer
