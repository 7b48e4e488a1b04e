import BasicComputer.Proofs.Assembly.LetterCase
import BasicComputer.Proofs.Assembly.Spacing
import BasicComputer.Proofs.Source.Cut
import BasicComputer.Proofs.Source.Printing

/-! # Tokens written out

The tokens of a source can be written out again with a space between them, and are then scanned as they were.
A space is enough to part two of them, and beside a newline not even that is needed. -/

namespace BasicComputer

/-- A token as it is written. A label takes its comma with it. -/
def Token.written (t : Token) : List Char :=
  if t.kind = .label then t.lexeme.toList ++ [','] else t.lexeme.toList

/-- What is written between two tokens. A tight text leaves out the space beside a newline. -/
def Token.between (t : Token) (tight : Bool) (u : Token) : List Char :=
  if tight && (t.isNewline || u.isNewline) then [] else [' ']

/-- The text of the tokens one behind another. -/
def writeOut (tight : Bool) : List Token → List Char
  | [] => []
  | [t] => t.written
  | t :: u :: tokens => t.written ++ (t.between tight u ++ writeOut tight (u :: tokens))

/-- The token is what the scanner makes of a text that begins so. -/
structure Token.Scanned (lead : Lead) (t : Token) : Prop where
  kind : t.kind = lead.kind t.lexeme ∨ lead = .word ∧ t.kind = .label
  covers : lead.covers t.lexeme.toList = true
  upper : upperCase t.lexeme.toList = t.lexeme

/-! ## The tokens of a source -/

theorem Lead.covers_upperCase (lead : Lead) (run : List Char) :
    lead.covers (upperCase run).toList = lead.covers run := by
  have hcontinues : lead.continues ∘ Char.toUpper = lead.continues := funext lead.continues_toUpper
  rw [upperCase, String.toList_ofList]
  cases run with
  | nil => rfl
  | cons c run => rw [List.map_cons, covers, covers, of?_toUpper, List.all_map, hcontinues]

theorem Cut.scanned {before text : List Char} {s : Scan} (h : Cut before text s) :
    ∀ t ∈ s.tokens, ∃ lead, t.Scanned lead := by
  induction h with
  | nil => exact fun t ht => nomatch ht
  | unknown => exact fun t ht => nomatch ht
  | @label before run rest s hrun _ ih =>
      refine List.forall_mem_cons.mpr ⟨⟨.word, .inr ⟨rfl, rfl⟩, ?_, upperCase_upperCase run⟩, ih⟩
      rw [Lead.covers_upperCase, hrun]
  | @token before run rest lead s hrun _ _ _ ih =>
      refine List.forall_mem_cons.mpr ⟨⟨lead, .inl rfl, ?_, upperCase_upperCase run⟩, ih⟩
      rw [Lead.covers_upperCase, hrun]

namespace Token.Scanned

variable {lead : Lead} {t : Token}

theorem lead_ne (h : t.Scanned lead) (htrivia : t.kind.isTrivia = false) :
    lead ≠ .comment ∧ lead ≠ .gap := by
  rcases h.kind with hkind | ⟨rfl, -⟩
  · rw [hkind] at htrivia
    constructor <;> rintro rfl <;> cases htrivia
  · decide

theorem eq_newline (h : t.Scanned lead) (ht : t.isNewline = true) : lead = .newline := by
  rw [isNewline, beq_iff_eq] at ht
  rcases h.kind with hkind | ⟨-, hkind⟩
  · by_contra hne
    exact Scan.kind_ne_newline hne t.lexeme (hkind.symm.trans ht)
  · cases hkind.symm.trans ht

theorem isGap_eq_false (h : t.Scanned lead) (htrivia : t.kind.isTrivia = false) {c : Char}
    (hc : Lead.of? c = some lead) : isGap c = false := by
  by_contra hgap
  have hof : Lead.of? c = some .gap := Lead.of?_of_isGap (by simpa using hgap)
  exact (h.lead_ne htrivia).2 (Option.some.inj (hc.symm.trans hof))

/-- What is written for a token begins as the token does. -/
theorem head?_written (h : t.Scanned lead) (rest : List Char) :
    ∃ c, (t.written ++ rest).head? = some c ∧ Lead.of? c = some lead := by
  obtain ⟨c, tail, hrun, hc, -⟩ := Lead.exists_of_covers h.covers
  refine ⟨c, ?_, hc⟩
  unfold written
  split <;> simp [hrun]

end Token.Scanned

/-! ## Scanning what was written -/

/-- A token before a space or the end of its line. -/
theorem Scans.written {lead : Lead} {t : Token} (h : t.Scanned lead) (htrivia : t.kind.isTrivia = false)
    {rest : List Char} (hrest : lead ≠ .newline → ∀ c ∈ rest.head?, c = ' ' ∨ c = '\n')
    {words : List (TokenKind × String)} (hs : Scans rest words) :
    Scans (t.written ++ rest) (t.spelling :: words) := by
  have hlead := h.lead_ne htrivia
  rcases h.kind with hkind | ⟨rfl, hkind⟩
  · have hwritten : t.written = t.lexeme.toList := if_neg (hkind ▸ lead.kind_ne_label t.lexeme)
    have hstop : ∀ c ∈ rest.head?, lead.continues c = false := by
      intro c hc
      cases lead with
      | newline => rfl
      | comment => exact absurd rfl hlead.1
      | gap => exact absurd rfl hlead.2
      | number | word => rcases hrest (by decide) c hc with rfl | rfl <;> rfl
    have hlabel : ¬(lead = .word ∧ rest.head? = some ',') := by
      rintro ⟨rfl, hcomma⟩
      exact absurd (hrest (by decide) ',' hcomma) (by decide)
    have htoken := Scans.token h.covers (by rw [h.upper, ← hkind, htrivia]) hstop hlabel hs
    rw [h.upper, ← hkind] at htoken
    rw [hwritten]
    exact htoken
  · have hwritten : t.written = t.lexeme.toList ++ [','] := if_pos hkind
    have hlabel := Scans.label h.covers hs
    rw [h.upper, ← hkind] at hlabel
    rw [hwritten, List.append_assoc]
    exact hlabel

section

variable {lead lead' : Lead} {t u : Token} (hu : u.Scanned lead') (rest : List Char) (tight : Bool)
include hu

theorem Scans.between (hutrivia : u.kind.isTrivia = false) (t : Token)
    {words : List (TokenKind × String)} (hs : Scans (u.written ++ rest) words) :
    Scans (t.between tight u ++ (u.written ++ rest)) words := by
  have hgap : (u.written ++ rest).head?.all (!isGap ·) = true := by
    obtain ⟨d, hhead, hd⟩ := hu.head?_written rest
    rw [hhead, Option.all_some, hu.isGap_eq_false hutrivia hd]
    rfl
  unfold Token.between
  split
  · exact hs
  · exact .gap hgap hs

/-- Behind a token that is no newline comes a space, unless there is a newline. -/
theorem Token.Scanned.space_or_newline (ht : t.Scanned lead) (hlead : lead ≠ .newline) :
    ∀ c ∈ (t.between tight u ++ (u.written ++ rest)).head?, c = ' ' ∨ c = '\n' := by
  intro c hc
  obtain ⟨d, hhead, hd⟩ := hu.head?_written rest
  have ht : t.isNewline ≠ true := fun hnewline => hlead (ht.eq_newline hnewline)
  by_cases hbetween : (tight && (t.isNewline || u.isNewline)) = true
  · have hnewline : u.isNewline = true := by simpa [ht] using (Bool.and_eq_true_iff.mp hbetween).2
    rw [between, if_pos hbetween, List.nil_append] at hc
    obtain rfl := Option.some.inj (hhead.symm.trans hc)
    obtain rfl := hu.eq_newline hnewline
    exact .inr (by simpa [Lead.begins] using Lead.begins_of_eq_some hd)
  · rw [between, if_neg hbetween] at hc
    exact .inl (Option.some.inj hc).symm

end

theorem exists_writeOut_cons (tight : Bool) (t : Token) (tokens : List Token) :
    ∃ rest, writeOut tight (t :: tokens) = t.written ++ rest := by
  cases tokens with
  | nil => exact ⟨[], (List.append_nil _).symm⟩
  | cons u tokens => exact ⟨_, rfl⟩

theorem scans_writeOut (tight : Bool) {tokens : List Token}
    (h : ∀ t ∈ tokens, t.kind.isTrivia = false ∧ ∃ lead, t.Scanned lead) :
    Scans (writeOut tight tokens) (tokens.map Token.spelling) := by
  induction tokens with
  | nil => exact .nil
  | cons t tokens ih =>
      obtain ⟨⟨htrivia, lead, ht⟩, htokens⟩ := List.forall_mem_cons.mp h
      cases tokens with
      | nil =>
          rw [writeOut, ← List.append_nil t.written]
          exact .written ht htrivia (by simp) .nil
      | cons u tokens =>
          obtain ⟨hutrivia, lead', hu⟩ := htokens u List.mem_cons_self
          obtain ⟨rest, hrest⟩ := exists_writeOut_cons tight u tokens
          have hs := ih htokens
          rw [hrest] at hs
          rw [writeOut, List.map_cons, hrest]
          exact .written ht htrivia (hu.space_or_newline rest tight ht) (.between hu rest tight hutrivia t hs)

theorem Scans.tokenize {text : List Char} {words : List (TokenKind × String)} (h : Scans text words) :
    ∃ tokens, BasicComputer.tokenize (String.ofList text) = .ok tokens ∧
      tokens.map Token.spelling = words := by
  obtain ⟨tokens, hscan, hwords⟩ := h 0
  have htext : scan (String.ofList text) = ⟨tokens, none⟩ := by rw [scan, String.toList_ofList, hscan]
  exact ⟨_, tokenize_eq_ok_iff.mpr ⟨by rw [htext], rfl⟩, by rw [htext]; exact hwords⟩

/-- The tokens of a source are scanned again, with the same kinds and lexemes, when they are written out. -/
theorem tokenize_writeOut {source : String} {tokens : List Token} (h : tokenize source = .ok tokens)
    (tight : Bool) : ∃ again, tokenize (String.ofList (writeOut tight tokens)) = .ok again ∧
      again.map Token.spelling = tokens.map Token.spelling := by
  obtain ⟨-, rfl⟩ := tokenize_eq_ok_iff.mp h
  refine (scans_writeOut tight fun t ht => ?_).tokenize
  obtain ⟨hmem, htrivia⟩ := List.mem_filter.mp ht
  exact ⟨by simpa using htrivia, (cut_scan source).scanned t hmem⟩

theorem tokenize_writeOut_gluedNumbers :
    ∃ tokens, tokenize "add,12-3+ i\r\nEnd/ ,\n" = .ok tokens ∧
      String.ofList (writeOut true tokens) = "ADD, 12 -3 + I\nEND\n" ∧
      ∃ again, tokenize "ADD, 12 -3 + I\nEND\n" = .ok again ∧
        again.map Token.spelling = tokens.map Token.spelling := by
  have h : tokenize "add,12-3+ i\r\nEnd/ ,\n" = .ok
      [⟨.label, "ADD", ⟨0, 3⟩⟩, ⟨.number, "12", ⟨4, 6⟩⟩, ⟨.number, "-3", ⟨6, 8⟩⟩, ⟨.number, "+", ⟨8, 9⟩⟩,
        ⟨.identifier, "I", ⟨10, 11⟩⟩, ⟨.newline, "\n", ⟨12, 13⟩⟩, ⟨.directive .stop, "END", ⟨13, 16⟩⟩,
        ⟨.newline, "\n", ⟨19, 20⟩⟩] := by decide +kernel
  exact ⟨_, h, by decide, tokenize_writeOut h true⟩

end BasicComputer
