import BasicComputer.Source.Scan

/-! # Scanning line by line

No token goes past a newline. So the lines that the scanner cuts its tokens into are the lines of the
text, each scanned by itself, up to the first that cannot be scanned. -/

namespace BasicComputer

/-! ## Lines of text -/

/-- A line of a text, with the place of its first byte. -/
structure TextLine where
  offset : Nat
  text : List Char
  deriving DecidableEq

namespace TextLine

/-- Counts the bytes of the lines and of the newlines between them. -/
def number (offset : Nat) : List (List Char) → List TextLine
  | [] => []
  | line :: rest => ⟨offset, line⟩ :: number (offset + byteLength line + 1) rest

def ofText (offset : Nat) (text : List Char) : List TextLine := number offset (text.splitOn '\n')

/-- The tokens of a line that say something to the assembler, unless the line cannot be scanned. -/
def tokens (line : TextLine) : Except SourceError (List Token) :=
  match Scan.scanFrom line.offset line.text with
  | ⟨tokens, none⟩ => .ok (tokens.filter (!·.kind.isTrivia))
  | ⟨_, some e⟩ => .error e

variable {offset : Nat} {line rest text : List Char}

theorem ofText_of_not_mem (h : '\n' ∉ text) : ofText offset text = [⟨offset, text⟩] := by
  rw [ofText, List.splitOn_eq_singleton h]
  rfl

theorem ofText_append_cons (h : '\n' ∉ line) :
    ofText offset (line ++ '\n' :: rest) =
      ⟨offset, line⟩ :: ofText (offset + byteLength line + 1) rest := by
  rw [ofText, List.splitOn_append_cons_self_of_not_mem h]
  rfl

/-- A text is a single line or a line and a newline before another text. -/
theorem text_induction {P : List Char → Prop} (single : ∀ line, '\n' ∉ line → P line)
    (cons : ∀ line rest, '\n' ∉ line → P rest → P (line ++ '\n' :: rest)) (text : List Char) :
    P text := by
  by_cases h : '\n' ∈ text
  · obtain ⟨line, rest, heq, hline⟩ := List.eq_append_cons_of_mem h
    have hlt : rest.length < text.length := by
      rw [heq, List.length_append, List.length_cons]
      omega
    rw [heq]
    exact cons line rest hline (text_induction single cons rest)
  · exact single text h
termination_by text.length

end TextLine

/-! ## Newlines end tokens -/

theorem takeWhile_append_cons {α : Type} {p : α → Bool} {x : α} (h : p x = false) (l r : List α) :
    (l ++ x :: r).takeWhile p = l.takeWhile p := by
  induction l with
  | nil => simp [h]
  | cons y l ih =>
      by_cases hy : p y
      · simp [hy, ih]
      · simp [hy]

theorem dropWhile_append_cons {α : Type} {p : α → Bool} {x : α} (h : p x = false) (l r : List α) :
    (l ++ x :: r).dropWhile p = l.dropWhile p ++ x :: r := by
  induction l with
  | nil => simp [h]
  | cons y l ih =>
      by_cases hy : p y
      · simp [hy, ih]
      · simp [hy]

theorem byteLength_append (a b : List Char) : byteLength (a ++ b) = byteLength a + byteLength b := by
  induction a with
  | nil => simp [byteLength]
  | cons c a ih =>
      simp only [List.cons_append, byteLength, ih]
      omega

namespace Scan

/-- One scan and then another, unless the first breaks off. -/
def followedBy (s t : Scan) : Scan :=
  match s.fault with
  | none => ⟨s.tokens ++ t.tokens, t.fault⟩
  | some _ => s

theorem cons_followedBy (t : Token) (a b : Scan) :
    (a.cons t).followedBy b = (a.followedBy b).cons t := by
  cases h : a.fault <;> simp [followedBy, cons, h]

theorem continues_newline (lead : Lead) : lead.continues '\n' = false := by
  cases lead <;> decide

theorem byteLength_takeWhile_add (p : Char → Bool) (text : List Char) :
    byteLength (text.takeWhile p) + byteLength (text.dropWhile p) = byteLength text := by
  rw [← byteLength_append, List.takeWhile_append_dropWhile]

/-- A token and the rest of the scan, from the token's first character on. -/
theorem scanFrom_cons {offset : Nat} {c : Char} {text : List Char} {lead : Lead}
    (h : Lead.of? c = some lead) :
    scanFrom offset (c :: text) =
      let run := c :: text.takeWhile lead.continues
      let after := text.dropWhile lead.continues
      let stop := offset + byteLength run
      if lead = .word ∧ after.head? = some ',' then
        (scanFrom (stop + 1) after.tail).cons ⟨.label, upperCase run, ⟨offset, stop⟩⟩
      else
        (scanFrom stop after).cons
          ⟨lead.kind (upperCase run), upperCase run, ⟨offset, stop⟩⟩ := by
  rw [scanFrom]
  simp only [h, Bool.and_eq_true, beq_iff_eq]

theorem scanFrom_append_newline (offset : Nat) (text rest : List Char) :
    scanFrom offset (text ++ '\n' :: rest) =
      (scanFrom offset text).followedBy (scanFrom (offset + byteLength text) ('\n' :: rest)) := by
  fun_induction scanFrom offset text with
  | case1 offset => simp [followedBy, byteLength]
  | case2 offset c tail hlead =>
      rw [List.cons_append, scanFrom]
      simp [hlead, followedBy]
  | case3 offset c tail lead hlead run after stop lexeme hlabel ih =>
      -- The comma is there already, so the newline behind it does not change what is a label.
      obtain ⟨hword, hcomma⟩ := Bool.and_eq_true_iff.mp hlabel
      obtain ⟨tail', hafter⟩ : ∃ tail', after = ',' :: tail' :=
        List.head?_eq_some_iff.mp (by simpa using hcomma)
      have hlength : stop + 1 + byteLength after.tail = offset + byteLength (c :: tail) := by
        have htail := byteLength_takeWhile_add lead.continues tail
        have hdrop : byteLength (tail.dropWhile lead.continues) = 1 + byteLength after.tail := by
          change byteLength after = _
          rw [hafter]
          rfl
        simp only [stop, run, byteLength]
        omega
      have hstop := continues_newline lead
      rw [List.cons_append, scanFrom_cons hlead, takeWhile_append_cons hstop,
        dropWhile_append_cons hstop, cons_followedBy, ← hlength, ← ih]
      have hlead' : lead = .word := by simpa using hword
      have hhead : (after ++ '\n' :: rest).head? = some ',' := by simp [hafter]
      have htail : (after ++ '\n' :: rest).tail = after.tail ++ '\n' :: rest := by simp [hafter]
      exact (if_pos ⟨hlead', hhead⟩).trans (by rw [htail])
  | case4 offset c tail lead hlead run after stop lexeme hlabel ih =>
      have hlength : stop + byteLength after = offset + byteLength (c :: tail) := by
        have htail := byteLength_takeWhile_add lead.continues tail
        simp only [stop, run, after, byteLength]
        omega
      have hstop := continues_newline lead
      rw [List.cons_append, scanFrom_cons hlead, takeWhile_append_cons hstop,
        dropWhile_append_cons hstop, cons_followedBy, ← hlength, ← ih]
      refine if_neg ?_
      intro h
      rcases h with ⟨rfl, hhead⟩
      have hcomma : after.head? = some ',' := by
        cases hafter : after with
        | nil =>
            change (after ++ _).head? = _ at hhead
            simp [hafter] at hhead
        | cons x tail' =>
            change (after ++ _).head? = _ at hhead
            simpa [hafter] using hhead
      exact hlabel (by simp [hcomma])

/-! ## Lines of tokens -/

theorem ofWord_ne_newline (word : String) : TokenKind.ofWord word ≠ .newline := by
  unfold TokenKind.ofWord
  split <;> simp

theorem kind_ne_newline {lead : Lead} (h : lead ≠ .newline) (lexeme : String) :
    lead.kind lexeme ≠ .newline := by
  cases lead with
  | newline => exact absurd rfl h
  | word => exact ofWord_ne_newline lexeme
  | comment | gap | number => simp [Lead.kind]

theorem lead_ne_newline {c : Char} {lead : Lead} (h : Lead.of? c = some lead) (hc : c ≠ '\n') :
    lead ≠ .newline := by
  rintro rfl
  unfold Lead.of? at h
  split at h
  · cases h
  · simp only [beq_iff_eq, hc, if_false] at h
    grind

/-- A text without newlines has no newline tokens. -/
theorem kind_ne_newline_of_mem_scanFrom {offset : Nat} {text : List Char} (h : '\n' ∉ text) :
    ∀ t ∈ (scanFrom offset text).tokens, t.kind ≠ .newline := by
  fun_induction scanFrom offset text with
  | case1 offset => simp
  | case2 offset c tail hlead => simp
  | case3 offset c tail lead hlead run after stop lexeme hlabel ih =>
      have hafter : '\n' ∉ after.tail := fun hmem =>
        h (List.mem_cons_of_mem c ((List.dropWhile_suffix _).subset (List.mem_of_mem_tail hmem)))
      simpa [cons] using ih hafter
  | case4 offset c tail lead hlead run after stop lexeme hlabel ih =>
      have hafter : '\n' ∉ after := fun hmem =>
        h (List.mem_cons_of_mem c ((List.dropWhile_suffix _).subset hmem))
      have hc : c ≠ '\n' := fun hc => h (hc ▸ List.mem_cons_self)
      simpa [cons] using ⟨kind_ne_newline (lead_ne_newline hlead hc) lexeme, ih hafter⟩

theorem splitLines_of_forall {tokens : List Token} (h : ∀ t ∈ tokens, t.kind ≠ .newline) :
    splitLines tokens = [tokens] := by
  induction tokens with
  | nil => rfl
  | cons t rest ih =>
      simp only [List.mem_cons, forall_eq_or_imp] at h
      rw [splitLines, if_neg h.1, ih h.2]

theorem splitLines_append_cons {tokens rest : List Token} (h : ∀ t ∈ tokens, t.kind ≠ .newline)
    {t : Token} (ht : t.kind = .newline) :
    splitLines (tokens ++ t :: rest) = tokens :: splitLines rest := by
  induction tokens with
  | nil => rw [List.nil_append, splitLines, if_pos ht]
  | cons u tokens ih =>
      simp only [List.mem_cons, forall_eq_or_imp] at h
      rw [List.cons_append, splitLines, if_neg h.1, ih h.2]

theorem splitLines_ne_nil (tokens : List Token) : splitLines tokens ≠ [] := by
  cases tokens with
  | nil => simp [splitLines]
  | cons t rest =>
      unfold splitLines
      split
      · simp
      · split <;> simp

/-- Everything up to the first error, with the error. -/
def throughError {α : Type} : List (Except SourceError α) → List (Except SourceError α)
  | [] => []
  | .ok a :: rest => .ok a :: throughError rest
  | .error e :: _ => [.error e]

variable {offset : Nat} {text : List Char}

theorem scanFrom_newline (offset : Nat) (rest : List Char) :
    scanFrom offset ('\n' :: rest) =
      (scanFrom (offset + 1) rest).cons ⟨.newline, "\n", ⟨offset, offset + 1⟩⟩ := by
  have hlead : Lead.of? '\n' = some .newline := by decide
  have hstop (p : Char → Bool) (hp : p = Lead.newline.continues) :
      rest.takeWhile p = [] ∧ rest.dropWhile p = rest := by
    subst hp
    cases rest <;> simp [Lead.continues]
  obtain ⟨htake, hdrop⟩ := hstop _ rfl
  rw [scanFrom_cons hlead, htake, hdrop]
  rfl

theorem lines_of_not_mem (h : '\n' ∉ text) :
    (scanFrom offset text).lines = [TextLine.tokens ⟨offset, text⟩] := by
  have hkind : ∀ t ∈ (scanFrom offset text).tokens, t.kind ≠ .newline :=
    kind_ne_newline_of_mem_scanFrom h
  simp only [lines, TextLine.tokens]
  generalize scanFrom offset text = s at hkind
  obtain ⟨tokens, fault⟩ := s
  have hsplit : splitLines (tokens.filter (!·.kind.isTrivia)) = [tokens.filter (!·.kind.isTrivia)] :=
    splitLines_of_forall fun t ht => hkind t (List.mem_filter.mp ht).1
  rw [hsplit]
  cases fault <;> rfl

theorem lines_followedBy {tokens : List Token} (h : ∀ t ∈ tokens, t.kind ≠ .newline) {t : Token}
    (ht : t.kind = .newline) (s : Scan) :
    (followedBy ⟨tokens, none⟩ (s.cons t)).lines =
      .ok (tokens.filter (!·.kind.isTrivia)) :: s.lines := by
  have htrivia : (!t.kind.isTrivia) = true := by
    rw [ht]
    rfl
  have hsplit : splitLines ((tokens ++ t :: s.tokens).filter (!·.kind.isTrivia)) =
      tokens.filter (!·.kind.isTrivia) :: splitLines (s.tokens.filter (!·.kind.isTrivia)) := by
    rw [List.filter_append, List.filter_cons, if_pos htrivia]
    exact splitLines_append_cons (fun u hu => h u (List.mem_filter.mp hu).1) ht
  obtain ⟨rest, fault⟩ := s
  simp only [followedBy, cons, lines, hsplit]
  cases fault with
  | none => rfl
  | some e => simp [List.dropLast_cons_of_ne_nil (splitLines_ne_nil _)]

theorem lines_append_newline {rest : List Char} (h : '\n' ∉ text) :
    (scanFrom offset (text ++ '\n' :: rest)).lines =
      match TextLine.tokens ⟨offset, text⟩ with
      | .ok tokens => .ok tokens :: (scanFrom (offset + byteLength text + 1) rest).lines
      | .error e => [.error e] := by
  have hkind : ∀ t ∈ (scanFrom offset text).tokens, t.kind ≠ .newline :=
    kind_ne_newline_of_mem_scanFrom h
  have hsingle : (scanFrom offset text).lines = [TextLine.tokens ⟨offset, text⟩] :=
    lines_of_not_mem h
  rw [scanFrom_append_newline, scanFrom_newline]
  simp only [TextLine.tokens] at hsingle ⊢
  generalize scanFrom offset text = s at hkind hsingle
  generalize scanFrom (offset + byteLength text + 1) rest = t
  obtain ⟨tokens, fault⟩ := s
  cases fault with
  | some e => exact hsingle
  | none => exact lines_followedBy hkind rfl t

/-- The scanner's lines are those of the text, each scanned by itself. -/
theorem lines_scanFrom (offset : Nat) (text : List Char) :
    (scanFrom offset text).lines =
      throughError ((TextLine.ofText offset text).map TextLine.tokens) := by
  induction text using TextLine.text_induction generalizing offset with
  | single line h =>
      rw [lines_of_not_mem h, TextLine.ofText_of_not_mem h]
      cases ht : TextLine.tokens ⟨offset, line⟩ <;> simp [throughError, ht]
  | cons line rest h ih =>
      rw [lines_append_newline h, TextLine.ofText_append_cons h]
      cases ht : TextLine.tokens ⟨offset, line⟩ <;> simp [throughError, ht, ih]

end Scan

/-! ## Whole sources -/

section

variable {source : String}

theorem tokenize_eq_ok_iff {tokens : List Token} :
    tokenize source = .ok tokens ↔
      (scan source).fault = none ∧ (scan source).tokens.filter (!·.kind.isTrivia) = tokens := by
  unfold tokenize
  split
  next read heq => simp [heq]
  next read e heq => simp [heq]

theorem tokenize_eq_error_iff {e : SourceError} :
    tokenize source = .error e ↔ (scan source).fault = some e := by
  unfold tokenize
  split
  next read heq => simp [heq]
  next read e' heq => simp [heq]

end

end BasicComputer
