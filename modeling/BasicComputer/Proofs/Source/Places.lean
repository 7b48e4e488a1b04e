import BasicComputer.Proofs.Source.Extent
import Mathlib.Data.List.Pairwise

/-! # Where tokens stand

Every token of a line covers at least one byte of it, and the lines of a text follow one another. So the
span of a token tells its line. -/

namespace BasicComputer

/-- The span covers at least one byte, all of them from `start` up to `stop`. -/
structure Span.Inside (s : Span) (start stop : Nat) : Prop where
  start_le : start ≤ s.start
  start_lt : s.start < s.stop
  stop_le : s.stop ≤ stop

theorem Span.Within.inside {s : Span} {offset : Nat} {text : List Char} (h : s.Within offset text) :
    s.Inside offset (offset + byteLength text) := by
  obtain ⟨piece, -, hcovers⟩ := h.exists_covers
  exact ⟨hcovers.le.1, h.lt, hcovers.le.2⟩

/-! ## Lines -/

namespace TextLine

variable {offset : Nat} {text : List Char} {t u : TextLine}

theorem readFrom_of_mem_tokens {tokens : List Token} (h : t.tokens = .ok tokens) :
    ∀ token ∈ tokens, token.ReadFrom t.offset t.text := by
  have hread := Scan.readFrom_of_mem_scanFrom t.offset t.text
  unfold TextLine.tokens at h
  split at h
  next scanned heq =>
    rw [heq] at hread
    cases h
    exact fun token hmem => hread token (List.mem_filter.mp hmem).1
  next => cases h

theorem pairwise_tokens {tokens : List Token} (h : t.tokens = .ok tokens) :
    tokens.Pairwise Token.Precedes := by
  have hpairwise := Scan.pairwise_scanFrom t.offset t.text
  unfold TextLine.tokens at h
  split at h
  next scanned heq =>
    rw [heq] at hpairwise
    cases h
    exact hpairwise.filter _
  next => cases h

theorem exists_unknownCharacter {e : SourceError} (h : t.tokens = .error e) :
    ∃ place c, e = Scan.unknownCharacter place c ∧ Lead.of? c = none ∧
      e.span.Covers t.offset t.text [c] := by
  have hfault := Scan.exists_unknownCharacter t.offset t.text
  unfold TextLine.tokens at h
  split at h
  next => cases h
  next heq =>
    rw [heq] at hfault
    cases h
    exact hfault _ rfl

/-- The first line ends before the second begins. -/
def Precedes (t u : TextLine) : Prop := t.offset + byteLength t.text < u.offset

/-- One line ends before the other begins. -/
def Apart (t u : TextLine) : Prop :=
  t.offset + byteLength t.text < u.offset ∨ u.offset + byteLength u.text < t.offset

instance : Std.Symm Apart := ⟨fun _ _ h => h.symm⟩

theorem le_offset_of_mem_number {lines : List (List Char)} (h : t ∈ number offset lines) :
    offset ≤ t.offset := by
  induction lines generalizing offset with
  | nil => cases h
  | cons line lines ih =>
      rcases List.mem_cons.mp h with rfl | hmem
      · exact Nat.le_refl _
      · have hle := ih hmem
        omega

theorem pairwise_number (offset : Nat) (lines : List (List Char)) :
    (number offset lines).Pairwise Precedes := by
  induction lines generalizing offset with
  | nil => exact .nil
  | cons line lines ih => exact .cons (fun u hu => Nat.lt_of_succ_le (le_offset_of_mem_number hu)) (ih _)

/-- A line of a text is a piece of it without newlines. -/
theorem exists_eq_append (h : t ∈ ofText offset text) :
    '\n' ∉ t.text ∧
      ∃ before after, text = before ++ t.text ++ after ∧ t.offset = offset + byteLength before := by
  induction text using text_induction generalizing offset with
  | single line hline =>
      rw [ofText_of_not_mem hline, List.mem_singleton] at h
      subst h
      exact ⟨hline, [], [], by simp, rfl⟩
  | cons line rest hline ih =>
      rw [ofText_append_cons hline, List.mem_cons] at h
      rcases h with rfl | hmem
      · exact ⟨hline, [], '\n' :: rest, rfl, rfl⟩
      · obtain ⟨hnewline, before, after, rfl, hoffset⟩ := ih hmem
        refine ⟨hnewline, line ++ '\n' :: before, after, by simp, ?_⟩
        have hsize : ('\n' : Char).utf8Size = 1 := by decide
        rw [hoffset, byteLength_append, byteLength, hsize]
        omega

/-- Tokens of two lines of a text have different spans. -/
theorem eq_of_span_eq (ht : t ∈ ofText offset text) (hu : u ∈ ofText offset text)
    {tokens tokens' : List Token} (htokens : t.tokens = .ok tokens) (htokens' : u.tokens = .ok tokens')
    {a b : Token} (ha : a ∈ tokens) (hb : b ∈ tokens') (h : a.span = b.span) : t = u := by
  by_contra hne
  have hapart := (List.Pairwise.imp (S := Apart) .inl
    (pairwise_number offset (text.splitOn '\n'))).forall ht hu hne
  obtain ⟨hstart, hlt, hstop⟩ := (readFrom_of_mem_tokens htokens a ha).within.inside
  obtain ⟨hstart', hlt', hstop'⟩ := (readFrom_of_mem_tokens htokens' b hb).within.inside
  rw [h] at hstart hlt hstop
  rcases hapart with hapart | hapart <;> omega

end TextLine

end BasicComputer
