import BasicComputer.Proofs.Source.Lines

/-! # The characters of a token

The first character of a token says what kind it is, and which characters go on with it. A token is as long as it
can be, and so it ends where its run of characters ends. -/

namespace BasicComputer

/-! ## Runs -/

section

variable {p : Char → Bool} {run rest : List Char} (hrun : ∀ c ∈ run, p c = true)
  (hstop : ∀ c ∈ rest.head?, p c = false)
include hrun hstop

theorem takeWhile_append_of_stop : (run ++ rest).takeWhile p = run := by
  rw [List.takeWhile_append_of_pos hrun]
  cases rest with
  | nil => simp
  | cons c rest => rw [List.takeWhile_cons_of_neg (by simp [hstop c rfl]), List.append_nil]

theorem dropWhile_append_of_stop : (run ++ rest).dropWhile p = rest := by
  rw [List.dropWhile_append_of_pos hrun]
  cases rest with
  | nil => rfl
  | cons c rest => exact List.dropWhile_cons_of_neg (by simp [hstop c rfl])

end

/-! ## Tokens -/

namespace Lead

/-- The whole text is one token of this kind. -/
def covers (lead : Lead) : List Char → Bool
  | [] => false
  | c :: run => Lead.of? c == some lead && run.all lead.continues

/-- Whether a token of this kind begins with the character. -/
def begins : Lead → Char → Bool
  | comment, c => c == '/'
  | newline, c => c == '\n'
  | gap, c => isGap c
  | number, c => c == '+' || c == '-' || c.isDigit
  | word, c => c.isAlpha

variable {lead : Lead} {c : Char} {run : List Char}

theorem begins_of_eq_some (h : of? c = some lead) : lead.begins c = true := by
  unfold of? at h
  cases lead <;> simp only [begins] <;> grind

theorem of?_of_isGap (h : isGap c = true) : of? c = some .gap := by
  simp only [isGap, Bool.or_eq_true, beq_iff_eq] at h
  rcases h with (rfl | rfl) | rfl <;> decide

theorem covers_takeWhile (h : of? c = some lead) (text : List Char) :
    lead.covers (c :: text.takeWhile lead.continues) = true := by
  rw [covers, Bool.and_eq_true, beq_iff_eq]
  exact ⟨h, List.all_takeWhile⟩

theorem exists_of_covers (h : lead.covers run = true) :
    ∃ c tail, run = c :: tail ∧ of? c = some lead ∧ ∀ d ∈ tail, lead.continues d = true := by
  cases run with
  | nil => cases h
  | cons c tail =>
      rw [covers, Bool.and_eq_true, beq_iff_eq, List.all_eq_true] at h
      exact ⟨c, tail, rfl, h.1, h.2⟩

theorem ne_nil_of_covers (h : lead.covers run = true) : run ≠ [] := by
  rintro rfl
  cases h

/-- A character of a token begins it or goes on with it. -/
theorem forall_of_covers {p : Char → Prop} (h : lead.covers run = true)
    (hbegins : ∀ c, lead.begins c = true → p c) (hcontinues : ∀ c, lead.continues c = true → p c) :
    ∀ c ∈ run, p c := by
  obtain ⟨c, tail, rfl, hc, htail⟩ := exists_of_covers h
  refine List.forall_mem_cons.mpr ⟨hbegins c (begins_of_eq_some hc), ?_⟩
  exact fun d hd => hcontinues d (htail d hd)

theorem isGap_of_covers (h : Lead.gap.covers run = true) : ∀ c ∈ run, isGap c = true :=
  forall_of_covers h (fun _ hc => hc) fun _ hc => hc

theorem isAlphanum_of_covers (h : Lead.word.covers run = true) : ∀ c ∈ run, c.isAlphanum = true :=
  forall_of_covers h (fun c (hc : c.isAlpha = true) => by simp [Char.isAlphanum, hc]) fun _ hc => hc

theorem not_mem_of_covers (hbegins : lead.begins c = false) (hcontinues : lead.continues c = false)
    (h : lead.covers run = true) : c ∉ run := by
  have hne : ∀ d ∈ run, d ≠ c := by
    refine forall_of_covers h ?_ ?_
    · rintro d hd rfl
      cases hd.symm.trans hbegins
    · rintro d hd rfl
      cases hd.symm.trans hcontinues
  exact fun hmem => hne c hmem rfl

theorem newline_not_mem (hlead : lead ≠ .newline) (h : lead.covers run = true) : '\n' ∉ run := by
  refine not_mem_of_covers ?_ (Scan.continues_newline lead) h
  cases lead with
  | newline => exact absurd rfl hlead
  | comment | gap | number | word => decide

theorem slash_not_mem (hlead : lead ≠ .comment) (h : lead.covers run = true) : '/' ∉ run := by
  cases lead with
  | comment => exact absurd rfl hlead
  | newline | gap | number | word => exact not_mem_of_covers (by decide) (by decide) h

theorem stops_at_comma (rest : List Char) : ∀ c ∈ (',' :: rest).head?, Lead.word.continues c = false := by
  intro c hc
  obtain rfl := Option.some.inj hc
  rfl

theorem kind_ne_label (lead : Lead) (lexeme : String) : lead.kind lexeme ≠ .label := by
  cases lead with
  | word =>
      rw [kind, TokenKind.ofWord]
      split <;> simp
  | comment | newline | gap | number => simp [kind]

end Lead

end BasicComputer
