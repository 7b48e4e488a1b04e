import BasicComputer.Proofs.Source.Cut
import BasicComputer.Proofs.Text.Case

/-! # Where tokens begin

Where a token ends, the text that was cut so far tells what cannot come next, without a look at its tokens: a
comment goes on to the end of its line, runs of blanks or of letters and digits have ended, and a word has no
comma behind it unless it is a label. -/

namespace BasicComputer

/-! ## Comments and words, read backwards -/

/-- A slash stands on the last line of the text. -/
def InComment (before : List Char) : Prop :=
  ∃ front body, before = front ++ '/' :: body ∧ '\n' ∉ body

/-- The text ends in letters and digits, of which there are no more in front, and which begin with a letter
and have no sign in front. -/
def EndsInWord (before : List Char) : Prop :=
  ∃ front c tail, before = front ++ c :: tail ∧ c.isAlpha = true ∧ (∀ d ∈ tail, d.isAlphanum = true) ∧
    ∀ d ∈ front.getLast?, d.isAlphanum = false ∧ d ≠ '+' ∧ d ≠ '-'

/-- What the end of a text that was cut into tokens tells of the beginning of the rest. -/
structure Boundary (before rest : List Char) : Prop where
  comment : InComment before → ∀ c ∈ rest.head?, c = '\n'
  gap : ∀ c ∈ rest.head?, isGap c = true → ∀ d ∈ before.getLast?, isGap d = false
  run : ∀ c ∈ rest.head?, c.isAlphanum = true →
    ∀ d ∈ before.getLast?, d.isAlphanum = false ∧ d ≠ '+' ∧ d ≠ '-'
  comma : rest.head? = some ',' → ¬EndsInWord before

theorem InComment.of_append {before run : List Char} (h : InComment (before ++ run)) (hrun : '/' ∉ run) :
    InComment before ∧ '\n' ∉ run := by
  obtain ⟨front, body, heq, hbody⟩ := h
  rcases List.append_eq_append_iff.mp heq with ⟨middle, -, rfl⟩ | ⟨middle, rfl, hmiddle⟩
  · exact absurd (List.mem_append_right _ List.mem_cons_self) hrun
  · cases middle with
    | nil =>
        rw [List.nil_append] at hmiddle
        exact absurd (hmiddle ▸ List.mem_cons_self) hrun
    | cons c middle =>
        rw [List.cons_append] at hmiddle
        obtain ⟨rfl, rfl⟩ := List.cons.inj hmiddle
        rw [List.mem_append, not_or] at hbody
        exact ⟨⟨front, middle, rfl, hbody.1⟩, hbody.2⟩

/-- A text that is not empty ends in its own last character, whatever stands in front of it. -/
theorem exists_getLast? (before : List Char) {run : List Char} (h : run ≠ []) :
    ∃ d ∈ run, (before ++ run).getLast? = some d := by
  refine ⟨run.getLast h, List.getLast_mem h, ?_⟩
  rw [List.getLast?_append_of_ne_nil _ h, List.getLast?_eq_some_getLast h]

theorem forall_getLast? {p : Char → Prop} (before : List Char) {run : List Char} (h : run ≠ [])
    (hp : ∀ d ∈ run, p d) : ∀ d ∈ (before ++ run).getLast?, p d := by
  intro e he
  obtain ⟨d, hd, hlast⟩ := exists_getLast? before h
  obtain rfl := Option.some.inj (hlast.symm.trans he)
  exact hp d hd

/-- There is only one way to split a text before the letters and digits at its end. -/
theorem front_unique {front run front' run' : List Char} (h : front ++ run = front' ++ run')
    (hrun : ∀ c ∈ run, c.isAlphanum = true) (hrun' : ∀ c ∈ run', c.isAlphanum = true)
    (hfront : ∀ c ∈ front.getLast?, c.isAlphanum = false)
    (hfront' : ∀ c ∈ front'.getLast?, c.isAlphanum = false) : front = front' ∧ run = run' := by
  have hempty {a b : List Char} (hb : ∀ c ∈ b, c.isAlphanum = true)
      (ha : ∀ c ∈ (a ++ b).getLast?, c.isAlphanum = false) : b = [] := by
    by_contra hne
    obtain ⟨d, hd, hlast⟩ := exists_getLast? a hne
    exact absurd (hb d hd) (by simp [ha d hlast])
  rcases List.append_eq_append_iff.mp h with ⟨middle, rfl, rfl⟩ | ⟨middle, rfl, rfl⟩
  · obtain rfl := hempty (fun c hc => hrun c (List.mem_append_left _ hc)) hfront'
    simp
  · obtain rfl := hempty (fun c hc => hrun' c (List.mem_append_left _ hc)) hfront
    simp

theorem not_endsInWord {before : List Char} (h : ∀ d ∈ before.getLast?, d.isAlphanum = false) :
    ¬EndsInWord before := by
  rintro ⟨front, c, tail, rfl, hc, htail, -⟩
  obtain ⟨d, hd, hlast⟩ := exists_getLast? front (List.cons_ne_nil c tail)
  have halphanum : d.isAlphanum = true := by
    rcases List.mem_cons.mp hd with rfl | hd
    · simp [Char.isAlphanum, hc]
    · exact htail d hd
  exact absurd halphanum (by simp [h d hlast])

/-- A number may end in letters, but what ends there is no word. -/
theorem not_endsInWord_of_number {before run : List Char} (hrun : Lead.number.covers run = true)
    (hbefore : ∀ c ∈ run.head?, c.isAlphanum = true → ∀ d ∈ before.getLast?, d.isAlphanum = false) :
    ¬EndsInWord (before ++ run) := by
  obtain ⟨c, tail, rfl, hc, htail⟩ := Lead.exists_of_covers hrun
  rintro ⟨front, d, tail', heq, hd, htail', hfront⟩
  have hword : ∀ x ∈ d :: tail', x.isAlphanum = true :=
    List.forall_mem_cons.mpr ⟨by simp [Char.isAlphanum, hd], htail'⟩
  have hsign : c.isDigit = false → c = '+' ∨ c = '-' := by
    have hbegins := Lead.begins_of_eq_some hc
    simp only [Lead.begins] at hbegins
    grind
  cases hdigit : c.isDigit with
  | true =>
      -- The run of letters and digits is the number itself, and begins with its digit.
      have hrun : ∀ x ∈ c :: tail, x.isAlphanum = true :=
        List.forall_mem_cons.mpr ⟨by simp [Char.isAlphanum, hdigit], htail⟩
      obtain ⟨-, hcons⟩ := front_unique heq hrun hword (hbefore c rfl (hrun c List.mem_cons_self))
        fun x hx => (hfront x hx).1
      obtain ⟨rfl, -⟩ := List.cons.inj hcons
      exact absurd hd (by simp [isAlpha_eq_false_of_isDigit hdigit])
  | false =>
      have hnot : c.isAlphanum = false := by
        rcases hsign hdigit with rfl | rfl <;> decide
      rw [← List.singleton_append, ← List.append_assoc] at heq
      obtain ⟨rfl, -⟩ := front_unique heq htail hword (by simpa using hnot) fun x hx => (hfront x hx).1
      have hlast := hfront c (by simp)
      rcases hsign hdigit with rfl | rfl
      · exact hlast.2.1 rfl
      · exact hlast.2.2 rfl

namespace Boundary

variable {before run rest : List Char}

theorem nil (text : List Char) : Boundary [] text where
  comment := by
    rintro ⟨front, body, heq, -⟩
    simp at heq
  gap := by simp
  run := by simp
  comma _ := not_endsInWord (by simp)

/-- Where a line ends, nothing else can begin. -/
theorem of_newline (before : List Char) (h : ∀ c ∈ rest.head?, c = '\n') : Boundary before rest where
  comment _ := h
  gap c hc hgap := by
    obtain rfl := h c hc
    cases hgap
  run c hc hrun := by
    obtain rfl := h c hc
    cases hrun
  comma hcomma := absurd (h _ hcomma) (by decide)

/-- No token but a newline begins in a comment. -/
theorem not_inComment (hb : Boundary before (run ++ rest)) {lead : Lead} (hlead : lead ≠ .newline)
    (hrun : lead.covers run = true) : ¬InComment before := by
  intro hcomment
  obtain ⟨c, tail, rfl, hc, -⟩ := Lead.exists_of_covers hrun
  obtain rfl := hb.comment hcomment c rfl
  exact hlead (Option.some.inj hc.symm)

/-- Behind a token that is not a comment, a comment goes on only if the token stands in one. -/
theorem not_inComment_append (hb : Boundary before (run ++ rest)) {lead : Lead}
    (hcomment : lead ≠ .comment) (hrun : lead.covers run = true) : ¬InComment (before ++ run) := by
  intro h
  obtain ⟨hbefore, hnewline⟩ := h.of_append (Lead.slash_not_mem hcomment hrun)
  by_cases hlead : lead = .newline
  · obtain ⟨c, tail, rfl, hc, -⟩ := Lead.exists_of_covers hrun
    subst hlead
    have hbegins := Lead.begins_of_eq_some hc
    rw [Lead.begins, beq_iff_eq] at hbegins
    exact hnewline (hbegins ▸ List.mem_cons_self)
  · exact hb.not_inComment hlead hrun hbefore

/-- What begins behind a token whose characters are neither letters nor digits nor signs. -/
theorem of_forall (hcomment : ¬InComment (before ++ run)) (hne : run ≠ [])
    (hgap : ∀ c ∈ rest.head?, isGap c = true → ∀ d ∈ run, isGap d = false)
    (hrun : ∀ d ∈ run, d.isAlphanum = false ∧ d ≠ '+' ∧ d ≠ '-') : Boundary (before ++ run) rest := by
  refine ⟨fun h => absurd h hcomment, ?_, ?_, fun _ => not_endsInWord ?_⟩
  · exact fun c hc hcgap => forall_getLast? before hne (hgap c hc hcgap)
  · exact fun c _ _ => forall_getLast? before hne hrun
  · exact forall_getLast? before hne fun d hd => (hrun d hd).1

theorem gap_ne {c : Char} (h : isGap c = true) : c.isAlphanum = false ∧ c ≠ '+' ∧ c ≠ '-' := by
  simp only [isGap, Bool.or_eq_true, beq_iff_eq] at h
  rcases h with (rfl | rfl) | rfl <;> decide

theorem isGap_eq_false {c : Char} (h : c.isAlphanum = true ∨ c = '+' ∨ c = '-') : isGap c = false := by
  by_contra hgap
  have hne := gap_ne (by simpa using hgap)
  rcases h with h | h | h
  · exact absurd h (by simp [hne.1])
  · exact hne.2.1 h
  · exact hne.2.2 h

/-- Behind a token that the rest does not go on with. -/
theorem token {lead : Lead} (hb : Boundary before (run ++ rest)) (hrun : lead.covers run = true)
    (hstop : ∀ c ∈ rest.head?, lead.continues c = false)
    (hlabel : ¬(lead = .word ∧ rest.head? = some ',')) : Boundary (before ++ run) rest := by
  have hne := Lead.ne_nil_of_covers hrun
  cases lead with
  | comment => exact of_newline _ fun c hc => by simpa [Lead.continues] using hstop c hc
  | newline =>
      have hnewline : ∀ c ∈ run, c = '\n' :=
        Lead.forall_of_covers hrun (by simp [Lead.begins]) (by simp [Lead.continues])
      refine of_forall (hb.not_inComment_append (by decide) hrun) hne ?_ ?_
      · intro c _ _ d hd
        obtain rfl := hnewline d hd
        rfl
      · intro d hd
        obtain rfl := hnewline d hd
        decide
  | gap =>
      refine of_forall (hb.not_inComment_append (by decide) hrun) hne ?_ ?_
      · exact fun c hc hgap => absurd hgap (by simp [show isGap c = false from hstop c hc])
      · exact fun d hd => gap_ne (Lead.isGap_of_covers hrun d hd)
  | number =>
      have hgap : ∀ c ∈ run, isGap c = false := by
        refine Lead.forall_of_covers hrun ?_ fun c hc => isGap_eq_false (.inl hc)
        intro c hc
        refine isGap_eq_false ?_
        simp only [Lead.begins, Bool.or_eq_true, beq_iff_eq] at hc
        simp only [Char.isAlphanum, Bool.or_eq_true]
        tauto
      refine ⟨fun h => absurd h (hb.not_inComment_append (by decide) hrun), ?_, ?_, ?_⟩
      · exact fun c _ _ => forall_getLast? before hne hgap
      · exact fun c hc hcrun => absurd hcrun (by simp [show c.isAlphanum = false from hstop c hc])
      · intro _
        refine not_endsInWord_of_number hrun ?_
        intro c hc hcrun d hd
        have hhead : c ∈ (run ++ rest).head? := by
          rw [List.head?_append_of_ne_nil _ hne]
          exact hc
        exact (hb.run c hhead hcrun d hd).1
  | word =>
      have hgap : ∀ d ∈ run, isGap d = false :=
        fun d hd => isGap_eq_false (.inl (Lead.isAlphanum_of_covers hrun d hd))
      refine ⟨fun h => absurd h (hb.not_inComment_append (by decide) hrun), ?_, ?_, ?_⟩
      · exact fun c _ _ => forall_getLast? before hne hgap
      · exact fun c hc hcrun => absurd hcrun (by simp [show c.isAlphanum = false from hstop c hc])
      · exact fun hcomma => absurd ⟨rfl, hcomma⟩ hlabel

/-- Behind a label and its comma. -/
theorem label (hb : Boundary before (run ++ ',' :: rest)) (hrun : Lead.word.covers run = true) :
    Boundary (before ++ run ++ [',']) rest := by
  refine of_forall ?_ (List.cons_ne_nil _ _) ?_ ?_
  · intro h
    exact hb.not_inComment_append (by decide) hrun (h.of_append (by decide)).1
  · intro c _ _ d hd
    obtain rfl := List.mem_singleton.mp hd
    rfl
  · intro d hd
    obtain rfl := List.mem_singleton.mp hd
    decide

end Boundary

end BasicComputer
