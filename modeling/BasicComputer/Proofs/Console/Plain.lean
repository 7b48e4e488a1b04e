import BasicComputer.Console.Plain

/-! # Escape sequences and joined texts

A text is closed when no escape sequence is under way at its end. What stands behind a closed text is plain
or not on its own account, and behind no other text is that always so. The plain characters may as well be
drawn from a text one by one. -/

namespace BasicComputer

/-- Whether an escape sequence is under way behind a text; the flag tells whether one is in front of it. -/
def insideAfter : Bool → List Char → Bool
  | inside, [] => inside
  | true, c :: rest => insideAfter (c != 'm') rest
  | false, c :: rest => insideAfter (c == '\x1b') rest

theorem plainFrom_append (inside : Bool) (text more : List Char) :
    plainFrom inside (text ++ more) = plainFrom inside text ++ plainFrom (insideAfter inside text) more := by
  fun_induction plainFrom inside text with
  | case1 inside => rfl
  | case2 c rest ih => simp [plainFrom, insideAfter, ih]
  | case3 rest ih => simp [plainFrom, insideAfter, ih]
  | case4 c rest hc ih =>
      have hclear : (c == '\x1b') = false := beq_false_of_ne hc
      simp [plainFrom, insideAfter, ih, hc, hclear]

theorem insideAfter_append (inside : Bool) (text more : List Char) :
    insideAfter inside (text ++ more) = insideAfter (insideAfter inside text) more := by
  fun_induction insideAfter inside text with
  | case1 inside => rfl
  | case2 c rest ih => exact ih
  | case3 c rest ih => exact ih

/-- No escape sequence is under way at the end of the text. -/
def Closed (text : String) : Prop := insideAfter false text.toList = false

instance (text : String) : Decidable (Closed text) := inferInstanceAs (Decidable (_ = _))

theorem plain_append {text : String} (h : Closed text) (more : List Char) :
    plain (text.toList ++ more) = plain text.toList ++ plain more := by
  have hclosed : insideAfter false text.toList = false := h
  rw [plain, plainFrom_append, hclosed]
  rfl

theorem Closed.append {text more : String} (h : Closed text) (h' : Closed more) : Closed (text ++ more) := by
  have hclosed : insideAfter false text.toList = false := h
  rw [Closed, String.toList_append, insideAfter_append, hclosed]
  exact h'

theorem closed_of_not_mem {text : String} (h : '\x1b' ∉ text.toList) : Closed text := by
  unfold Closed
  generalize text.toList = characters at h
  induction characters with
  | nil => rfl
  | cons c rest ih =>
      obtain ⟨hc, hrest⟩ : '\x1b' ≠ c ∧ '\x1b' ∉ rest := by simpa using h
      have hclear : (c == '\x1b') = false := beq_false_of_ne (Ne.symm hc)
      rw [insideAfter, hclear]
      exact ih hrest

/-! ## Sequences with an end -/

/-- Every ESC character has a letter m behind it. -/
def EscapesEnd (text : List Char) : Prop :=
  ∀ before after, text = before ++ '\x1b' :: after → 'm' ∈ after

theorem escapesEnd_nil : EscapesEnd [] := by
  intro before after h
  simp at h

theorem escapesEnd_cons {c : Char} {rest : List Char} :
    EscapesEnd (c :: rest) ↔ (c = '\x1b' → 'm' ∈ rest) ∧ EscapesEnd rest := by
  constructor
  · intro h
    refine ⟨?_, ?_⟩
    · intro hc
      exact h [] rest (by rw [hc, List.nil_append])
    · intro before after hrest
      exact h (c :: before) after (by rw [hrest, List.cons_append])
  · intro h before after htext
    cases before with
    | nil =>
        obtain ⟨hc, hrest⟩ := List.cons.inj htext
        exact hrest ▸ h.1 hc
    | cons d before => exact h.2 before after (List.cons.inj htext).2

theorem insideAfter_eq_false_iff (inside : Bool) (text : List Char) :
    insideAfter inside text = false ↔ (inside = true → 'm' ∈ text) ∧ EscapesEnd text := by
  fun_induction insideAfter inside text with
  | case1 inside => cases inside <;> simp [escapesEnd_nil]
  | case2 c rest ih =>
      rw [ih, escapesEnd_cons]
      by_cases hc : c = 'm'
      · simp [hc]
      · simp +contextual [hc, Ne.symm hc]
  | case3 c rest ih => simp [ih, escapesEnd_cons]

/-- A text never bears on what is plain behind it exactly if all its sequences end in it. -/
theorem escapesEnd_iff_plain_append (left : List Char) :
    EscapesEnd left ↔ ∀ right, plain (left ++ right) = plain left ++ plain right := by
  have hinside : insideAfter false left = false ↔ EscapesEnd left := by
    simp [insideAfter_eq_false_iff]
  have hplain (right : List Char) :
      plain (left ++ right) = plain left ++ plainFrom (insideAfter false left) right :=
    plainFrom_append false left right
  constructor
  · intro h right
    rw [hplain, hinside.mpr h]
    rfl
  · intro h
    -- A letter m behind the text is plain unless it ends a sequence that began in the text.
    have hletter := h ['m']
    rw [hplain, List.append_cancel_left_eq] at hletter
    cases hlast : insideAfter false left with
    | false => exact hinside.mp hlast
    | true =>
        rw [hlast] at hletter
        exact absurd hletter (by decide)

/-! ## Characters drawn one by one

Each draw skips the sequences in front of the next plain character, and leaves the text behind it to the
draws that follow. -/

/-- What stands behind the sequence that is under way: the text behind its letter m. -/
def behindSequence (text : List Char) : List Char := (text.dropWhile (· != 'm')).tail

theorem length_behindSequence_le (text : List Char) : (behindSequence text).length ≤ text.length := by
  have hdrop : (text.dropWhile (· != 'm')).length ≤ text.length := (List.dropWhile_sublist _).length_le
  rw [behindSequence, List.length_tail]
  omega

/-- The next plain character, and the text behind it. -/
def nextPlain? : List Char → Option (Char × List Char)
  | [] => none
  | c :: rest => if c = '\x1b' then nextPlain? (behindSequence rest) else some (c, rest)
termination_by text => text.length
decreasing_by exact Nat.lt_succ_of_le (length_behindSequence_le rest)

theorem length_lt_of_nextPlain? {text rest : List Char} {c : Char} (h : nextPlain? text = some (c, rest)) :
    rest.length < text.length := by
  fun_induction nextPlain? text with
  | case1 => cases h
  | case2 behind ih =>
      exact Nat.lt_succ_of_lt (Nat.lt_of_lt_of_le (ih h) (length_behindSequence_le behind))
  | case3 d behind hd =>
      cases h
      exact Nat.lt_succ_self _

/-- The plain characters of a text, drawn until none is left. -/
def drawPlain (text : List Char) : List Char :=
  match _h : nextPlain? text with
  | none => []
  | some (c, rest) => c :: drawPlain rest
termination_by text.length
decreasing_by exact length_lt_of_nextPlain? _h

theorem plainFrom_true (text : List Char) : plainFrom true text = plain (behindSequence text) := by
  induction text with
  | nil => rfl
  | cons c rest ih =>
      by_cases h : c = 'm'
      · subst h
        rfl
      · have hskip : behindSequence (c :: rest) = behindSequence rest := by simp [behindSequence, h]
        rw [plainFrom, bne_iff_ne.mpr h, hskip, ih]

theorem plain_eq_nextPlain? (text : List Char) :
    plain text =
      match nextPlain? text with
      | none => []
      | some (c, rest) => c :: plain rest := by
  fun_induction nextPlain? text with
  | case1 => rfl
  | case2 rest ih =>
      rw [← ih, ← plainFrom_true]
      rfl
  | case3 c rest hc =>
      rw [plain, plainFrom, if_neg hc]
      rfl

/-- Drawn one by one, the plain characters are those of the whole text. -/
theorem drawPlain_eq_plain (text : List Char) : drawPlain text = plain text := by
  fun_induction drawPlain text with
  | case1 text h => rw [plain_eq_nextPlain?, h]
  | case2 text c rest h ih => rw [plain_eq_nextPlain?, h, ih]

end BasicComputer
