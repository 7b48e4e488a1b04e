import BasicComputer.Proofs.Source.Runs

/-! # How a text is cut

The scanner cuts a text from the left. Each token has all the characters that its kind allows, so what follows
could not have been a part of it. -/

namespace BasicComputer

/-- How a text that stands behind another is cut into tokens. -/
inductive Cut : List Char → List Char → Scan → Prop
  | nil (before : List Char) : Cut before [] ⟨[], none⟩
  | unknown (before rest : List Char) {c : Char} (hc : Lead.of? c = none) :
      Cut before (c :: rest) ⟨[], some (Scan.unknownCharacter (byteLength before) c)⟩
  | label {before run rest : List Char} {s : Scan} (hrun : Lead.word.covers run = true)
      (hs : Cut (before ++ run ++ [',']) rest s) :
      Cut before (run ++ ',' :: rest)
        (s.cons ⟨.label, upperCase run, ⟨byteLength before, byteLength before + byteLength run⟩⟩)
  | token {before run rest : List Char} {lead : Lead} {s : Scan} (hrun : lead.covers run = true)
      (hstop : ∀ c ∈ rest.head?, lead.continues c = false)
      (hlabel : ¬(lead = .word ∧ rest.head? = some ',')) (hs : Cut (before ++ run) rest s) :
      Cut before (run ++ rest)
        (s.cons ⟨lead.kind (upperCase run), upperCase run,
          ⟨byteLength before, byteLength before + byteLength run⟩⟩)

theorem cut_scanFrom (offset : Nat) (text : List Char) :
    ∀ before, byteLength before = offset → Cut before text (Scan.scanFrom offset text) := by
  fun_induction Scan.scanFrom offset text with
  | case1 offset => exact fun before _ => .nil before
  | case2 offset c tail hlead =>
      rintro before rfl
      exact .unknown before tail hlead
  | case3 offset c tail lead hlead run after stop lexeme hlabel ih =>
      rintro before rfl
      obtain ⟨hword, hcomma⟩ := Bool.and_eq_true_iff.mp hlabel
      obtain rfl : lead = .word := by simpa using hword
      obtain ⟨rest, hafter⟩ := List.head?_eq_some_iff.mp (by simpa using hcomma : after.head? = some ',')
      have hsplit : run ++ ',' :: rest = c :: tail := by
        rw [← hafter]
        exact congrArg (c :: ·) List.takeWhile_append_dropWhile
      have hstop : byteLength (before ++ run ++ [',']) = stop + 1 := by
        rw [byteLength_append, byteLength_append]
        rfl
      have hcut := ih _ hstop
      rw [hafter, List.tail_cons] at hcut
      rw [hafter, List.tail_cons, ← hsplit]
      exact .label (Lead.covers_takeWhile hlead tail) hcut
  | case4 offset c tail lead hlead run after stop lexeme hlabel ih =>
      rintro before rfl
      have hsplit : run ++ after = c :: tail := congrArg (c :: ·) List.takeWhile_append_dropWhile
      have hstop : ∀ d ∈ after.head?, lead.continues d = false := by
        intro d hd
        have hnot := List.head?_dropWhile_not lead.continues tail
        rwa [show (tail.dropWhile lead.continues).head? = some d from hd] at hnot
      rw [← hsplit]
      refine .token (Lead.covers_takeWhile hlead tail) hstop ?_ (ih _ (byteLength_append before run))
      rintro ⟨rfl, hcomma⟩
      exact hlabel (by simp [hcomma])

/-- How a whole text is cut. -/
theorem cut_scan (source : String) : Cut [] source.toList (scan source) :=
  cut_scanFrom 0 source.toList [] rfl

end BasicComputer
