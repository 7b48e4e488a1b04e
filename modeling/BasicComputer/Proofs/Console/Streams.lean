import BasicComputer.Console.Panel
import BasicComputer.Proofs.Console.Plain

/-! # The two streams

What is printed for a program is added to standard output and to nothing else. What is told about the
machine never gets there. What is seen where both streams go to one terminal are the plain texts, in the
order in which they were written. -/

namespace BasicComputer

namespace Console

variable {c c' c'' : Console} {dest : Destination}

/-! ## Where texts go -/

/-- The stream that a destination's texts are written to, if they are, and whether they are made plain. -/
def outlet? : Destination → Bool → Option (Stream × Bool)
  | .program, _ => some (.output, false)
  | .always, false | .sometimes, false => some (.error, false)
  | .always, true => some (.error, true)
  | .sometimes, true => none

/-- The text as it is written. -/
def rendered (madePlain : Bool) (text : String) : String :=
  if madePlain then String.ofList (plain text.toList) else text

theorem print_eq (c : Console) (dest : Destination) (text : String) :
    c.print dest text =
      match outlet? dest c.minimal with
      | some (stream, madePlain) => c.emit stream (rendered madePlain text)
      | none => c := by
  unfold print
  cases dest <;> cases c.minimal <;> rfl

theorem plain_rendered (madePlain : Bool) (text : String) :
    plain (rendered madePlain text).toList = plain text.toList := by
  cases madePlain with
  | false => rfl
  | true =>
      rw [rendered, if_pos rfl, String.toList_ofList]
      exact plain_eq_self (not_mem_plainFrom false _)

theorem outlet?_ne_output {dest : Destination} (h : dest ≠ .program) {minimal madePlain : Bool}
    {stream : Stream} (ho : outlet? dest minimal = some (stream, madePlain)) : stream ≠ .output := by
  cases dest with
  | program => contradiction
  | always | sometimes => cases minimal <;> cases ho <;> decide

/-! ## Single texts -/

/-- What is seen of texts that have been written, on either stream. -/
def seen (entries : List (Stream × String)) : List Char := entries.flatMap fun entry => plain entry.2.toList

/-- What is seen of everything written. -/
def shown (c : Console) : List Char := seen c.written.toList

theorem shown_emit (c : Console) (stream : Stream) (text : String) :
    (c.emit stream text).shown = c.shown ++ plain text.toList := by
  simp [shown, seen, emit]

/-- What is seen of a text does not depend on the mode, unless it is dropped. -/
theorem shown_print (c : Console) (dest : Destination) (text : String) :
    (c.print dest text).shown =
      c.shown ++ if (outlet? dest c.minimal).isSome then plain text.toList else [] := by
  rw [print_eq]
  cases outlet? dest c.minimal with
  | none => simp
  | some outlet => simp [shown_emit, plain_rendered]

theorem text_emit (c : Console) (stream : Stream) (text : String) :
    (c.emit stream text).text stream = c.text stream ++ text := by
  simp [Console.text, emit]

theorem text_emit_of_ne {stream other : Stream} (h : other ≠ stream) (c : Console) (text : String) :
    (c.emit other text).text stream = c.text stream := by
  simp [Console.text, emit, h]

theorem text_announce (c : Console) (text : String) :
    (c.announce text).text .output = c.text .output ++ (text ++ "\n") := by
  simp [Console.text, announce]

theorem text_print_program (c : Console) (text : String) :
    (c.print .program text).text .output = c.text .output ++ text := by
  rw [print, text_emit]

@[simp] theorem colored_print (c : Console) (dest : Destination) (text : String) :
    (c.print dest text).colored = c.colored := by
  rw [print_eq]
  split <;> rfl

@[simp] theorem minimal_print (c : Console) (dest : Destination) (text : String) :
    (c.print dest text).minimal = c.minimal := by
  rw [print_eq]
  split <;> rfl

@[simp] theorem colored_startLine (c : Console) (dest : Destination) :
    (c.startLine dest).colored = c.colored := by
  unfold startLine
  split
  · rfl
  · exact colored_print c dest "\n"

@[simp] theorem minimal_startLine (c : Console) (dest : Destination) :
    (c.startLine dest).minimal = c.minimal := by
  unfold startLine
  split
  · rfl
  · exact minimal_print c dest "\n"

/-- A line is ended by at most a newline. -/
theorem exists_text_startLine (c : Console) :
    ∃ newline, (newline = "" ∨ newline = "\n") ∧
      (c.startLine .program).text .output = c.text .output ++ newline := by
  unfold startLine
  split
  · exact ⟨"", .inl rfl, String.append_empty.symm⟩
  · exact ⟨"\n", .inr rfl, text_print_program c "\n"⟩

/-! ## Aside of the program -/

/-- Nothing has been written to standard output, and colours are as they were. -/
structure Aside (c c' : Console) : Prop where
  output_eq : c'.text .output = c.text .output
  colored_eq : c'.colored = c.colored

theorem Aside.refl (c : Console) : c.Aside c := ⟨rfl, rfl⟩

theorem Aside.trans (h : c.Aside c') (h' : c'.Aside c'') : c.Aside c'' :=
  ⟨h'.output_eq.trans h.output_eq, h'.colored_eq.trans h.colored_eq⟩

theorem Aside.foldl {α : Type} {f : Console → α → Console} (hf : ∀ c x, Aside c (f c x)) (xs : List α)
    (c : Console) : c.Aside (xs.foldl f c) := by
  induction xs generalizing c with
  | nil => exact .refl c
  | cons x xs ih => exact (hf c x).trans (ih (f c x))

section

variable (h : dest ≠ .program)

include h

theorem aside_print (c : Console) (text : String) : c.Aside (c.print dest text) := by
  refine ⟨?_, colored_print c dest text⟩
  rw [print_eq]
  split
  next stream madePlain ho => exact text_emit_of_ne (outlet?_ne_output h ho) c _
  next => rfl

theorem aside_startLine (c : Console) : c.Aside (c.startLine dest) := by
  unfold startLine
  split
  · exact .refl c
  · exact aside_print h c "\n"

theorem aside_showRecord (c : Console) (record : Record) : c.Aside (c.showRecord dest record) :=
  (aside_startLine h c).trans (aside_print h _ _)

theorem aside_showRecords (c : Console) (records : List Record) : c.Aside (c.showRecords dest records) :=
  .foldl (aside_showRecord h) records c

theorem aside_showRegisters (c : Console) (computer : Computer) :
    c.Aside (c.showRegisters dest computer) :=
  (aside_startLine h c).trans (.foldl (fun c _ => aside_print h c _) _ _)

end

end Console

end BasicComputer
