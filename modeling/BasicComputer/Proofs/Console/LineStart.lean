import BasicComputer.Proofs.Console.Pieces

/-! # Beginnings of lines

The console's flag tells whether what is seen of both streams is at the beginning of a line, whatever has
been asked of the console before, in whichever modes and for whichever destinations. So records and the
register panel begin on lines of their own. -/

namespace BasicComputer

/-- Nothing is seen yet, or what is seen ends with a newline. -/
def AtLineStart (view : List Char) : Prop := view = [] ∨ view.getLast? = some '\n'

namespace Console

/-- What may be asked of a console. -/
inductive Request
  | minimal (on : Bool)
  | print (dest : Destination) (text : String)
  | startLine (dest : Destination)
  | line (dest : Destination) (text : String)
  | record (dest : Destination) (record : Record)
  | records (dest : Destination) (records : List Record)
  | word (dest : Destination) (w : Word)
  | registers (dest : Destination) (c : Computer)

def perform (c : Console) : Request → Console
  | .minimal on => { c with minimal := on }
  | .print dest text => c.print dest text
  | .startLine dest => c.startLine dest
  | .line dest text => c.printLine dest text
  | .record dest record => c.showRecord dest record
  | .records dest records => c.showRecords dest records
  | .word dest w => c.showWord dest w
  | .registers dest computer => c.showRegisters dest computer

/-- Does what is asked, but words and the register panel are printed cell by cell. -/
def performPieces (c : Console) : Request → Console
  | .word dest w => c.showWordPieces dest w
  | .registers dest computer => c.showRegisterPieces dest computer
  | request => c.perform request

/-- The flag tells whether a line is just beginning. -/
def Tracks (c : Console) : Prop := c.lineStart = true ↔ AtLineStart c.shown

variable {c : Console} {dest : Destination}

/-! ## One text -/

theorem Tracks.emit (h : c.Tracks) (stream : Stream) (text : String) : (c.emit stream text).Tracks := by
  unfold Tracks AtLineStart at h ⊢
  change lineStartAfter c.lineStart text.toList = true ↔ _
  rw [shown_emit, lineStartAfter, List.getLast?_append]
  cases hlast : (plain text.toList).getLast? with
  | none =>
      rw [List.getLast?_eq_none_iff] at hlast
      simpa [hlast] using h
  | some last =>
      have hne : plain text.toList ≠ [] := by
        rintro hnil
        rw [hnil] at hlast
        cases hlast
      simp [hne]

theorem Tracks.print (h : c.Tracks) (dest : Destination) (text : String) : (c.print dest text).Tracks := by
  rw [print_eq]
  split
  · exact h.emit _ _
  · exact h

theorem Tracks.startLine (h : c.Tracks) (dest : Destination) : (c.startLine dest).Tracks := by
  unfold Console.startLine
  split
  · exact h
  · exact h.print dest "\n"

theorem Tracks.foldl {α : Type} {f : Console → α → Console} (hf : ∀ c x, Tracks c → Tracks (f c x))
    (h : c.Tracks) (xs : List α) : (xs.foldl f c).Tracks := by
  induction xs generalizing c with
  | nil => exact h
  | cons x xs ih => exact ih (hf c x h)

theorem Tracks.showRecord (h : c.Tracks) (dest : Destination) (record : Record) :
    (c.showRecord dest record).Tracks :=
  (h.startLine dest).print dest _

/-- Every request keeps track. -/
theorem Tracks.perform (h : c.Tracks) (request : Request) : (c.perform request).Tracks := by
  cases request with
  | minimal on => exact h
  | print dest text => exact h.print dest text
  | startLine dest => exact h.startLine dest
  | line dest text => exact h.print dest _
  | record dest record => exact h.showRecord dest record
  | records dest records => exact .foldl (fun _ record hc => hc.showRecord dest record) h records
  | word dest w => exact h.print dest _
  | registers dest computer =>
      exact .foldl (fun _ row hc => hc.print dest _) (h.startLine dest) (Panel.rows c.minimal computer)

theorem Tracks.performPieces (h : c.Tracks) (request : Request) : (c.performPieces request).Tracks := by
  cases request with
  | word dest w =>
      change (c.showWordPieces dest w).Tracks
      unfold showWordPieces
      split
      · exact h.print dest _
      · exact .foldl (fun _ piece hc => hc.print dest piece) h _
  | registers dest computer =>
      exact .foldl (fun _ piece hc => hc.print dest piece) (h.startLine dest) _
  | _ => exact h.perform _

theorem tracks_initial (colored : Bool) : (initial colored).Tracks := iff_of_true rfl (.inl rfl)

/-! ## The same in pieces -/

theorem SameView.startLine {c' : Console} (h : c.SameView c') (dest : Destination) :
    (c.startLine dest).SameView (c'.startLine dest) := by
  unfold Console.startLine
  rw [h.lineStart_eq]
  split
  · exact h
  · exact h.print dest "\n"

theorem SameView.showRecord {c' : Console} (h : c.SameView c') (dest : Destination) (record : Record) :
    (c.showRecord dest record).SameView (c'.showRecord dest record) := by
  unfold Console.showRecord showRecordBy printLine
  rw [h.colored_eq]
  exact (h.startLine dest).print dest _

theorem SameView.perform {c' : Console} (h : c.SameView c') (request : Request) :
    (c.perform request).SameView (c'.perform request) := by
  cases request with
  | minimal on => exact ⟨rfl, h.colored_eq, h.lineStart_eq, h.text_eq, h.shown_eq⟩
  | print dest text => exact h.print dest text
  | startLine dest => exact h.startLine dest
  | line dest text => exact h.print dest _
  | record dest record => exact h.showRecord dest record
  | records dest records => exact .foldl (fun record hc => hc.showRecord dest record) h records
  | word dest w =>
      change (c.showWord dest w).SameView (c'.showWord dest w)
      unfold showWord
      rw [h.minimal_eq]
      exact h.print dest _
  | registers dest computer =>
      change (c.showRegisters dest computer).SameView (c'.showRegisters dest computer)
      unfold showRegisters
      rw [h.minimal_eq]
      refine .foldl ?_ (h.startLine dest) _
      exact fun row hc => hc.print dest (row ++ "\n")

/-- Requests carried out in pieces look like requests carried out at once. -/
theorem SameView.performPieces {c' : Console} (h : c.SameView c') (request : Request) :
    (c.performPieces request).SameView (c'.perform request) := by
  cases request with
  | word dest w => exact (sameView_showWordPieces c dest w).trans (h.perform (.word dest w))
  | registers dest computer =>
      exact (sameView_showRegisterPieces c dest computer).trans (h.perform (.registers dest computer))
  | minimal on => exact h.perform (.minimal on)
  | print dest text => exact h.perform (.print dest text)
  | startLine dest => exact h.perform (.startLine dest)
  | line dest text => exact h.perform (.line dest text)
  | record dest record => exact h.perform (.record dest record)
  | records dest records => exact h.perform (.records dest records)

/-! ## Lines of their own -/

/-- The texts are dropped, or they are written from the beginning of a line on, which is reached by a newline
at most. -/
inductive OwnLines (c : Console) (dest : Destination) (texts : List String) (c' : Console) : Prop
  | dropped (ho : outlet? dest c.minimal = none) (hw : c'.written = c.written)
  | written {stream : Stream} {madePlain : Bool} {lead : List (Stream × String)}
      (ho : outlet? dest c.minimal = some (stream, madePlain))
      (hlead : lead = [] ∨ lead = [(stream, "\n")]) (hstart : AtLineStart (seen (c.written.toList ++ lead)))
      (hw : c'.written.toList =
        c.written.toList ++ lead ++ texts.map fun text => (stream, rendered madePlain text))

section

variable (ho : outlet? dest c.minimal = none)

include ho

theorem print_of_dropped (text : String) : c.print dest text = c := by
  rw [print_eq, ho]

theorem startLine_of_dropped : c.startLine dest = c := by
  rw [startLine, print_of_dropped ho]
  exact ite_self c

theorem foldl_print_of_dropped (texts : List String) : texts.foldl (·.print dest ·) c = c := by
  induction texts with
  | nil => rfl
  | cons text texts ih => rw [List.foldl_cons, print_of_dropped ho, ih]

end

section

variable {stream : Stream} {madePlain : Bool} (ho : outlet? dest c.minimal = some (stream, madePlain))

include ho

theorem print_of_written (text : String) :
    c.print dest text = c.emit stream (rendered madePlain text) := by
  rw [print_eq, ho]

theorem startLine_of_written :
    ∃ lead, (lead = [] ∨ lead = [(stream, "\n")]) ∧
      (c.startLine dest).written.toList = c.written.toList ++ lead ∧
      (c.startLine dest).lineStart = true := by
  unfold startLine
  split
  next h => exact ⟨[], .inl rfl, by simp, h⟩
  next =>
    have hnewline : rendered madePlain "\n" = "\n" := by cases madePlain <;> decide
    rw [print_of_written ho, hnewline]
    exact ⟨_, .inr rfl, by simp [emit], rfl⟩

theorem written_foldl_print (texts : List String) :
    (texts.foldl (·.print dest ·) c).written.toList =
      c.written.toList ++ texts.map fun text => (stream, rendered madePlain text) := by
  induction texts generalizing c with
  | nil => simp
  | cons text texts ih =>
      rw [List.foldl_cons, ih (by rwa [minimal_print]), print_of_written ho]
      simp [emit]

end

/-- What is printed behind the beginning of a line is on lines of its own. -/
theorem Tracks.ownLines (h : c.Tracks) (dest : Destination) (texts : List String) :
    c.OwnLines dest texts (texts.foldl (·.print dest ·) (c.startLine dest)) := by
  cases ho : outlet? dest c.minimal with
  | none =>
      rw [startLine_of_dropped ho, foldl_print_of_dropped ho]
      exact .dropped ho rfl
  | some outlet =>
      obtain ⟨stream, madePlain⟩ := outlet
      obtain ⟨lead, hlead, hwritten, hstart⟩ := startLine_of_written ho
      refine .written ho hlead ?_ ?_
      · rw [← hwritten]
        exact (h.startLine dest).mp hstart
      · rw [← hwritten]
        exact written_foldl_print (by rwa [minimal_startLine]) texts

/-- A line that has been ended is not ended again. -/
theorem startLine_startLine (c : Console) (dest : Destination) :
    (c.startLine dest).startLine dest = c.startLine dest := by
  cases ho : outlet? dest c.minimal with
  | none => rw [startLine_of_dropped ho, startLine_of_dropped ho]
  | some outlet =>
      obtain ⟨-, -, -, hstart⟩ := startLine_of_written ho
      rw [startLine, if_pos hstart]

/-- At most a newline is needed to end a line. -/
theorem exists_written_startLine (c : Console) (dest : Destination) :
    ∃ lead, (c.startLine dest).written.toList = c.written.toList ++ lead ∧
      (lead = [] ∨ ∃ stream, lead = [(stream, "\n")]) := by
  cases ho : outlet? dest c.minimal with
  | none => exact ⟨[], by simp [startLine_of_dropped ho], .inl rfl⟩
  | some outlet =>
      obtain ⟨lead, hlead, hwritten, -⟩ := startLine_of_written ho
      exact ⟨lead, hwritten, hlead.imp_right fun h => ⟨_, h⟩⟩

theorem colored_showRecords (c : Console) (dest : Destination) (records : List Record) :
    (c.showRecords dest records).colored = c.colored := by
  unfold showRecords
  induction records generalizing c with
  | nil => rfl
  | cons record records ih =>
      rw [List.foldl_cons, ih, showRecord, showRecordBy, printLine, colored_print, colored_startLine]

/-- What the flag of a console is for. -/
structure LineStarts (c : Console) : Prop where
  flag : c.lineStart = true ↔ AtLineStart c.shown
  print : ∀ dest text, (c.print dest text).shown =
    c.shown ++ if (outlet? dest c.minimal).isSome then plain text.toList else []
  once : ∀ dest, ∃ lead, (c.startLine dest).written.toList = c.written.toList ++ lead ∧
    (lead = [] ∨ ∃ stream, lead = [(stream, "\n")])
  again : ∀ dest, (c.startLine dest).startLine dest = c.startLine dest
  record : ∀ dest record, c.OwnLines dest [record.line c.colored ++ "\n"] (c.showRecord dest record)
  records : ∀ dest before record, (c.showRecords dest before).OwnLines dest
    [record.line c.colored ++ "\n"] (c.showRecords dest (before ++ [record]))
  registers : ∀ dest computer, c.OwnLines dest ((Panel.rows c.minimal computer).map (· ++ "\n"))
    (c.showRegisters dest computer)
  registerPieces : ∀ dest computer, c.OwnLines dest (Panel.rowPieces c.minimal computer).flatten
    (c.showRegisterPieces dest computer)

theorem Tracks.lineStarts (h : c.Tracks) : c.LineStarts where
  flag := h
  print := c.shown_print
  once := c.exists_written_startLine
  again := c.startLine_startLine
  record dest record := h.ownLines dest [record.line c.colored ++ "\n"]
  records dest before record := by
    have hbefore : (c.showRecords dest before).Tracks := h.perform (.records dest before)
    have hsnoc : c.showRecords dest (before ++ [record]) =
        (c.showRecords dest before).showRecord dest record := by simp [showRecords]
    rw [hsnoc, ← c.colored_showRecords dest before]
    exact hbefore.ownLines dest [record.line (c.showRecords dest before).colored ++ "\n"]
  registers dest computer := by
    have hrows := h.ownLines dest ((Panel.rows c.minimal computer).map (· ++ "\n"))
    rwa [List.foldl_map] at hrows
  registerPieces dest computer := h.ownLines dest (Panel.rowPieces c.minimal computer).flatten

/-- Whatever is asked of a new console, its flag tells whether a line is just beginning: to begin one takes
a newline at most, and nothing the second time, and every record and every register panel that is printed
at all is on lines of its own. Printed cell by cell, everything is as if it were printed at once. -/
theorem line_start_exact (colored : Bool) (requests : List Request) :
    (requests.foldl perform (initial colored)).LineStarts ∧
      (requests.foldl performPieces (initial colored)).LineStarts ∧
      (requests.foldl performPieces (initial colored)).SameView
        (requests.foldl perform (initial colored)) := by
  have h := tracks_initial colored
  have hwhole := h.foldl (fun _ request hc => hc.perform request) requests
  have hpieces := h.foldl (fun _ request hc => hc.performPieces request) requests
  exact ⟨hwhole.lineStarts, hpieces.lineStarts,
    .foldl (fun request hc => hc.performPieces request) (.refl _) requests⟩

end Console

end BasicComputer
