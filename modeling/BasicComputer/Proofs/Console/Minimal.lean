import BasicComputer.Proofs.Console.LineStart

/-! # Minimal mode

Painting adds nothing to a text but escape sequences, each with its end, however else a painter may go about
it. So what minimal mode makes of the journal's records does not depend on whether colour is on, as long as
they have no escape sequences of their own: every record is written with what stands in front of its kind,
on a line to itself. -/

namespace BasicComputer

/-! ## Painted texts -/

/-- The first text is the second with escape sequences between its characters. Each sequence goes up to its
first letter m. -/
inductive Decorates : List Char → List Char → Prop
  | nil : Decorates [] []
  | sequence {codes painted text : List Char} (hcodes : 'm' ∉ codes) (h : Decorates painted text) :
      Decorates ('\x1b' :: (codes ++ 'm' :: painted)) text
  | char {c : Char} {painted text : List Char} (hc : c ≠ '\x1b') (h : Decorates painted text) :
      Decorates (c :: painted) (c :: text)

/-- The painter adds nothing but sequences to a text that has none of its own. -/
def AddsSequences (paint : Style → String → String) : Prop :=
  ∀ style text, '\x1b' ∉ text.toList → Decorates (paint style text).toList text.toList

theorem plain_sequence {codes : List Char} (h : 'm' ∉ codes) (rest : List Char) :
    plain ('\x1b' :: (codes ++ 'm' :: rest)) = plain rest := by
  have hbehind : behindSequence (codes ++ 'm' :: rest) = rest := by
    have hcodes : ∀ c ∈ codes, (c != 'm') = true := by
      intro c hc
      exact bne_iff_ne.mpr fun heq => h (heq ▸ hc)
    rw [behindSequence, List.dropWhile_append_of_pos hcodes]
    rfl
  change plainFrom true (codes ++ 'm' :: rest) = plain rest
  rw [plainFrom_true, hbehind]

namespace Decorates

variable {painted text painted' text' : List Char}

/-- What is plain of a decorated text is the text. -/
theorem plain_append (h : Decorates painted text) (rest : List Char) :
    plain (painted ++ rest) = text ++ plain rest := by
  induction h with
  | nil => rfl
  | sequence hcodes _ ih => rw [List.cons_append, List.append_assoc, List.cons_append, plain_sequence hcodes, ih]
  | char hc _ ih => rw [List.cons_append, plain, plainFrom, if_neg hc, List.cons_append, ← ih]; rfl

theorem of_not_mem (h : '\x1b' ∉ text) : Decorates text text := by
  induction text with
  | nil => exact .nil
  | cons c text ih =>
      obtain ⟨hc, htext⟩ := not_or.mp (List.mem_cons.not.mp h)
      exact .char (Ne.symm hc) (ih htext)

theorem append (h : Decorates painted text) (h' : Decorates painted' text') :
    Decorates (painted ++ painted') (text ++ text') := by
  induction h with
  | nil => exact h'
  | @sequence codes painted text hcodes _ ih =>
      rw [List.cons_append, List.append_assoc, List.cons_append]
      exact .sequence hcodes ih
  | char hc _ ih => exact .char hc ih

end Decorates

theorem Color.letter_not_mem_code (color : Color) : 'm' ∉ color.code.toList := by
  have hdigits (n : Nat) : 'm' ∉ Nat.toDigits 10 n := not_mem_toDigits (by decide) n
  cases color with
  | rgb r g b => simp [code, hdigits]
  | red | green | yellow | cyan | brightBlue => decide

theorem Weight.letter_not_mem_code (weight : Weight) : 'm' ∉ weight.code.toList := by
  cases weight <;> decide

namespace Style

/-- A style is written as a single sequence. -/
theorem exists_opening_eq (style : Style) :
    ∃ codes, 'm' ∉ codes ∧ style.opening = '\x1b' :: (codes ++ ['m']) := by
  obtain ⟨weight, color⟩ := style
  refine ⟨'[' :: (";".intercalate ((weight.map Weight.code).toList ++
    (color.map Color.code).toList)).toList, ?_, rfl⟩
  cases weight <;> cases color <;>
    simp [Color.letter_not_mem_code, Weight.letter_not_mem_code]

theorem reopen_eq_self (opening : List Char) {text : List Char} (h : '\x1b' ∉ text) :
    reopen opening text = text := by
  fun_induction reopen opening text with
  | case1 rest ih => simp at h
  | case2 c rest _ ih => rw [ih (List.not_mem_of_not_mem_cons h)]
  | case3 => rfl

theorem addsSequences_paint (colored : Bool) : AddsSequences (·.paint colored) := by
  intro style text h
  cases colored with
  | false => exact .of_not_mem h
  | true =>
      obtain ⟨codes, hcodes, hopening⟩ := style.exists_opening_eq
      have hreset : Decorates reset [] := .sequence (show 'm' ∉ ['[', '0'] by decide) .nil
      have hbody := (Decorates.of_not_mem h).append hreset
      rw [List.append_nil] at hbody
      have hpainted := Decorates.sequence hcodes hbody
      simpa [paint, hopening, reopen_eq_self _ h] using hpainted

end Style

/-! ## Records -/

namespace Record

/-- What a record tells: of a context its title. -/
def text : Record → String
  | .context title _ => title
  | .step text | .info text | .warning text | .error text => text

/-- The record as a line of plain text. -/
def plainLine : Record → String
  | .context title time => "[" ++ title ++ ":T" ++ toString time ++ "]"
  | .step text => "    " ++ text
  | .info text => "[INFO]: " ++ text
  | .warning text => "[WARNING]: " ++ text
  | .error text => "[ERROR]: " ++ text

variable {record : Record}

theorem escape_not_mem_plainLine (h : '\x1b' ∉ record.text.toList) :
    '\x1b' ∉ record.plainLine.toList := by
  have htime (time : Nat) : '\x1b' ∉ Nat.toDigits 10 time := not_mem_toDigits (by decide) time
  cases record <;> simpa [plainLine, text, htime] using h

/-- What is plain of a record's line does not depend on how the record is painted. -/
theorem plain_lineBy_append {paint : Style → String → String} (hpaint : AddsSequences paint)
    (h : '\x1b' ∉ record.text.toList) (rest : List Char) :
    plain ((record.lineBy paint).toList ++ rest) = record.plainLine.toList ++ plain rest := by
  have hplain := escape_not_mem_plainLine h
  cases record <;> exact (hpaint _ _ hplain).plain_append rest

end Record

namespace Console

/-- Prints records that are painted in this way. -/
def showRecordsBy (paint : Style → String → String) (c : Console) (dest : Destination)
    (records : List Record) : Console :=
  records.foldl (fun c record => c.showRecordBy paint dest record) c

theorem showRecords_eq (c : Console) (dest : Destination) (records : List Record) :
    c.showRecords dest records = c.showRecordsBy (·.paint c.colored) dest records := by
  unfold showRecords showRecordsBy
  induction records generalizing c with
  | nil => rfl
  | cons record records ih =>
      have hcolored : (c.showRecord dest record).colored = c.colored := by
        rw [showRecord, showRecordBy, printLine, colored_print, colored_startLine]
      rw [List.foldl_cons, ih, hcolored]
      rfl

theorem lineStart_emit_line (c : Console) (stream : Stream) {text : String} (h : '\x1b' ∉ text.toList) :
    (c.emit stream (text ++ "\n")).lineStart = true := by
  have hplain : plain (text ++ "\n").toList = text.toList ++ ['\n'] := by
    rw [String.toList_append, plain_append (closed_of_not_mem h), plain_eq_self h]
    rfl
  change lineStartAfter c.lineStart (text ++ "\n").toList = true
  rw [lineStartAfter, hplain, List.getLast?_concat]
  rfl

section

variable {c : Console} (hminimal : c.minimal = true)

include hminimal

theorem outlet?_always : outlet? .always c.minimal = some (.error, true) := by
  rw [hminimal]
  rfl

section

variable {paint : Style → String → String} (hpaint : AddsSequences paint)

include hpaint

theorem printLine_of_minimal {record : Record} (h : '\x1b' ∉ record.text.toList) :
    c.printLine .always (record.lineBy paint) = c.emit .error (record.plainLine ++ "\n") := by
  have hnewline : plain "\n".toList = "\n".toList := by decide
  have hline : rendered true (record.lineBy paint ++ "\n") = record.plainLine ++ "\n" := by
    rw [rendered, if_pos rfl, String.toList_append, Record.plain_lineBy_append hpaint h, hnewline,
      ← String.toList_append, String.ofList_toList]
  rw [printLine, print_of_written (outlet?_always hminimal), hline]

/-- At the beginning of a line, every record is written on a line to itself. -/
theorem written_showRecordsBy_of_lineStart {records : List Record}
    (h : ∀ record ∈ records, '\x1b' ∉ record.text.toList) (hstart : c.lineStart = true) :
    (c.showRecordsBy paint .always records).written.toList =
      c.written.toList ++ records.map fun record => (.error, record.plainLine ++ "\n") := by
  induction records generalizing c with
  | nil => simp [showRecordsBy]
  | cons record records ih =>
      obtain ⟨hrecord, hrecords⟩ := List.forall_mem_cons.mp h
      have hshow : c.showRecordBy paint .always record = c.emit .error (record.plainLine ++ "\n") := by
        rw [showRecordBy, startLine, if_pos hstart, printLine_of_minimal hminimal hpaint hrecord]
      have hnext := lineStart_emit_line c .error (Record.escape_not_mem_plainLine hrecord)
      have hrest := ih (c := c.emit .error (record.plainLine ++ "\n")) hminimal hrecords hnext
      rw [showRecordsBy, List.foldl_cons, hshow]
      refine hrest.trans ?_
      simp [emit]

/-- Otherwise the line under way is ended before the first record. -/
theorem written_showRecordsBy {records : List Record}
    (h : ∀ record ∈ records, '\x1b' ∉ record.text.toList) :
    (c.showRecordsBy paint .always records).written.toList =
      c.written.toList ++ (if c.lineStart || records.isEmpty then [] else [(.error, "\n")]) ++
        records.map fun record => (.error, record.plainLine ++ "\n") := by
  cases records with
  | nil => simp [showRecordsBy]
  | cons record records =>
      have hfirst : c.showRecordsBy paint .always (record :: records) =
          (c.startLine .always).showRecordsBy paint .always (record :: records) := by
        simp [showRecordsBy, showRecordBy, startLine_startLine]
      cases hstart : c.lineStart with
      | true => rw [written_showRecordsBy_of_lineStart hminimal hpaint h hstart]; simp
      | false =>
          have hnewline : c.startLine .always = c.emit .error "\n" := by
            rw [startLine, hstart, print_of_written (outlet?_always hminimal)]
            rfl
          have hwritten := written_showRecordsBy_of_lineStart
            (c := c.emit .error "\n") hminimal hpaint h rfl
          rw [hfirst, hnewline, hwritten]
          simp [emit]

end

end

theorem showRecordsBy_of_dropped {c : Console} {dest : Destination} (ho : outlet? dest c.minimal = none)
    (paint : Style → String → String) (records : List Record) : c.showRecordsBy paint dest records = c := by
  unfold showRecordsBy
  induction records with
  | nil => rfl
  | cons record records ih =>
      rw [List.foldl_cons, showRecordBy, startLine_of_dropped ho, printLine, print_of_dropped ho, ih]

/-- What is left of a text without its escape sequences has none, is the whole of a text that had none, and
is put together as the text is where its sequences have ended. So in minimal mode records without escape
sequences of their own look the same in colour as without, and however they are painted with sequences that
end: each is a line of plain text, behind a newline if a line was under way. Where decoration goes, nothing
is written. -/
theorem minimal_color_free :
    (∀ text, drawPlain text = plain text ∧ '\x1b' ∉ plain text ∧ (plain text = text ↔ '\x1b' ∉ text)) ∧
    (∀ left, EscapesEnd left ↔ ∀ right, plain (left ++ right) = plain left ++ plain right) ∧
    (∀ (c : Console) (records : List Record), c.minimal = true →
      c.showRecords .sometimes records = c ∧
      ((∀ record ∈ records, '\x1b' ∉ record.text.toList) →
        (∀ colored, ({ c with colored := colored }.showRecords .always records).written.toList =
          c.written.toList ++ (if c.lineStart || records.isEmpty then [] else [(.error, "\n")]) ++
            records.map fun record => (.error, record.plainLine ++ "\n")) ∧
        ∀ record ∈ records, '\x1b' ∉ (record.plainLine ++ "\n").toList)) ∧
    ∀ (c : Console) (records : List Record) paint, c.minimal = true → AddsSequences paint →
      c.showRecordsBy paint .sometimes records = c ∧
      ((∀ record ∈ records, '\x1b' ∉ record.text.toList) →
        (c.showRecordsBy paint .always records).written.toList =
          c.written.toList ++ (if c.lineStart || records.isEmpty then [] else [(.error, "\n")]) ++
            records.map fun record => (.error, record.plainLine ++ "\n")) := by
  have hdropped {c : Console} (hminimal : c.minimal = true) : outlet? .sometimes c.minimal = none := by
    rw [hminimal]
    rfl
  refine ⟨?_, escapesEnd_iff_plain_append, ?_, ?_⟩
  · intro text
    refine ⟨drawPlain_eq_plain text, not_mem_plainFrom false text, ?_, plain_eq_self⟩
    intro h
    rw [← h]
    exact not_mem_plainFrom false text
  · intro c records hminimal
    refine ⟨?_, ?_⟩
    · rw [showRecords_eq]
      exact showRecordsBy_of_dropped (hdropped hminimal) _ records
    · intro h
      refine ⟨?_, ?_⟩
      · intro colored
        rw [showRecords_eq]
        exact written_showRecordsBy (c := { c with colored := colored }) hminimal
          (Style.addsSequences_paint colored) h
      · intro record hrecord
        simpa using Record.escape_not_mem_plainLine (h record hrecord)
  · intro c records paint hminimal hpaint
    exact ⟨showRecordsBy_of_dropped (hdropped hminimal) paint records,
      written_showRecordsBy hminimal hpaint⟩

/-- Behind a character that the program has printed, in colour. -/
theorem minimal_color_free_lineUnderWay :
    (∀ record ∈ [Record.context "FETCH" 0, .error "halt"], '\x1b' ∉ record.text.toList) ∧
    (Console.showRecords ⟨true, false, true, #[(.output, "A")]⟩ .always
      [.context "FETCH" 0, .error "halt"]).written.toList =
        [(.output, "A"), (.error, "\n"), (.error, "[FETCH:T0]\n"), (.error, "[ERROR]: halt\n")] ∧
    AddsSequences (·.paint true) ∧
    (Console.showRecordsBy (·.paint true) ⟨true, false, false, #[(.output, "A")]⟩ .always
      [.context "FETCH" 0, .error "halt"]).written.toList =
        [(.output, "A"), (.error, "\n"), (.error, "[FETCH:T0]\n"), (.error, "[ERROR]: halt\n")] := by
  have hplain : ∀ record ∈ [Record.context "FETCH" 0, .error "halt"], '\x1b' ∉ record.text.toList := by decide
  have hpaint : AddsSequences (·.paint true) := Style.addsSequences_paint true
  obtain ⟨-, -, hshown, hpainted⟩ := minimal_color_free
  exact ⟨hplain, ((hshown ⟨true, false, false, #[(.output, "A")]⟩ _ rfl).2 hplain).1 true, hpaint,
    (hpainted ⟨true, false, false, #[(.output, "A")]⟩ _ _ rfl hpaint).2 hplain⟩

end Console

end BasicComputer
