import BasicComputer.Proofs.Console.Minimal
import BasicComputer.Proofs.Machine.Cycle

/-! # The register panel as it looks

The lines of the framed panel are forty characters wide, but for the line of the flip-flops, which does not
fit into the frame. Under the title `int` a register's row shows the number that its word is without sign,
and under `uint` the one that it is with a sign. -/

namespace BasicComputer

/-- What is seen of a text that is part of a line. -/
structure LooksLike (text : String) (seen : List Char) : Prop where
  closed : Closed text
  plain_eq : plain text.toList = seen
  newline_not_mem : '\n' ∉ text.toList

/-- How many characters of a text are seen. -/
def visibleWidth (text : String) : Nat := (plain text.toList).length

namespace LooksLike

variable {text more : String} {seen seen' : List Char}

theorem append (h : LooksLike text seen) (h' : LooksLike more seen') :
    LooksLike (text ++ more) (seen ++ seen') where
  closed := h.closed.append h'.closed
  plain_eq := by rw [String.toList_append, plain_append h.closed, h.plain_eq, h'.plain_eq]
  newline_not_mem := by
    rw [String.toList_append, List.mem_append, not_or]
    exact ⟨h.newline_not_mem, h'.newline_not_mem⟩

/-- A text without escape sequences looks like itself. -/
theorem of_not_mem (hescape : '\x1b' ∉ text.toList) (hnewline : '\n' ∉ text.toList) :
    LooksLike text text.toList :=
  ⟨closed_of_not_mem hescape, plain_eq_self hescape, hnewline⟩

theorem width_eq (h : LooksLike text seen) : visibleWidth text = seen.length := by
  rw [visibleWidth, h.plain_eq]

theorem reset : LooksLike "\x1b[0m" [] := ⟨by decide, by decide, by decide⟩

theorem dim (h : LooksLike text seen) : LooksLike (Panel.dim text) seen := by
  have hopening : LooksLike "\x1b[2m" [] := ⟨by decide, by decide, by decide⟩
  have hdim := (hopening.append h).append reset
  rwa [List.nil_append, List.append_nil] at hdim

theorem strong (h : LooksLike text seen) : LooksLike (Panel.strong text) seen := by
  have hopening : LooksLike "\x1b[1m" [] := ⟨by decide, by decide, by decide⟩
  have hstrong := (hopening.append h).append reset
  rwa [List.nil_append, List.append_nil] at hstrong

theorem replicate {c : Char} (hescape : '\x1b' ≠ c) (hnewline : '\n' ≠ c) (n : Nat) :
    LooksLike (String.ofList (List.replicate n c)) (List.replicate n c) := by
  have h : LooksLike (String.ofList (List.replicate n c)) (String.ofList (List.replicate n c)).toList :=
    of_not_mem (by simp [hescape]) (by simp [hnewline])
  rwa [String.toList_ofList] at h

theorem alignRight (h : LooksLike text seen) (width : Nat) :
    LooksLike (Column.alignRight width text)
      (List.replicate (width - text.toList.length) ' ' ++ seen) := by
  rw [Column.alignRight_eq]
  exact (replicate (by decide) (by decide) _).append h

theorem alignLeft (h : LooksLike text seen) (width : Nat) :
    LooksLike (Column.alignLeft width text)
      (seen ++ List.replicate (width - text.toList.length) ' ') := by
  rw [Column.alignLeft_eq]
  exact h.append (replicate (by decide) (by decide) _)

end LooksLike

/-! ## Words in a line -/

/-- The word that stands at a column of a line, between blanks. -/
def wordAt (line : List Char) (column : Nat) : List Char :=
  let behind := (line.drop column).takeWhile (· != ' ')
  if behind.isEmpty then []
  else ((line.take column).reverse.takeWhile (· != ' ')).reverse ++ behind

theorem wordAt_eq {before word after : List Char} {column : Nat} (hword : ' ' ∉ word)
    (hbefore : before.getLast? = some ' ') (hafter : after.head? = some ' ')
    (hlow : before.length ≤ column) (hhigh : column < before.length + word.length) :
    wordAt (before ++ word ++ after) column = word := by
  obtain ⟨distance, rfl⟩ := Nat.exists_eq_add_of_le hlow
  have hpart {part : List Char} (h : ∀ c ∈ part, c ∈ word) : ∀ c ∈ part, (c != ' ') = true := by
    intro c hc
    exact bne_iff_ne.mpr fun heq => hword (heq ▸ h c hc)
  have hbehind : ((before ++ word ++ after).drop (before.length + distance)).takeWhile (· != ' ') =
      word.drop distance := by
    rw [List.append_assoc, List.drop_length_add_append, List.drop_append_of_le_length (by omega)]
    apply takeWhile_append_of_stop (hpart fun c hc => List.mem_of_mem_drop hc)
    simp [hafter]
  have hfront : ((before ++ word ++ after).take (before.length + distance)).reverse.takeWhile (· != ' ') =
      (word.take distance).reverse := by
    rw [List.append_assoc, List.take_length_add_append, List.take_append_of_le_length (by omega),
      List.reverse_append]
    apply takeWhile_append_of_stop (hpart fun c hc => List.mem_of_mem_take (List.mem_reverse.mp hc))
    simp [hbefore]
  have hne : (word.drop distance).isEmpty = false := by
    rw [List.isEmpty_eq_false_iff, Ne, List.drop_eq_nil_iff]
    omega
  rw [wordAt, hbehind, hfront, hne, List.reverse_reverse]
  exact List.take_append_drop distance word

namespace Panel

/-- The column of the last letter of a title in the heading. -/
def titleColumn? (title : String) : Option Nat :=
  let line := plain heading.toList
  (List.range line.length).reverse.find? fun column => wordAt line column == title.toList

/-- The word that a row shows under a title: what stands at the column of the title's last letter. -/
def shownUnder? (title row : String) : Option String :=
  (titleColumn? title).map fun column => String.ofList (wordAt (plain row.toList) column)

theorem titleColumn?_int : titleColumn? "int" = some 21 := by decide +kernel

theorem titleColumn?_uint : titleColumn? "uint" = some 29 := by decide +kernel

/-! ## Decimal numbers -/

/-- The decimal digits of an integer, behind a minus sign if it is negative. -/
theorem toList_intToString (i : Int) :
    (toString i).toList = (if i < 0 then ['-'] else []) ++ Nat.toDigits 10 i.natAbs := by
  cases i with
  | ofNat n =>
      have htext : toString (Int.ofNat n) = toString n := rfl
      have hsign : ¬Int.ofNat n < 0 := Int.not_lt.mpr (Int.natCast_nonneg n)
      rw [htext, if_neg hsign]
      simp
  | negSucc n =>
      have htext : toString (Int.negSucc n) = "-" ++ toString (n + 1) := rfl
      rw [htext, if_pos (Int.negSucc_lt_zero n)]
      simp

theorem not_mem_intToString {c : Char} (hdigit : c.isDigit = false) (hsign : c ≠ '-') (i : Int) :
    c ∉ (toString i).toList := by
  have hdigits := not_mem_toDigits hdigit i.natAbs
  rw [toList_intToString, List.mem_append, not_or]
  refine ⟨?_, hdigits⟩
  split <;> simp [hsign]

theorem looksLike_intToString (i : Int) : LooksLike (toString i) (toString i).toList :=
  .of_not_mem (not_mem_intToString (by decide) (by decide) i) (not_mem_intToString (by decide) (by decide) i)

/-- A word of a line that fits into the six places of a column. -/
structure FitsColumn (text : String) : Prop where
  looksLike : LooksLike text text.toList
  blank_not_mem : ' ' ∉ text.toList
  length_pos : 0 < text.toList.length
  length_le : text.toList.length ≤ 6

/-- A sign and five digits do. -/
theorem fitsColumn_intToString {i : Int} (h : i.natAbs < 10 ^ 5) : FitsColumn (toString i) := by
  have hdigits : (Nat.toDigits 10 i.natAbs).length ≤ 5 :=
    (Nat.length_toDigits_le_iff (by decide) (by decide)).mpr h
  have hsome : 0 < (Nat.toDigits 10 i.natAbs).length := Nat.length_toDigits_pos
  refine ⟨looksLike_intToString i, not_mem_intToString (by decide) (by decide) i, ?_, ?_⟩
  · rw [toList_intToString, List.length_append]
    omega
  · have hsign : (if i < 0 then ['-'] else []).length ≤ 1 := by split <;> decide
    rw [toList_intToString, List.length_append]
    omega

theorem fitsColumn_unsigned (w : Word) : FitsColumn (toString w.toNat) := by
  have hcast : toString (w.toNat : Int) = toString w.toNat := rfl
  have hbound := w.isLt
  rw [← hcast]
  apply fitsColumn_intToString
  omega

theorem fitsColumn_signed (w : Word) : FitsColumn (toString w.toInt) := by
  have hlow := w.le_toInt
  have hhigh := w.toInt_lt
  apply fitsColumn_intToString
  omega

/-- A text at the right end of its column. -/
def aligned (text : String) : List Char := List.replicate (6 - text.toList.length) ' ' ++ text.toList

section

variable {text : String} (h : FitsColumn text)

include h

theorem length_aligned : (aligned text).length = 6 := by
  have hlength := h.length_le
  rw [aligned, List.length_append, List.length_replicate]
  omega

theorem looksLike_alignRight : LooksLike (Column.alignRight 6 text) (aligned text) :=
  h.looksLike.alignRight 6

/-- It stands at the last place of its column. -/
theorem wordAt_aligned (front after : List Char) (hfront : front.getLast? = some ' ')
    (hafter : after.head? = some ' ') :
    wordAt (front ++ aligned text ++ after) (front.length + 5) = text.toList := by
  have hpos := h.length_pos
  have hlength := h.length_le
  have hbefore : (front ++ List.replicate (6 - text.toList.length) ' ').getLast? = some ' ' := by
    rw [List.getLast?_append, List.getLast?_replicate]
    split <;> simp [hfront]
  rw [aligned, ← List.append_assoc front]
  apply wordAt_eq h.blank_not_mem hbefore hafter
  · rw [List.length_append, List.length_replicate]
    omega
  · rw [List.length_append, List.length_replicate]
    omega

end

/-! ## Rows -/

/-- Every row stands between two strokes of the frame. -/
theorem looksLike_edge : LooksLike (dim "│") ['│'] := (LooksLike.of_not_mem (by decide) (by decide)).dim

theorem looksLike_lower (w : Word) :
    LooksLike (Hex.lower 4 w.toNat) (Hex.lower 4 w.toNat).toList :=
  .of_not_mem (Hex.not_mem_lower (by decide) 4 _) (Hex.not_mem_lower (by decide) 4 _)

theorem length_lower (w : Word) : (Hex.lower 4 w.toNat).toList.length = 4 := by
  have hdigits : (Nat.toDigits 16 w.toNat).length ≤ 4 :=
    (Nat.length_toDigits_le_iff (by decide) (by decide)).mpr w.isLt
  rw [Hex.lower, String.toList_ofList, List.length_leftpad, Nat.max_eq_left hdigits]

/-- A word as a character takes three places. -/
theorem exists_looksLike_characterCell (w : Word) :
    ∃ cell, cell.length = 3 ∧ LooksLike (characterCell w) cell := by
  have hplain {text : String} (hescape : '\x1b' ∉ text.toList) (hnewline : '\n' ∉ text.toList)
      (hlength : text.toList.length = 3) : ∃ cell, cell.length = 3 ∧ LooksLike text cell :=
    ⟨text.toList, hlength, .of_not_mem hescape hnewline⟩
  have hdim {text : String} (h : ∃ cell, cell.length = 3 ∧ LooksLike text cell) :
      ∃ cell, cell.length = 3 ∧ LooksLike (dim text) cell := by
    obtain ⟨cell, hlength, hcell⟩ := h
    exact ⟨cell, hlength, hcell.dim⟩
  unfold characterCell
  split
  case h_9 =>
    split
    next hw =>
      have hescape : '\x1b' ≠ Char.ofNat w.toNat := control_ne_ofNat (by decide) hw.1 hw.2
      have hnewline : '\n' ≠ Char.ofNat w.toNat := control_ne_ofNat (by decide) hw.1 hw.2
      have hcharacter : LooksLike (Char.ofNat w.toNat).toString (Char.ofNat w.toNat).toString.toList :=
        .of_not_mem (by simpa using hescape) (by simpa using hnewline)
      exact ⟨_, by simp, hcharacter.alignLeft 3⟩
    next =>
      split
      · exact hdim (hplain (by decide) (by decide) (by decide))
      · exact hdim (hplain (by decide) (by decide) (by decide))
  all_goals exact hplain (by decide) (by decide) (by decide)

theorem looksLike_of_mem_registers {c : Computer} {name : String} {w : Word} (h : (name, w) ∈ registers c) :
    LooksLike name name.toList ∧ name.toList.length ≤ 4 := by
  have hall : ∀ name ∈ ["AC", "DR", "AR", "IR", "PC", "TR", "INPR", "OUTR"],
      '\x1b' ∉ name.toList ∧ '\n' ∉ name.toList ∧ name.toList.length ≤ 4 := by decide
  obtain ⟨hescape, hnewline, hlength⟩ := hall name (mem_names_of_mem_registers h)
  exact ⟨.of_not_mem hescape hnewline, hlength⟩

/-- The part of a register's row in front of its decimal numbers. -/
def rowFront (name : String) (w : Word) : List Char :=
  ['│', ' '] ++ name.toList ++ List.replicate (4 - name.toList.length) ' ' ++ [' ', ' ', '0', 'x'] ++
    (Hex.lower 4 w.toNat).toList ++ [' '] ++ [' ']

theorem length_rowFront {name : String} (h : name.toList.length ≤ 4) (w : Word) :
    (rowFront name w).length = 16 := by
  simp only [rowFront, List.length_append, List.length_cons, List.length_nil, List.length_replicate,
    length_lower]
  omega

/-- A register's row: its decimal numbers stand behind sixteen places, each in a column of six. -/
theorem exists_looksLike_registerRow {name : String} (hname : LooksLike name name.toList) (w : Word) :
    ∃ cell, cell.length = 3 ∧
      LooksLike (registerRow name w)
        (rowFront name w ++ aligned (toString w.toNat) ++ [' '] ++ [' '] ++ aligned (toString w.toInt) ++
          ([' ', ' ', ' ', ' ', ' '] ++ cell ++ [' ', '│'])) := by
  obtain ⟨cell, hlength, hcell⟩ := exists_looksLike_characterCell w
  have hblank : LooksLike " " [' '] := .of_not_mem (by decide) (by decide)
  have hblanks : LooksLike "  " [' ', ' '] := .of_not_mem (by decide) (by decide)
  have hgap : LooksLike "     " [' ', ' ', ' ', ' ', ' '] := .of_not_mem (by decide) (by decide)
  have hmark : LooksLike "0x" ['0', 'x'] := .of_not_mem (by decide) (by decide)
  have hcells : LooksLike (wordCells w) _ :=
    ((((((hmark.append (looksLike_lower w)).append hblanks).append
      (looksLike_alignRight (fitsColumn_unsigned w))).append hblanks).append
        (looksLike_alignRight (fitsColumn_signed w))).append hgap).append hcell
  have hrow : LooksLike (registerRow name w) _ :=
    (((((looksLike_edge.append hblank).append (hname.alignLeft 4).strong).append hblanks).append
      hcells).append hblank).append looksLike_edge
  refine ⟨cell, hlength, ?_⟩
  simpa [rowFront] using hrow

/-- What can be seen of a register's row. -/
structure RegisterRow (row : String) (w : Word) : Prop where
  width : visibleWidth row = 40
  newline_not_mem : '\n' ∉ row.toList
  int : shownUnder? "int" row = some (toString w.toNat)
  uint : shownUnder? "uint" row = some (toString w.toInt)

theorem shownUnder?_eq {title row text : String} {column : Nat} (htitle : titleColumn? title = some column)
    (h : wordAt (plain row.toList) column = text.toList) : shownUnder? title row = some text := by
  rw [shownUnder?, htitle, Option.map_some, h, String.ofList_toList]

/-- The decimal numbers stand under each other's titles. -/
theorem registerRow_spec {c : Computer} {name : String} {w : Word} (h : (name, w) ∈ registers c) :
    RegisterRow (registerRow name w) w := by
  obtain ⟨hname, hshort⟩ := looksLike_of_mem_registers h
  obtain ⟨cell, hcell, hrow⟩ := exists_looksLike_registerRow hname w
  have hfront := length_rowFront hshort w
  have hunsigned := fitsColumn_unsigned w
  have hsigned := fitsColumn_signed w
  refine ⟨?_, hrow.newline_not_mem, ?_, ?_⟩
  · rw [hrow.width_eq]
    simp only [List.length_append, hfront, length_aligned hunsigned, length_aligned hsigned, hcell,
      List.length_cons, List.length_nil]
  · apply shownUnder?_eq titleColumn?_int
    have hword := wordAt_aligned hunsigned (rowFront name w)
      ([' '] ++ [' '] ++ aligned (toString w.toInt) ++ ([' ', ' ', ' ', ' ', ' '] ++ cell ++ [' ', '│']))
      List.getLast?_concat rfl
    rw [hfront] at hword
    rw [hrow.plain_eq, ← hword]
    simp only [List.append_assoc]
  · apply shownUnder?_eq titleColumn?_uint
    have hword := wordAt_aligned hsigned (rowFront name w ++ aligned (toString w.toNat) ++ [' '] ++ [' '])
      ([' ', ' ', ' ', ' ', ' '] ++ cell ++ [' ', '│']) List.getLast?_concat rfl
    have hcolumn : (rowFront name w ++ aligned (toString w.toNat) ++ [' '] ++ [' ']).length = 24 := by
      simp only [List.length_append, hfront, length_aligned hunsigned, List.length_cons, List.length_nil]
    rw [hcolumn] at hword
    rw [hrow.plain_eq, ← hword]

/-! ## The flip-flops -/

theorem looksLike_join_strong {cells : List String} (h : ∀ cell ∈ cells, LooksLike cell cell.toList) :
    LooksLike (String.join (cells.map strong)) (String.join cells).toList := by
  induction cells with
  | nil => exact .of_not_mem (by decide) (by decide)
  | cons cell cells ih =>
      obtain ⟨hcell, hcells⟩ := List.forall_mem_cons.mp h
      rw [List.map_cons, String.join_cons, String.join_cons, String.toList_append]
      exact hcell.strong.append (ih hcells)

/-- A flip-flop's cell in the row. -/
def flagCell (flag : String × Bool) : String := " " ++ flag.1 ++ " " ++ bit flag.2

theorem looksLike_flagCell {c : Computer} {flag : String × Bool} (h : flag ∈ flags c) :
    LooksLike (flagCell flag) (flagCell flag).toList := by
  have hall : ∀ name ∈ ["E", "S", "I", "R", "IEN", "FGI", "FGO"], ∀ b,
      '\x1b' ∉ (flagCell (name, b)).toList ∧ '\n' ∉ (flagCell (name, b)).toList := by decide
  obtain ⟨hescape, hnewline⟩ := hall flag.1 (mem_names_of_mem_flags h) flag.2
  exact .of_not_mem hescape hnewline

theorem length_flagCells (c : Computer) : (String.join ((flags c).map flagCell)).length = 34 := by
  have hbit (b : Bool) : (bit b).length = 1 := by cases b <;> rfl
  rw [String.length_join]
  simp only [flags, flagCell, List.map_cons, List.map_nil, String.length_append, hbit]
  rfl

/-- The flip-flops and SC take all of the frame's width and more, so nothing is left to fill. -/
theorem exists_looksLike_flagRow (c : Computer) :
    ∃ seen, seen.length = 41 + (toString c.sc).length ∧ LooksLike (flagRow c) seen := by
  have hcells : LooksLike (String.join (((flags c).map flagCell).map strong)) _ :=
    looksLike_join_strong fun cell hcell => by
      obtain ⟨flag, hflag, rfl⟩ := List.mem_map.mp hcell
      exact looksLike_flagCell hflag
  have htitle : LooksLike "  SC " "  SC ".toList := .of_not_mem (by decide) (by decide)
  have hsc : LooksLike ("  SC " ++ toString c.sc) ("  SC " ++ toString c.sc).toList := by
    rw [String.toList_append]
    exact htitle.append (looksLike_intToString c.sc)
  have hscLength : ("  SC " ++ toString c.sc).length = 5 + (toString c.sc).length := by
    rw [String.length_append]
    rfl
  have hfill := LooksLike.replicate (c := ' ') (by decide) (by decide)
    (38 - (String.join ((flags c).map flagCell) ++ ("  SC " ++ toString c.sc)).length)
  have hrow : LooksLike (flagRow c) _ :=
    (((looksLike_edge.append hcells).append hsc).append hfill).append looksLike_edge
  refine ⟨_, ?_, hrow⟩
  simp only [List.length_append, List.length_replicate, String.length_toList, String.length_append _ (_ ++ _),
    length_flagCells, hscLength, List.length_cons, List.length_nil]
  omega

/-! ## The frame -/

theorem looksLike_rule : LooksLike rule (List.replicate 38 '─') := .replicate (by decide) (by decide) 38

theorem looksLike_top : LooksLike top (['┌'] ++ List.replicate 38 '─' ++ ['┐']) := by
  have hleft : LooksLike "┌" ['┌'] := .of_not_mem (by decide) (by decide)
  have hright : LooksLike "┐" ['┐'] := .of_not_mem (by decide) (by decide)
  exact ((hleft.append looksLike_rule).append hright).dim

theorem looksLike_bottom : LooksLike bottom (['└'] ++ List.replicate 38 '─' ++ ['┘']) := by
  have hleft : LooksLike "└" ['└'] := .of_not_mem (by decide) (by decide)
  have hright : LooksLike "┘" ['┘'] := .of_not_mem (by decide) (by decide)
  exact ((hleft.append looksLike_rule).append hright).dim

theorem looksLike_heading :
    LooksLike heading "│          hex     int    uint    char │".toList :=
  ⟨closed_heading, by decide +kernel, by decide +kernel⟩

theorem visibleWidth_flagRow (c : Computer) : visibleWidth (flagRow c) = 41 + (toString c.sc).length := by
  obtain ⟨seen, hlength, hrow⟩ := exists_looksLike_flagRow c
  rw [hrow.width_eq, hlength]

/-- Every row is a single line. -/
theorem newline_not_mem_of_mem_framedRows {c : Computer} {row : String} (h : row ∈ framedRows c) :
    '\n' ∉ row.toList := by
  obtain ⟨seen, -, hflags⟩ := exists_looksLike_flagRow c
  simp only [framedRows, List.mem_append, List.mem_cons, List.mem_map, List.not_mem_nil, or_false] at h
  rcases h with ((rfl | rfl) | ⟨register, hregister, rfl⟩) | rfl | rfl
  · exact looksLike_top.newline_not_mem
  · exact looksLike_heading.newline_not_mem
  · exact (registerRow_spec hregister).newline_not_mem
  · exact hflags.newline_not_mem
  · exact looksLike_bottom.newline_not_mem

end Panel

/-! ## A negative accumulator -/

/-- A program that complements the accumulator. -/
def complementing : Image := ⟨0, [⟨0, 0x7200, ⟨0, 3⟩⟩]⟩

/-- The computer when the program's instruction has been executed. -/
def complemented : Computer := ((Machine.initial.load complementing).afterPulses 4).computer

namespace Panel

theorem mem_registers_complemented : ("AC", 0xFFFF) ∈ registers complemented := by decide +kernel

theorem sc_complemented : complemented.sc = 0 := by decide +kernel

end Panel

/-! ## The whole panel -/

namespace Console

/-- Where the panel is framed, each of its rows is a line of its own. It is forty places wide, but for the
row of the flip-flops, which goes beyond the frame by one place and by the digits of SC. In the row of a
register the number that its word is without sign stands under the title `int`, and the number that it is
with a sign under the title `uint`. -/
theorem register_panel_as_seen {console : Console} (hframed : console.minimal = false) (dest : Destination)
    (c : Computer) :
    (∃ stream lead, outlet? dest console.minimal = some (stream, false) ∧
      (lead = [] ∨ lead = [(stream, "\n")]) ∧
      (console.showRegisters dest c).written.toList =
        console.written.toList ++ lead ++ (Panel.framedRows c).map fun row => (stream, row ++ "\n")) ∧
    (∀ row ∈ Panel.framedRows c, '\n' ∉ row.toList) ∧
    (∀ row ∈ [Panel.top, Panel.heading, Panel.bottom], visibleWidth row = 40) ∧
    visibleWidth (Panel.flagRow c) = 41 + (toString c.sc).length ∧
    ∀ register ∈ Panel.registers c,
      visibleWidth (Panel.registerRow register.1 register.2) = 40 ∧
      Panel.shownUnder? "int" (Panel.registerRow register.1 register.2) =
        some (toString register.2.toNat) ∧
      Panel.shownUnder? "uint" (Panel.registerRow register.1 register.2) =
        some (toString register.2.toInt) := by
  refine ⟨?_, fun row => Panel.newline_not_mem_of_mem_framedRows, ?_, Panel.visibleWidth_flagRow c, ?_⟩
  · obtain ⟨stream, ho⟩ : ∃ stream, outlet? dest console.minimal = some (stream, false) := by
      rw [hframed]
      cases dest with
      | program => exact ⟨_, rfl⟩
      | always | sometimes => exact ⟨_, rfl⟩
    obtain ⟨lead, hlead, hwritten, -⟩ := startLine_of_written ho
    refine ⟨stream, lead, ho, hlead, ?_⟩
    have hrows := written_foldl_print (c := console.startLine dest) (by rwa [minimal_startLine])
      ((Panel.framedRows c).map (· ++ "\n"))
    rw [List.foldl_map, hwritten, List.map_map] at hrows
    rw [showRegisters, Panel.rows, hframed]
    exact hrows
  · simp only [List.forall_mem_cons, List.not_mem_nil, false_implies, implies_true, and_true]
    refine ⟨?_, ?_, ?_⟩
    · rw [Panel.looksLike_top.width_eq]
      rfl
    · rw [Panel.looksLike_heading.width_eq]
      rfl
    · rw [Panel.looksLike_bottom.width_eq]
      rfl
  · intro register hregister
    have hrow := Panel.registerRow_spec hregister
    exact ⟨hrow.width, hrow.int, hrow.uint⟩

/-- What is shown of the accumulator is 65535 as an `int` and -1 as a `uint`. -/
theorem register_panel_as_seen_complemented :
    (initial true).minimal = false ∧
    ("AC", 0xFFFF) ∈ Panel.registers complemented ∧
    Panel.shownUnder? "int" (Panel.registerRow "AC" 0xFFFF) = some "65535" ∧
    Panel.shownUnder? "uint" (Panel.registerRow "AC" 0xFFFF) = some "-1" := by
  have hmem := Panel.mem_registers_complemented
  have hrow := (@register_panel_as_seen (initial true) rfl .always complemented).2.2.2.2 _ hmem
  exact ⟨rfl, hmem, hrow.2⟩

/-- So the lines are of different widths, and the titles are not those of the numbers under them. -/
theorem register_panel_misleads :
    (¬∃ width, ∀ row ∈ Panel.framedRows complemented, visibleWidth row = width) ∧
    ¬∀ register ∈ Panel.registers complemented,
      Panel.shownUnder? "int" (Panel.registerRow register.1 register.2) =
        some (toString register.2.toInt) ∧
      Panel.shownUnder? "uint" (Panel.registerRow register.1 register.2) =
        some (toString register.2.toNat) := by
  refine ⟨?_, ?_⟩
  · intro h
    obtain ⟨width, hwidth⟩ := h
    have hheading : visibleWidth Panel.heading = width := hwidth _ (by simp [Panel.framedRows])
    have hflags : visibleWidth (Panel.flagRow complemented) = width :=
      hwidth _ (by simp [Panel.framedRows])
    have hforty : visibleWidth Panel.heading = 40 := Panel.looksLike_heading.width_eq
    have hdigits : (toString complemented.sc).length = 1 := by
      rw [Panel.sc_complemented]
      rfl
    rw [Panel.visibleWidth_flagRow, hdigits] at hflags
    omega
  · intro h
    have hmem := Panel.mem_registers_complemented
    have hint := (h _ hmem).1
    rw [(Panel.registerRow_spec hmem).int] at hint
    exact absurd hint (by decide)

end Console

end BasicComputer
