import BasicComputer.Proofs.Console.Streams
import BasicComputer.Proofs.Assembly.Relocation

/-! # Printing in pieces

As long as no escape sequence is cut in two, it makes no difference whether the pieces of a text are printed
one by one or joined. So the register panel may be printed cell by cell as well as row by row. -/

namespace BasicComputer

namespace Console

/-- The two consoles have the same modes, have written the same texts to either stream and show the same,
though perhaps in other pieces. -/
structure SameView (c c' : Console) : Prop where
  minimal_eq : c.minimal = c'.minimal
  colored_eq : c.colored = c'.colored
  lineStart_eq : c.lineStart = c'.lineStart
  text_eq : ∀ stream, c.text stream = c'.text stream
  shown_eq : c.shown = c'.shown

variable {c c' c'' : Console} {a b : String}

theorem SameView.refl (c : Console) : c.SameView c := ⟨rfl, rfl, rfl, fun _ => rfl, rfl⟩

theorem SameView.symm (h : c.SameView c') : c'.SameView c :=
  ⟨h.minimal_eq.symm, h.colored_eq.symm, h.lineStart_eq.symm, fun s => (h.text_eq s).symm, h.shown_eq.symm⟩

theorem SameView.trans (h : c.SameView c') (h' : c'.SameView c'') : c.SameView c'' :=
  ⟨h.minimal_eq.trans h'.minimal_eq, h.colored_eq.trans h'.colored_eq,
    h.lineStart_eq.trans h'.lineStart_eq, fun s => (h.text_eq s).trans (h'.text_eq s),
    h.shown_eq.trans h'.shown_eq⟩

/-! ## Pieces of a text -/

theorem text_emit_eq (c : Console) (stream other : Stream) (text : String) :
    (c.emit other text).text stream = c.text stream ++ if other = stream then text else "" := by
  split
  next h =>
    subst h
    exact text_emit c other text
  next h =>
    rw [text_emit_of_ne h, String.append_empty]

theorem SameView.emit (h : c.SameView c') (stream : Stream) (text : String) :
    (c.emit stream text).SameView (c'.emit stream text) where
  minimal_eq := h.minimal_eq
  colored_eq := h.colored_eq
  lineStart_eq := congrArg (lineStartAfter · text.toList) h.lineStart_eq
  text_eq s := by rw [text_emit_eq, text_emit_eq, h.text_eq]
  shown_eq := by rw [shown_emit, shown_emit, h.shown_eq]

theorem SameView.print (h : c.SameView c') (dest : Destination) (text : String) :
    (c.print dest text).SameView (c'.print dest text) := by
  rw [print_eq, print_eq, h.minimal_eq]
  split
  · exact h.emit _ _
  · exact h

theorem lineStartAfter_append (lineStart : Bool) (h : Closed a) :
    lineStartAfter (lineStartAfter lineStart a.toList) b.toList =
      lineStartAfter lineStart (a ++ b).toList := by
  unfold lineStartAfter
  rw [String.toList_append, plain_append h, List.getLast?_append]
  cases (plain b.toList).getLast? <;> rfl

theorem sameView_emit_append (c : Console) (stream : Stream) (h : Closed a) :
    ((c.emit stream a).emit stream b).SameView (c.emit stream (a ++ b)) where
  minimal_eq := rfl
  colored_eq := rfl
  lineStart_eq := lineStartAfter_append c.lineStart h
  text_eq s := by
    rw [text_emit_eq, text_emit_eq, text_emit_eq, String.append_assoc]
    split <;> simp
  shown_eq := by
    rw [shown_emit, shown_emit, shown_emit, String.toList_append, plain_append h, List.append_assoc]

theorem closed_rendered (madePlain : Bool) (h : Closed a) : Closed (rendered madePlain a) := by
  cases madePlain with
  | false => exact h
  | true =>
      refine closed_of_not_mem ?_
      rw [rendered, if_pos rfl, String.toList_ofList]
      exact not_mem_plainFrom false _

theorem rendered_append (madePlain : Bool) (h : Closed a) :
    rendered madePlain (a ++ b) = rendered madePlain a ++ rendered madePlain b := by
  cases madePlain with
  | false => rfl
  | true => simp [rendered, plain_append h]

/-- A text may be printed in two pieces. -/
theorem sameView_print_append (c : Console) (dest : Destination) (h : Closed a) :
    ((c.print dest a).print dest b).SameView (c.print dest (a ++ b)) := by
  rw [print_eq _ dest b, minimal_print, print_eq, print_eq]
  split
  next stream madePlain ho =>
    rw [rendered_append madePlain h]
    exact sameView_emit_append c stream (closed_rendered madePlain h)
  next => exact .refl c

theorem sameView_print_empty (c : Console) (dest : Destination) : c.SameView (c.print dest "") := by
  rw [print_eq]
  split
  next stream madePlain ho =>
    have hempty : rendered madePlain "" = "" := by cases madePlain <;> rfl
    rw [hempty]
    exact ⟨rfl, rfl, rfl, fun s => by simp [text_emit_eq], by rw [shown_emit]; simp [plain, plainFrom]⟩
  next => exact .refl c

theorem SameView.foldl {α : Type} {f g : Console → α → Console}
    (hfg : ∀ {c c'} (x : α), SameView c c' → SameView (f c x) (g c' x)) (h : c.SameView c')
    (xs : List α) : (xs.foldl f c).SameView (xs.foldl g c') := by
  induction xs generalizing c c' with
  | nil => exact h
  | cons x xs ih => exact ih (hfg x h)

/-- A text may be printed in any number of pieces. -/
theorem sameView_foldl_print (c : Console) (dest : Destination) {pieces : List String}
    (h : ∀ piece ∈ pieces, Closed piece) :
    (pieces.foldl (·.print dest ·) c).SameView (c.print dest (String.join pieces)) := by
  induction pieces generalizing c with
  | nil => exact sameView_print_empty c dest
  | cons piece pieces ih =>
      obtain ⟨hpiece, hpieces⟩ := List.forall_mem_cons.mp h
      have hjoin := (ih (c.print dest piece) hpieces).trans (sameView_print_append c dest hpiece)
      rwa [← String.join_cons] at hjoin

end Console

/-! ## Closed cells -/

theorem not_mem_of_denotes {c : Char} (hc : c.isAlphanum = false) {base n : Nat} {digits : List Char}
    (hbase : base ≤ 36) (h : Numeral.Denotes base digits n) : c ∉ digits := by
  intro hmem
  cases hc.symm.trans (isAlphanum_of_denotes hbase h c hmem)

theorem not_mem_toDigits {c : Char} (h : c.isDigit = false) (n : Nat) : c ∉ Nat.toDigits 10 n := by
  intro hmem
  have hdigit : c.isDigit = true := Nat.isDigit_of_mem_toDigits (by decide) (by decide) hmem
  cases h.symm.trans hdigit

theorem closed_natToString (n : Nat) : Closed (toString n) :=
  closed_of_not_mem (by simpa using not_mem_toDigits (by decide) n)

theorem closed_intToString (i : Int) : Closed (toString i) := by
  cases i with
  | ofNat n => exact closed_natToString n
  | negSucc n => exact (show Closed "-" by decide).append (closed_natToString (n + 1))

namespace Hex

variable {c : Char} (hc : c.isAlphanum = false) (width n : Nat)

include hc

theorem not_mem_lower : c ∉ (lower width n).toList := by
  have hdigits := Numeral.denotes_toDigits (by decide : 1 < 16) (by decide) n
  have hzero : c ≠ '0' := ne_of_apply_ne Char.isAlphanum (by simp [hc])
  simp [lower, List.leftpad, hzero, not_mem_of_denotes hc (by decide) hdigits]

theorem not_mem_upper : c ∉ (upper width n).toList := by
  have hdigits := Numeral.denotes_map_toUpper.mpr
    (Numeral.denotes_toDigits (by decide : 1 < 16) (by decide) n)
  have hzero : c ≠ '0' := ne_of_apply_ne Char.isAlphanum (by simp [hc])
  have hnone := not_mem_of_denotes hc (by decide) hdigits
  rw [upper, String.toList_ofList, List.leftpad, List.mem_append, not_or]
  exact ⟨by simp [hzero], hnone⟩

omit hc

theorem closed_lower : Closed (lower width n) := closed_of_not_mem (not_mem_lower (by decide) width n)

theorem closed_upper : Closed (upper width n) := closed_of_not_mem (not_mem_upper (by decide) width n)

end Hex

theorem closed_replicate {c : Char} (h : '\x1b' ≠ c) (n : Nat) : Closed (String.ofList (List.replicate n c)) := by
  refine closed_of_not_mem ?_
  rw [String.toList_ofList]
  exact fun hmem => h (List.eq_of_mem_replicate hmem)

namespace Column

theorem alignRight_eq (width : Nat) (text : String) :
    alignRight width text = String.ofList (List.replicate (width - text.toList.length) ' ') ++ text := by
  simp [alignRight, List.leftpad]

theorem alignLeft_eq (width : Nat) (text : String) :
    alignLeft width text = text ++ String.ofList (List.replicate (width - text.toList.length) ' ') := by
  simp [alignLeft, List.rightpad]

variable {text : String} (h : Closed text)

include h

theorem closed_alignRight (width : Nat) : Closed (alignRight width text) := by
  rw [alignRight_eq]
  exact (closed_replicate (by decide) _).append h

theorem closed_alignLeft (width : Nat) : Closed (alignLeft width text) := by
  rw [alignLeft_eq]
  exact h.append (closed_replicate (by decide) _)

end Column

namespace Panel

section

variable {text : String} (h : Closed text)

include h

theorem closed_dim : Closed (dim text) :=
  ((show Closed "\x1b[2m" by decide).append h).append (by decide)

theorem closed_strong : Closed (strong text) :=
  ((show Closed "\x1b[1m" by decide).append h).append (by decide)

end

/-- Control characters are not among the printable ones. -/
theorem control_ne_ofNat {c : Char} (hc : c.toNat ≤ 0x20) {n : Nat} (hlow : 0x21 ≤ n) (hhigh : n ≤ 0x7E) :
    c ≠ Char.ofNat n := by
  rintro rfl
  have hvalid : n.isValidChar := .inl (by omega)
  have hself : Char.ofNat n = Char.ofNatAux n hvalid := dif_pos hvalid
  rw [hself] at hc
  have htoNat : (Char.ofNatAux n hvalid).toNat = n := rfl
  omega

theorem closed_characterCell (w : Word) : Closed (characterCell w) := by
  unfold characterCell
  split
  case h_9 =>
    split
    next hn =>
      have hne : '\x1b' ≠ Char.ofNat _ := control_ne_ofNat (by decide) hn.1 hn.2
      exact Column.closed_alignLeft (closed_of_not_mem (by simpa using hne)) 3
    next => split <;> decide
  all_goals decide

/-! ## The pieces of the panel -/

/-- The pieces in which a word is printed. -/
def wordPieces (w : Word) : List String :=
  ["0x" ++ Hex.lower 4 w.toNat ++ "  ", Column.alignRight 6 (toString w.toNat) ++ "  ",
    Column.alignRight 6 (toString w.toInt) ++ "  ", "   ", characterCell w]

def registerPieces (name : String) (w : Word) : List String :=
  [dim "│", " " ++ strong (Column.alignLeft 4 name) ++ "  "] ++ wordPieces w ++ [" " ++ dim "│" ++ "\n"]

def flagPieces (c : Computer) : List String :=
  let cells := (flags c).map fun (name, b) => " " ++ name ++ " " ++ bit b
  let sc := "  SC " ++ toString c.sc
  let width := (String.join cells ++ sc).length
  [dim "│"] ++ cells.map strong ++
    [sc, String.ofList (List.replicate (38 - width) ' '), dim "│" ++ "\n"]

/-- The pieces in which the rows of the panel are printed. -/
def rowPieces (minimal : Bool) (c : Computer) : List (List String) :=
  if minimal then (minimalRows c).map fun row => [row ++ "\n"]
  else
    [[top ++ "\n"], [heading ++ "\n"]] ++ (registers c).map (fun (name, w) => registerPieces name w) ++
      [flagPieces c, [bottom ++ "\n"]]

theorem join_wordPieces (w : Word) : String.join (wordPieces w) = wordCells w := by
  have hgap : "  " ++ "   " = "     " := by decide
  simp only [wordPieces, wordCells, String.join_cons, String.join_nil, String.append_empty]
  rw [← hgap]
  simp only [String.append_assoc]

theorem join_registerPieces (name : String) (w : Word) :
    String.join (registerPieces name w) = registerRow name w ++ "\n" := by
  rw [registerPieces, String.join_append, String.join_append, join_wordPieces]
  simp [registerRow, String.append_assoc]

theorem join_flagPieces (c : Computer) : String.join (flagPieces c) = flagRow c ++ "\n" := by
  simp [flagPieces, flagRow, String.append_assoc]

theorem join_rowPieces (minimal : Bool) (c : Computer) :
    (rowPieces minimal c).map String.join = (rows minimal c).map (· ++ "\n") := by
  cases minimal with
  | true => simp [rowPieces, rows, Function.comp_def]
  | false => simp [rowPieces, rows, framedRows, Function.comp_def, join_registerPieces, join_flagPieces]

theorem closed_bit (b : Bool) : Closed (bit b) := by cases b <;> decide

theorem mem_names_of_mem_registers {c : Computer} {name : String} {w : Word} (h : (name, w) ∈ registers c) :
    name ∈ ["AC", "DR", "AR", "IR", "PC", "TR", "INPR", "OUTR"] := by
  have hnames : (registers c).map (·.1) = ["AC", "DR", "AR", "IR", "PC", "TR", "INPR", "OUTR"] := rfl
  rw [← hnames]
  exact List.mem_map.mpr ⟨_, h, rfl⟩

theorem closed_of_mem_registers {c : Computer} {name : String} {w : Word} (h : (name, w) ∈ registers c) :
    Closed name := by
  have hall : ∀ name ∈ ["AC", "DR", "AR", "IR", "PC", "TR", "INPR", "OUTR"], Closed name := by decide
  exact hall name (mem_names_of_mem_registers h)

theorem mem_names_of_mem_flags {c : Computer} {name : String} {b : Bool} (h : (name, b) ∈ flags c) :
    name ∈ ["E", "S", "I", "R", "IEN", "FGI", "FGO"] := by
  have hnames : (flags c).map (·.1) = ["E", "S", "I", "R", "IEN", "FGI", "FGO"] := rfl
  rw [← hnames]
  exact List.mem_map.mpr ⟨_, h, rfl⟩

theorem closed_of_mem_flags {c : Computer} {name : String} {b : Bool} (h : (name, b) ∈ flags c) :
    Closed name := by
  have hall : ∀ name ∈ ["E", "S", "I", "R", "IEN", "FGI", "FGO"], Closed name := by decide
  exact hall name (mem_names_of_mem_flags h)

theorem closed_of_mem_wordPieces {w : Word} : ∀ piece ∈ wordPieces w, Closed piece := by
  simp only [wordPieces, List.forall_mem_cons, List.not_mem_nil, false_implies, implies_true, and_true]
  refine ⟨?_, ?_, ?_, by decide, closed_characterCell w⟩
  · exact ((show Closed "0x" by decide).append (Hex.closed_lower 4 _)).append (by decide)
  · exact (Column.closed_alignRight (closed_natToString _) 6).append (by decide)
  · exact (Column.closed_alignRight (closed_intToString _) 6).append (by decide)

theorem closed_of_mem_registerPieces {name : String} (hname : Closed name) (w : Word) :
    ∀ piece ∈ registerPieces name w, Closed piece := by
  have hstrong := closed_strong (Column.closed_alignLeft hname 4)
  simp only [registerPieces, List.forall_mem_append, List.forall_mem_cons, List.not_mem_nil, false_implies,
    implies_true, and_true]
  refine ⟨⟨⟨by decide, ?_⟩, closed_of_mem_wordPieces⟩, by decide⟩
  exact ((show Closed " " by decide).append hstrong).append (by decide)

theorem closed_of_mem_flagPieces (c : Computer) : ∀ piece ∈ flagPieces c, Closed piece := by
  simp only [flagPieces, List.forall_mem_append, List.forall_mem_cons, List.not_mem_nil, false_implies,
    implies_true, and_true, List.forall_mem_map, Prod.forall]
  refine ⟨⟨by decide, fun name b hflag => closed_strong ?_⟩, ?_, closed_replicate (by decide) _, by decide⟩
  · exact (((show Closed " " by decide).append (closed_of_mem_flags hflag)).append (by decide)).append
      (closed_bit b)
  · exact (show Closed "  SC " by decide).append (closed_natToString _)

theorem closed_of_mem_minimalRows (c : Computer) : ∀ row ∈ minimalRows c, Closed row := by
  simp only [minimalRows, List.forall_mem_append, List.forall_mem_cons, List.not_mem_nil, false_implies,
    implies_true, and_true, List.forall_mem_map, Prod.forall]
  refine ⟨⟨fun name w hregister => ?_, ?_⟩, fun name b hflag => ?_⟩
  · exact ((closed_of_mem_registers hregister).append (by decide)).append (Hex.closed_upper 4 _)
  · exact (show Closed "SC " by decide).append (closed_natToString _)
  · exact ((closed_of_mem_flags hflag).append (by decide)).append (closed_bit b)

theorem closed_rule : Closed rule := closed_replicate (by decide) 38

theorem closed_top : Closed top :=
  closed_dim (((show Closed "┌" by decide).append closed_rule).append (by decide))

theorem closed_bottom : Closed bottom :=
  closed_dim (((show Closed "└" by decide).append closed_rule).append (by decide))

theorem closed_heading : Closed heading := by decide +kernel

/-- No escape sequence is cut in two. -/
theorem closed_of_mem_rowPieces (minimal : Bool) (c : Computer) :
    ∀ pieces ∈ rowPieces minimal c, ∀ piece ∈ pieces, Closed piece := by
  have hnewline : Closed "\n" := by decide
  cases minimal with
  | true =>
      simp only [rowPieces, if_true, List.forall_mem_map, List.forall_mem_singleton]
      exact fun row hrow => (closed_of_mem_minimalRows c row hrow).append hnewline
  | false =>
      simp only [rowPieces, Bool.false_eq_true, if_false, List.forall_mem_append, List.forall_mem_cons,
        List.not_mem_nil, false_implies, implies_true, and_true, List.forall_mem_map, Prod.forall]
      refine ⟨⟨⟨closed_top.append hnewline, closed_heading.append hnewline⟩, fun name w hregister => ?_⟩,
        closed_of_mem_flagPieces c, closed_bottom.append hnewline⟩
      exact closed_of_mem_registerPieces (closed_of_mem_registers hregister) w

end Panel

/-! ## The panel in pieces -/

namespace Console

/-- Prints the panel cell by cell. -/
def showRegisterPieces (console : Console) (dest : Destination) (c : Computer) : Console :=
  (Panel.rowPieces console.minimal c).flatten.foldl (·.print dest ·) (console.startLine dest)

/-- Prints a word cell by cell, or in minimal mode at once. -/
def showWordPieces (console : Console) (dest : Destination) (w : Word) : Console :=
  if console.minimal then console.print dest (toString w.toInt)
  else (Panel.wordPieces w).foldl (·.print dest ·) console

theorem sameView_showWordPieces (console : Console) (dest : Destination) (w : Word) :
    (console.showWordPieces dest w).SameView (console.showWord dest w) := by
  unfold showWordPieces showWord
  split
  · exact .refl _
  · rw [← Panel.join_wordPieces]
    exact sameView_foldl_print console dest Panel.closed_of_mem_wordPieces

/-- Printed cell by cell or row by row, the panel is the same. -/
theorem sameView_showRegisterPieces (console : Console) (dest : Destination) (c : Computer) :
    (console.showRegisterPieces dest c).SameView (console.showRegisters dest c) := by
  have hrows (rows : List (List String)) (h : ∀ pieces ∈ rows, ∀ piece ∈ pieces, Closed piece)
      (start : Console) :
      (rows.flatten.foldl (·.print dest ·) start).SameView
        ((rows.map String.join).foldl (·.print dest ·) start) := by
    induction rows generalizing start with
    | nil => exact .refl start
    | cons pieces rows ih =>
        obtain ⟨hpieces, hrest⟩ := List.forall_mem_cons.mp h
        rw [List.flatten_cons, List.foldl_append, List.map_cons, List.foldl_cons]
        exact (ih hrest _).trans
          (.foldl (fun row hsame => hsame.print dest row) (sameView_foldl_print start dest hpieces) _)
  have hpieces := hrows _ (Panel.closed_of_mem_rowPieces console.minimal c) (console.startLine dest)
  rw [Panel.join_rowPieces, List.foldl_map] at hpieces
  exact hpieces

end Console

end BasicComputer
