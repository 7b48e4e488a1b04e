import BasicComputer.Proofs.Assembly.Listing
import BasicComputer.Proofs.Assembly.Relocation
import BasicComputer.Proofs.Assembly.Spacing

/-! # Assembling what was read

Where the tokens of a program stand has no part in its words. A program is assembled to the same words as its
lines, read one by one wherever they may stand, also where a literal on a line is not known but for what
it denotes. -/

namespace BasicComputer

/-! ## Lines that have been read -/

/-- A token with this spelling that stands nowhere. -/
def Token.unplaced : TokenKind × String → Token
  | (kind, lexeme) => ⟨kind, lexeme, ⟨0, 0⟩⟩

/-- Lays out the next line, which has been read. -/
def Layout.addRead (l : Layout) (line : Line) : Except SourceError Layout :=
  if l.ended then .ok l else do return (← l.define line.label).place ⟨0, 0⟩ line

/-- Assembles lines that have been read. -/
def assembleLines (lines : List Line) : Except SourceError Image := do
  (← lines.foldlM Layout.addRead .empty).image

/-- Every cell that the image has a word for, with the word. -/
def Image.contents (image : Image) : List (Address × Word) :=
  image.words.map fun w => (w.address.address, w.word)

/-- The text is a single line, and reads like this wherever it stands. -/
structure ReadsLike (text : String) (line : Line) : Prop where
  single : '\n' ∉ text.toList
  reads : ∀ offset, ∃ tokens line', TextLine.tokens ⟨offset, text.toList⟩ = .ok tokens ∧
    Line.read tokens = .ok line' ∧ line'.Alike (fun _ _ => True) line

theorem joins_true : Joins fun _ _ => True := fun _ _ _ _ _ _ => trivial

theorem readsLike_of_scans {text : String} {words : List (TokenKind × String)} {line : Line}
    (hsingle : '\n' ∉ text.toList) (hs : Scans text.toList words)
    (hread : Line.read (words.map Token.unplaced) = .ok line) : ReadsLike text line where
  single := hsingle
  reads offset := by
    obtain ⟨tokens, htokens, hwords⟩ := hs.exists_tokens offset
    have halike : List.Forall₂ (Token.Alike fun _ _ => True) tokens (words.map Token.unplaced) := by
      rw [← hwords, List.map_map, List.forall₂_map_right_iff, List.forall₂_same]
      exact fun t _ => ⟨rfl, rfl, trivial⟩
    have hagree := read_alike joins_true halike
    rw [hread] at hagree
    generalize hl : Line.read tokens = line' at hagree
    cases hagree with
    | ok halike => exact ⟨tokens, _, htokens, hl, halike⟩

/-! ## Lines that are known letter by letter -/

namespace Scan

/-- What tokens are spelled does not depend on where they stand. -/
theorem spelling_scanFrom (offset : Nat) (text : List Char) : ∀ offset',
    (scanFrom offset' text).tokens.map Token.spelling =
        (scanFrom offset text).tokens.map Token.spelling ∧
      (scanFrom offset' text).fault.isNone = (scanFrom offset text).fault.isNone := by
  fun_induction scanFrom offset text with
  | case1 offset =>
      intro offset'
      rw [scanFrom]
      exact ⟨rfl, rfl⟩
  | case2 offset c tail hlead =>
      intro offset'
      rw [scanFrom]
      simp [hlead]
  | case3 offset c tail lead hlead run after stop lexeme hlabel ih =>
      intro offset'
      obtain ⟨htokens, hfault⟩ := ih (offset' + byteLength run + 1)
      rw [scanFrom]
      simp only [hlead]
      rw [if_pos hlabel]
      exact ⟨congrArg (_ :: ·) htokens, hfault⟩
  | case4 offset c tail lead hlead run after stop lexeme hlabel ih =>
      intro offset'
      obtain ⟨htokens, hfault⟩ := ih (offset' + byteLength run)
      rw [scanFrom]
      simp only [hlead]
      rw [if_neg hlabel]
      exact ⟨congrArg (_ :: ·) htokens, hfault⟩

end Scan

/-- The spelling of a line's tokens but trivia. -/
def spelling (line : String) : List (TokenKind × String) :=
  ((Scan.scanFrom 0 line.toList).tokens.map Token.spelling).filter (!·.1.isTrivia)

theorem scans_spelling {line : String} (h : (Scan.scanFrom 0 line.toList).fault.isNone = true) :
    Scans line.toList (spelling line) := by
  intro offset
  obtain ⟨htokens, hnone⟩ := Scan.spelling_scanFrom 0 line.toList offset
  rw [h, Option.isNone_iff_eq_none] at hnone
  refine ⟨(Scan.scanFrom offset line.toList).tokens, by rw [← hnone], ?_⟩
  rw [spelling, ← htokens, List.filter_map]
  rfl

/-- The line as it is read, or else an empty line. -/
def readLine (text : String) : Line :=
  match Line.read ((spelling text).map Token.unplaced) with
  | .ok line => line
  | .error _ => ⟨none, .nothing⟩

/-- The text is a single line that can be read. -/
def isReadable (text : String) : Bool :=
  !text.toList.contains '\n' && (Scan.scanFrom 0 text.toList).fault.isNone &&
    (Line.read ((spelling text).map Token.unplaced)).isOk

theorem readsLike_readLine {text : String} (h : isReadable text = true) :
    ReadsLike text (readLine text) := by
  rw [isReadable, Bool.and_eq_true, Bool.and_eq_true, Bool.not_eq_true', List.contains_eq_mem,
    decide_eq_false_iff_not] at h
  obtain ⟨⟨hsingle, hfault⟩, hok⟩ := h
  refine readsLike_of_scans hsingle (scans_spelling hfault) ?_
  rw [readLine]
  cases hread : Line.read ((spelling text).map Token.unplaced) with
  | ok line => rfl
  | error e =>
      rw [hread] at hok
      cases hok

theorem forall₂_readsLike {texts : List String} (h : texts.all isReadable = true) :
    List.Forall₂ ReadsLike texts (texts.map readLine) := by
  rw [List.forall₂_map_right_iff, List.forall₂_same]
  exact fun text htext => readsLike_readLine (List.all_eq_true.mp h text htext)

/-! ## Lines with a number -/

/-- The text is the word in one to four hexadecimal digits. -/
structure Word.WrittenAs (w : Word) (text : String) : Prop where
  length_le : text.toList.length ≤ 4
  denotes : Numeral.Denotes 16 text.toList w.toNat

theorem Directive.covers_name (d : Directive) : Lead.word.covers d.name.toList = true := by
  cases d <;> decide

theorem Directive.upperCase_name (d : Directive) : upperCase d.name.toList = d.name := by
  cases d <;> decide

section

variable {name : String} (hname : Lead.word.covers name.toList = true)

include hname

/-- A label, a directive and a literal that is a single token. -/
theorem readsLike_of_literal {literal : List Char} {word : TokenKind × String} (d : Directive)
    (hgap : literal.head?.all (!isGap ·) = true) (hsingle : '\n' ∉ literal)
    (hliteral : Scans literal [word]) {line : Line}
    (hread : Line.read ([(.label, upperCase name.toList), (.directive d, d.name), word].map
      Token.unplaced) = .ok line) :
    ReadsLike (name ++ ", " ++ d.name ++ " " ++ String.ofList literal) line := by
  have hkind : TokenKind.ofWord d.name = .directive d := by cases d <;> decide
  have hdirective : Scans (d.name.toList ++ ' ' :: literal) [(.directive d, d.name), word] := by
    have hrun := Scans.run (.inl rfl) d.covers_name rfl (.gap hgap hliteral)
    rwa [d.upperCase_name, Lead.kind, hkind] at hrun
  have hseparated : (d.name.toList ++ ' ' :: literal).head?.all (!isGap ·) = true := by
    cases d <;> rfl
  have htext : (name ++ ", " ++ d.name ++ " " ++ String.ofList literal).toList =
      name.toList ++ ',' :: ' ' :: (d.name.toList ++ ' ' :: literal) := by simp
  have hnewline (run : List Char) (h : Lead.word.covers run = true) : '\n' ∉ run :=
    Lead.newline_not_mem (by decide) h
  refine readsLike_of_scans ?_ ?_ hread
  · rw [htext]
    simp [hnewline _ hname, hnewline _ d.covers_name, hsingle]
  · rw [htext]
    exact .label hname (.gap hseparated hdirective)

theorem exists_readsLike_negative {n : Nat} (hn : n ≤ 32768) :
    ∃ literal : Token, literal.decimal = .ok (BitVec.ofInt 16 (-n)) ∧
      ReadsLike (name ++ ", DEC -" ++ toString n)
        ⟨some (Token.unplaced (.label, upperCase name.toList)), .word (.decimal literal)⟩ := by
  have hdigits : Numeral.Denotes 10 (toString n).toList n := by
    simpa using Numeral.denotes_toDigits (by decide) (by decide) n
  have halphanum := isAlphanum_of_denotes (by decide) hdigits
  have hcovers : Lead.number.covers ('-' :: (toString n).toList) = true := by
    rw [Lead.covers, Bool.and_eq_true, List.all_eq_true]
    exact ⟨by decide, halphanum⟩
  have hscans := Scans.run (.inr rfl) hcovers rfl .nil
  rw [List.append_nil] at hscans
  have hsingle : '\n' ∉ '-' :: (toString n).toList := Lead.newline_not_mem (by decide) hcovers
  let word := Token.unplaced (.number, upperCase ('-' :: (toString n).toList))
  have hoperand : word.IsOperand := .number rfl
  refine ⟨word.operand, ?_, ?_⟩
  · have hlexeme : word.operand.lexeme.toList = '-' :: (toString n).toList.map Char.toUpper := by
      rw [Token.lexeme_operand]
      exact String.toList_ofList
    have hdenotes : word.operand.DenotesDecimal (-n) := by
      refine ⟨rfl, ?_, by omega, by omega⟩
      rw [hlexeme]
      exact .minus (Numeral.denotes_map_toUpper.mpr hdigits)
    exact Token.decimal_eq_ok_iff.mpr ⟨-n, hdenotes, rfl⟩
  · have hread := readsLike_of_literal hname .dec (by rfl) hsingle hscans
      (Line.Form.labeled rfl (.decimal rfl hoperand)).read
    have htext : name ++ ", " ++ Directive.dec.name ++ " " ++
        String.ofList ('-' :: (toString n).toList) = name ++ ", DEC -" ++ toString n :=
      String.toList_inj.mp (by simp [Directive.name])
    rwa [htext] at hread

theorem exists_readsLike_hexadecimal {w : Word} {digits : String} (h : w.WrittenAs digits) :
    ∃ literal : Token, literal.hexadecimal 0xFFFF = .ok w.toNat ∧
      ReadsLike (name ++ ", HEX " ++ digits)
        ⟨some (Token.unplaced (.label, upperCase name.toList)), .word (.hexadecimal literal)⟩ := by
  have halphanum := isAlphanum_of_denotes (by decide) h.denotes
  obtain ⟨lead, hlead, hgap, hscans⟩ := Scans.exists_of_isAlphanum h.denotes.nonempty halphanum
  have hsingle : '\n' ∉ digits.toList := fun hmem => by cases halphanum _ hmem
  let word := Token.unplaced (lead.kind (upperCase digits.toList), upperCase digits.toList)
  have hoperand : word.IsOperand := isOperand_of_lead hlead rfl
  refine ⟨word.operand, ?_, ?_⟩
  · have hw := w.isLt
    refine Token.hexadecimal_eq_ok_iff.mpr ⟨?_, by omega⟩
    exact (denotesHexadecimal_iff_of_upperCase (Token.lexeme_operand word)).mpr ⟨h.length_le, h.denotes⟩
  · have hread := readsLike_of_literal hname .hex hgap hsingle hscans
      (Line.Form.labeled rfl (.hexadecimal rfl hoperand)).read
    have htext : name ++ ", " ++ Directive.hex.name ++ " " ++ String.ofList digits.toList =
        name ++ ", HEX " ++ digits := String.toList_inj.mp (by simp [Directive.name])
    rwa [htext] at hread

end

/-! ## The words of the lines -/

/-- A line is laid out as it is read. -/
theorem Layout.Alike.addRead {l l' : Layout} (h : l.Alike (fun _ _ => True) 0 l')
    {tokens : List Token} {line line' : Line} (hread : Line.read tokens = .ok line)
    (hline : line.Alike (fun _ _ => True) line') :
    Agree (SourceError.Alike fun _ _ => True) (Layout.Alike (fun _ _ => True) 0)
      (l.extend (.ok tokens)) (l'.addRead line') := by
  rw [Layout.extend, Layout.addRead, ← h.ended_eq]
  split
  · exact .ok h
  · change Agree _ _ (l.addLine tokens) _
    have hplaced (span : Span) : Agree (SourceError.Alike fun _ _ => True)
        (Layout.Alike (fun _ _ => True) 0) (l.define line.label >>= fun k => .ok (k.place span line))
        (l'.define line'.label >>= fun k => .ok (k.place ⟨0, 0⟩ line')) :=
      (h.define hline.label).bind fun _ _ hk => .ok (hk.place trivial hline (.inl rfl))
    cases tokens with
    | nil =>
        cases hread
        exact hplaced ⟨0, 0⟩
    | cons first rest =>
        rw [Layout.addLine, hread]
        exact hplaced _

theorem agree_foldlM_addRead {texts : List String} {lines : List Line}
    (h : List.Forall₂ ReadsLike texts lines) {l l' : Layout}
    (hl : l.Alike (fun _ _ => True) 0 l') (offset : Nat) :
    Agree (SourceError.Alike fun _ _ => True) (Layout.Alike (fun _ _ => True) 0)
      (((TextLine.number offset (texts.map String.toList)).map TextLine.tokens).foldlM Layout.extend l)
      (lines.foldlM Layout.addRead l') := by
  induction h generalizing l l' offset with
  | nil => exact .ok hl
  | cons htext _ ih =>
      obtain ⟨tokens, line, htokens, hread, hline⟩ := htext.reads offset
      rw [List.map_cons, TextLine.number, List.map_cons, List.foldlM_cons, List.foldlM_cons, htokens]
      exact (hl.addRead hread hline).bind fun _ _ hk => ih hk _

/-- A text is assembled as its lines are read, but for spans. -/
theorem assemble_read {texts : List String} {lines : List Line} (hne : texts ≠ [])
    (h : List.Forall₂ ReadsLike texts lines) :
    Agree (SourceError.Alike fun _ _ => True) (Image.Alike fun _ _ => True)
      (assemble ("\n".intercalate texts)) (assembleLines lines) := by
  have hsingle : ∀ text ∈ texts, '\n' ∉ text.toList := by
    intro text htext
    obtain ⟨line, hline⟩ := Program.exists_forall₂_iff.mp ⟨_, h⟩ text htext
    exact hline.single
  have hlayout := agree_foldlM_addRead h Layout.Alike.empty 0
  rw [← Program.ofText_intercalate hne hsingle, ← Program.layOut_eq_foldlM] at hlayout
  exact hlayout.bind fun _ _ hl => hl.image_of_zero

theorem Image.Alike.contents_eq {R : Span → Span → Prop} {image image' : Image}
    (h : image.Alike R image') : image.contents = image'.contents := by
  refine forall₂_iff_map_eq.mp (h.words.imp fun w w' hw => ?_)
  rw [hw.1, hw.2.1]

theorem exists_image_of_read {texts : List String} {lines : List Line} (hne : texts ≠ [])
    (h : List.Forall₂ ReadsLike texts lines) {image : Image} (hi : assembleLines lines = .ok image) :
    ∃ image', assemble ("\n".intercalate texts) = .ok image' ∧ image'.entry = image.entry ∧
      image'.contents = image.contents := by
  have hagree := assemble_read hne h
  rw [hi] at hagree
  generalize assemble ("\n".intercalate texts) = result at hagree
  cases hagree with
  | ok halike => exact ⟨_, rfl, halike.entry_eq, halike.contents_eq⟩

end BasicComputer
