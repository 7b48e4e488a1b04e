import BasicComputer.Assembly.Image
import BasicComputer.Proofs.Source.Lines
import BasicComputer.Proofs.Text.Case

/-! # Letter case carries no meaning

The scanner treats a letter as it treats the same letter in upper case, and keeps it in upper case. So
nothing that is made of its tokens tells in which case a text was written. -/

namespace BasicComputer

/-! ## Characters -/

theorem isGap_toUpper (c : Char) : isGap c.toUpper = isGap c := by
  have hspace : (' ' : Char).isAlpha = false := by decide
  have htab : ('\t' : Char).isAlpha = false := by decide
  have hreturn : ('\r' : Char).isAlpha = false := by decide
  rw [isGap, isGap, toUpper_beq hspace, toUpper_beq htab, toUpper_beq hreturn]

namespace Lead

theorem of?_toUpper (c : Char) : of? c.toUpper = of? c := by
  have hslash : ('/' : Char).isAlpha = false := by decide
  have hnewline : ('\n' : Char).isAlpha = false := by decide
  have hplus : ('+' : Char).isAlpha = false := by decide
  have hminus : ('-' : Char).isAlpha = false := by decide
  rw [of?, of?, toUpper_beq hslash, toUpper_beq hnewline, isGap_toUpper, toUpper_beq hplus,
    toUpper_beq hminus, isDigit_toUpper, isAlpha_toUpper]

theorem continues_toUpper (lead : Lead) (c : Char) : lead.continues c.toUpper = lead.continues c := by
  have hnewline : ('\n' : Char).isAlpha = false := by decide
  cases lead with
  | comment => rw [continues, continues, bne, bne, toUpper_beq hnewline]
  | newline => rfl
  | gap => exact isGap_toUpper c
  | number | word => exact isAlphanum_toUpper c

/-- What begins no token is no letter. -/
theorem toUpper_eq_of_none {c : Char} (h : of? c = none) : c.toUpper = c := by
  apply toUpper_eq_self
  intro hlower
  have halpha : c.isAlpha = true := isAlpha_iff.mpr (.inr (isLower_iff.mp hlower))
  unfold of? at h
  grind

end Lead

/-! ## Texts -/

section

variable (text : List Char)

theorem takeWhile_map_toUpper (lead : Lead) :
    (text.map Char.toUpper).takeWhile lead.continues =
      (text.takeWhile lead.continues).map Char.toUpper := by
  rw [List.takeWhile_map]
  congr 2
  exact funext lead.continues_toUpper

theorem dropWhile_map_toUpper (lead : Lead) :
    (text.map Char.toUpper).dropWhile lead.continues =
      (text.dropWhile lead.continues).map Char.toUpper := by
  rw [List.dropWhile_map]
  congr 2
  exact funext lead.continues_toUpper

theorem head?_map_toUpper_eq_comma_iff :
    (text.map Char.toUpper).head? = some ',' ↔ text.head? = some ',' := by
  have hcomma : (',' : Char).isAlpha = false := by decide
  cases text with
  | nil => rfl
  | cons c text => simp [toUpper_eq_iff hcomma]

end

/-- A text is scanned as if it were in upper case. -/
theorem Scan.scanFrom_map_toUpper (offset : Nat) (text : List Char) :
    scanFrom offset (text.map Char.toUpper) = scanFrom offset text := by
  fun_induction scanFrom offset text with
  | case1 offset => rw [List.map_nil, scanFrom]
  | case2 offset c tail hlead =>
      rw [List.map_cons, Lead.toUpper_eq_of_none hlead, scanFrom]
      simp [hlead]
  | case3 offset c tail lead hlead run after stop lexeme hlabel ih =>
      -- In upper case the same run is taken, and what is left is what was left in upper case.
      obtain ⟨hword, hcomma⟩ := Bool.and_eq_true_iff.mp hlabel
      have hrun : c.toUpper :: (tail.takeWhile lead.continues).map Char.toUpper =
        run.map Char.toUpper := rfl
      have hafter : (after.map Char.toUpper).head? = some ',' :=
        (head?_map_toUpper_eq_comma_iff after).mpr (by simpa using hcomma)
      rw [List.map_cons, scanFrom_cons ((Lead.of?_toUpper c).trans hlead), takeWhile_map_toUpper,
        dropWhile_map_toUpper, hrun]
      refine (if_pos ⟨by simpa using hword, hafter⟩).trans ?_
      rw [upperCase_map_toUpper, byteLength_map_toUpper, ← List.map_tail, ih]
  | case4 offset c tail lead hlead run after stop lexeme hlabel ih =>
      have hrun : c.toUpper :: (tail.takeWhile lead.continues).map Char.toUpper =
        run.map Char.toUpper := rfl
      rw [List.map_cons, scanFrom_cons ((Lead.of?_toUpper c).trans hlead), takeWhile_map_toUpper,
        dropWhile_map_toUpper, hrun]
      refine (if_neg ?_).trans ?_
      · rintro ⟨rfl, hcomma⟩
        exact hlabel (by simpa using (head?_map_toUpper_eq_comma_iff after).mp hcomma)
      · rw [upperCase_map_toUpper, byteLength_map_toUpper, ih]

/-- Two texts that differ only in the case of letters are assembled to the same image or refused with the
same error. -/
theorem assemble_letterCase {source source' : String}
    (h : upperCase source.toList = upperCase source'.toList) : assemble source = assemble source' := by
  have hupper : source.toList.map Char.toUpper = source'.toList.map Char.toUpper :=
    String.ofList_injective h
  have hscan : scan source = scan source' := by
    rw [scan, scan, ← Scan.scanFrom_map_toUpper, hupper, Scan.scanFrom_map_toUpper]
  rw [assemble, assemble, layOut, layOut, hscan]

theorem assemble_letterCase_mixedAdd :
    upperCase "Lop, aDd fIn i / Again\nfin, hex 0aF\nend".toList =
        upperCase "lOP, ADD FiN I / aGAIN\nFIN, HEX 0Af\nEND".toList ∧
      assemble "Lop, aDd fIn i / Again\nfin, hex 0aF\nend" =
        .ok ⟨0, [⟨0, 0x9001, ⟨0, 14⟩⟩, ⟨1, 0x00AF, ⟨23, 35⟩⟩]⟩ ∧
      assemble "lOP, ADD FiN I / aGAIN\nFIN, HEX 0Af\nEND" =
        .ok ⟨0, [⟨0, 0x9001, ⟨0, 14⟩⟩, ⟨1, 0x00AF, ⟨23, 35⟩⟩]⟩ := by
  have h : upperCase "Lop, aDd fIn i / Again\nfin, hex 0aF\nend".toList =
      upperCase "lOP, ADD FiN I / aGAIN\nFIN, HEX 0Af\nEND".toList := by decide
  have hfirst : assemble "Lop, aDd fIn i / Again\nfin, hex 0aF\nend" =
      .ok ⟨0, [⟨0, 0x9001, ⟨0, 14⟩⟩, ⟨1, 0x00AF, ⟨23, 35⟩⟩]⟩ := by decide +kernel
  exact ⟨h, hfirst, (assemble_letterCase h).symm.trans hfirst⟩

end BasicComputer
