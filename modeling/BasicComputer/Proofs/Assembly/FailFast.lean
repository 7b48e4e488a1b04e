import BasicComputer.Proofs.Assembly.Errors

/-! # Failing fast

A text that ends with a line settles what becomes of it together with whatever text follows: its first
error and its end are final, and its layout is only added to. What only the second reading finds wrong
is looked at when the first reading has found nothing, line by line. -/

namespace BasicComputer

/-! ## Texts one after another -/

theorem TextLine.ofText_append_newline (offset : Nat) (text rest : List Char) :
    ofText offset (text ++ '\n' :: rest) =
      ofText offset text ++ ofText (offset + byteLength text + 1) rest := by
  induction text using text_induction generalizing offset with
  | single line h => rw [ofText_append_cons h, ofText_of_not_mem h, List.singleton_append]
  | cons line text h ih =>
      have hnewline : ('\n' : Char).utf8Size = 1 := by decide
      have hoffset : offset + byteLength line + 1 + byteLength text + 1 =
          offset + byteLength (line ++ '\n' :: text) + 1 := by
        rw [byteLength_append, byteLength, hnewline]
        omega
      rw [List.append_assoc, List.cons_append, ofText_append_cons h, ofText_append_cons h, ih,
        hoffset, List.cons_append]

namespace Layout

/-- Goes on with a text whose first byte has this offset. -/
def extendText (l : Layout) (offset : Nat) (text : List Char) : Except SourceError Layout :=
  ((TextLine.ofText offset text).map TextLine.tokens).foldlM extend l

theorem extendText_nil (l : Layout) (offset : Nat) : l.extendText offset [] = .ok l := by
  have htokens : TextLine.tokens ⟨offset, []⟩ = .ok [] := by simp [TextLine.tokens, Scan.scanFrom]
  have hlines : TextLine.ofText offset [] = [⟨offset, []⟩] := TextLine.ofText_of_not_mem (by simp)
  rw [extendText, hlines, List.map_singleton, htokens, List.foldlM_cons, extend_nil]
  rfl

theorem extendText_append_newline (l : Layout) (offset : Nat) (text rest : List Char) :
    l.extendText offset (text ++ '\n' :: rest) =
      l.extendText offset text >>= fun l' => l'.extendText (offset + byteLength text + 1) rest := by
  rw [extendText, TextLine.ofText_append_newline, List.map_append, List.foldlM_append]
  rfl

theorem extendText_of_ended {l : Layout} (h : l.ended = true) (offset : Nat) (text : List Char) :
    l.extendText offset text = .ok l :=
  Program.foldlM_extend_of_ended h _

end Layout

theorem layOut_eq_extendText (source : String) :
    layOut source = Layout.empty.extendText 0 source.toList :=
  Program.layOut_eq_foldlM source

/-- The text is empty or ends with a newline. -/
def EndsLine (text : String) : Prop := text = "" ∨ ∃ lines, text = lines ++ "\n"

/-- A text of whole lines is laid out before what follows it. -/
theorem layOut_append {p : String} (hp : EndsLine p) (t : String) :
    layOut (p ++ t) = layOut p >>= fun l => l.extendText (byteLength p.toList) t.toList := by
  simp only [layOut_eq_extendText, String.toList_append]
  rcases hp with rfl | ⟨lines, rfl⟩
  · have hempty : Layout.empty.extendText 0 "".toList = .ok .empty := Layout.extendText_nil .empty 0
    rw [hempty]
    rfl
  · have htext : (lines ++ "\n").toList = lines.toList ++ ['\n'] := String.toList_append
    have hlength : byteLength (lines.toList ++ ['\n']) = 0 + byteLength lines.toList + 1 := by
      have hnewline : byteLength ['\n'] = 1 := by decide
      rw [byteLength_append, hnewline, Nat.zero_add]
    rw [htext, hlength, List.append_assoc, List.singleton_append,
      Layout.extendText_append_newline, Layout.extendText_append_newline]
    simp only [Layout.extendText_nil]
    cases Layout.empty.extendText 0 lines.toList <;> rfl

/-! ## Layouts are added to -/

namespace Layout

/-- What one layout has, another has first. -/
structure Begins (l l' : Layout) : Prop where
  placements : l.placements.toList <+: l'.placements.toList
  bindings : l.symbols.bindings <+: l'.symbols.bindings

theorem Begins.refl (l : Layout) : l.Begins l := ⟨List.prefix_refl _, List.prefix_refl _⟩

theorem Begins.trans {l l' l'' : Layout} (h : l.Begins l') (h' : l'.Begins l'') : l.Begins l'' :=
  ⟨h.placements.trans h'.placements, h.bindings.trans h'.bindings⟩

theorem begins_place (l : Layout) (span : Span) (line : Line) : l.Begins (l.place span line) := by
  obtain ⟨label, content⟩ := line
  cases label <;> cases content with
  | nothing | origin | stop => exact ⟨List.prefix_refl _, List.prefix_refl _⟩
  | word statement => exact ⟨by simp [place, enter], List.prefix_refl _⟩

theorem begins_define {l l' : Layout} {label : Option Token} (h : l.define label = .ok l') :
    l.Begins l' := by
  cases label with
  | none =>
      cases h
      exact .refl _
  | some label =>
      simp only [define, SymbolTable.insert] at h
      cases hget : l.symbols.get? label.lexeme with
      | none =>
          rw [hget] at h
          cases h
          exact ⟨List.prefix_refl _, List.prefix_append _ _⟩
      | some binding =>
          rw [hget] at h
          cases h

theorem begins_extend {l l' : Layout} {line : Except SourceError (List Token)}
    (h : l.extend line = .ok l') : l.Begins l' := by
  unfold extend at h
  split at h
  · cases h
    exact .refl _
  · obtain ⟨tokens, -, h⟩ := bind_eq_ok_iff.mp h
    cases tokens with
    | nil =>
        cases h
        exact .refl _
    | cons first rest =>
        simp only [addLine, bind_eq_ok_iff, pure_eq_ok_iff] at h
        obtain ⟨line, -, next, hdefine, rfl⟩ := h
        exact (begins_define hdefine).trans (begins_place next _ line)

theorem begins_foldlM {lines : List (Except SourceError (List Token))} {l l' : Layout}
    (h : lines.foldlM extend l = .ok l') : l.Begins l' := by
  induction lines generalizing l with
  | nil =>
      cases h
      exact .refl _
  | cons line lines ih =>
      rw [List.foldlM_cons, bind_eq_ok_iff] at h
      obtain ⟨next, hstep, h⟩ := h
      exact (begins_extend hstep).trans (ih h)

end Layout

/-! ## Both readings -/

/-- Errors and the end of a text of whole lines are final, and its layout is only added to. An error of
the second reading is that of the first line whose statement stands for no word, and comes up only when
the first reading succeeds. -/
theorem assemble_failFast :
    (∀ p t, EndsLine p →
      (∀ e, layOut p = .error e → assemble (p ++ t) = .error e) ∧
      (∀ l, layOut p = .ok l → l.ended = true → assemble (p ++ t) = assemble p) ∧
      ∀ l l', layOut p = .ok l → layOut (p ++ t) = .ok l' →
        l.placements.toList <+: l'.placements.toList ∧
          l.symbols.bindings <+: l'.symbols.bindings) ∧
    ∀ source e,
      (assemble source = .error e ↔
        layOut source = .error e ∨
          ∃ p, List.Forall₂ Program.ReadsAs p
              (TextLine.throughEnd (TextLine.ofText 0 source.toList)) ∧
            layOut source = .ok (Program.layout p) ∧ Program.FirstFault p e) ∧
      (Program.FaultOf source e → layOut source ≠ .error e) := by
  refine ⟨?_, ?_⟩
  · intro p t hp
    have happend := layOut_append hp t
    refine ⟨?_, ?_, ?_⟩
    · intro e he
      rw [he] at happend
      exact bind_eq_error_iff.mpr (.inl happend)
    · intro l hl hended
      rw [hl] at happend
      have hsame : layOut (p ++ t) = layOut p := by
        rw [happend, hl]
        exact Layout.extendText_of_ended hended _ _
      rw [assemble, assemble, hsame]
    · intro l l' hl hl'
      rw [happend, hl] at hl'
      have hbegins := Layout.begins_foldlM hl'
      exact ⟨hbegins.placements, hbegins.bindings⟩
  · intro source e
    exact ⟨assemble_eq_error_iff, Program.layOut_ne_error_of_faultOf⟩

theorem assemble_failFast_unknownRest :
    assemble ("END\n" ++ "?") = .ok ⟨0, []⟩ ∧
      assemble ("FOO\n" ++ "?") = .error ⟨.unknownMnemonic "FOO", ⟨0, 3⟩⟩ ∧
      (∃ l, layOut ("A, HLT\n" ++ "BUN A") = .ok l ∧
        [⟨0, ⟨0, 6⟩, .register .hlt none⟩] <+: l.placements.toList ∧
        [("A", ⟨0, ⟨0, 1⟩⟩)] <+: l.symbols.bindings) ∧
      layOut "BUN A" ≠ .error ⟨.undefinedLabel "A", ⟨4, 5⟩⟩ := by
  have hend : layOut "END\n" = .ok ⟨.empty, #[], 0, none, true⟩ := by decide +kernel
  have hfoo : layOut "FOO\n" = .error ⟨.unknownMnemonic "FOO", ⟨0, 3⟩⟩ := by decide +kernel
  have hhalt : layOut "A, HLT\n" =
      .ok ⟨⟨[("A", ⟨0, ⟨0, 1⟩⟩)]⟩, #[⟨0, ⟨0, 6⟩, .register .hlt none⟩], 1, some 0, false⟩ := by decide +kernel
  have hboth : layOut ("A, HLT\n" ++ "BUN A") =
      .ok ⟨⟨[("A", ⟨0, ⟨0, 1⟩⟩)]⟩, #[⟨0, ⟨0, 6⟩, .register .hlt none⟩,
        ⟨1, ⟨7, 12⟩, .memory .bun ⟨.identifier, "A", ⟨11, 12⟩⟩ none⟩], 2, some 0, false⟩ := by decide +kernel
  have hfault : Program.FaultOf "BUN A" ⟨.undefinedLabel "A", ⟨4, 5⟩⟩ := by
    let operand : Token := ⟨.identifier, "A", ⟨4, 5⟩⟩
    let x : SourceLine :=
      ⟨[⟨.mnemonic (.memory .bun), "BUN", ⟨0, 3⟩⟩, operand], ⟨none, .word (.memory .bun operand none)⟩⟩
    refine ⟨⟨0, "BUN A".toList⟩, ?_, x, ⟨by decide +kernel, rfl⟩, .memory .bun operand none, rfl, [], ?_⟩
    · have htext : TextLine.ofText 0 "BUN A".toList = [⟨0, "BUN A".toList⟩] := by decide +kernel
      rw [htext]
      exact List.mem_singleton_self _
    · refine .undefined (by decide) ?_
      rintro a ⟨before, l, after, hp, -⟩
      simp at hp
  obtain ⟨hwhole, hlate⟩ := assemble_failFast
  obtain ⟨-, hended, -⟩ := hwhole "END\n" "?" (.inr ⟨"END", rfl⟩)
  obtain ⟨hfails, -, -⟩ := hwhole "FOO\n" "?" (.inr ⟨"FOO", rfl⟩)
  obtain ⟨-, -, hgrows⟩ := hwhole "A, HLT\n" "BUN A" (.inr ⟨"A, HLT", rfl⟩)
  have hempty : assemble "END\n" = .ok ⟨0, []⟩ := by decide +kernel
  exact ⟨(hended _ hend rfl).trans hempty, hfails _ hfoo, ⟨_, hboth, hgrows _ _ hhalt hboth⟩,
    (hlate _ _).2 hfault⟩

end BasicComputer
