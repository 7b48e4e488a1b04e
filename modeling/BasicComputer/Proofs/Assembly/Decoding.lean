import BasicComputer.Proofs.Assembly.Correctness
import BasicComputer.Proofs.Machine.InstructionCycle

/-! # Decoding what was assembled

The word of an instruction line is decoded to the instruction that the line spells, so the machine
never refuses it. -/

namespace BasicComputer

def TokenKind.mnemonic? : TokenKind → Option Mnemonic
  | mnemonic m => some m
  | _ => none

/-- The mnemonic of an instruction line, behind its label. -/
def SourceLine.mnemonic? (x : SourceLine) : Option Mnemonic :=
  (Line.body x.tokens).head?.bind (·.kind.mnemonic?)

namespace Program

variable (p : List SourceLine)

/-- The address that an operand names in the program. -/
inductive Names (operand : Token) : Address → Prop
  | number {n : Nat} (hk : operand.kind = .number) (hn : operand.DenotesHexadecimal n)
      (hle : n ≤ 0xFFF) : Names operand (BitVec.ofNat 12 n)
  | label {a : Address} (hk : operand.kind ≠ .number) (ha : Defines p operand.lexeme a) :
      Names operand a

/-- The instruction that the tokens of a line, without its label, spell. -/
inductive Spells : List Token → Instruction → Prop
  | direct {head operand : Token} {op : MemoryOp} {a : Address}
      (hh : head.kind = .mnemonic (.memory op)) (ha : Names p operand a) :
      Spells [head, operand] (.memory op a false)
  | indirect {head operand mark : Token} {op : MemoryOp} {a : Address}
      (hh : head.kind = .mnemonic (.memory op)) (ha : Names p operand a) (hi : mark.lexeme = "I") :
      Spells [head, operand, mark] (.memory op a true)
  | register {head : Token} {op : RegisterOp} (hh : head.kind = .mnemonic (.register op)) :
      Spells [head] (.register op)
  | io {head : Token} {op : IoOp} (hh : head.kind = .mnemonic (.io op)) : Spells [head] (.io op)

variable {p}

/-! ## The words of the lines -/

theorem getElem?_placements {before after : List SourceLine} {x : SourceLine} {s : Statement}
    (hs : x.statement? = some s) :
    (placements (before ++ x :: after))[before.countP (·.statement?.isSome)]? =
      some ⟨counter before, x.span, s⟩ := by
  have hprefix := placements_append (before ++ [x]) after
  rw [List.append_assoc, List.singleton_append] at hprefix
  obtain ⟨rest, hrest⟩ := hprefix
  rw [← hrest, placements_snoc, hs, ← length_placements, List.append_assoc]
  simp

/-- The word of a line stands behind the words of the lines before it. -/
theorem Assembles.getElem?_words {image : Image} {before after : List SourceLine} {x : SourceLine}
    (h : Assembles (before ++ x :: after) image) {s : Statement} (hs : x.statement? = some s) :
    ∃ w, image.words[before.countP (·.statement?.isSome)]? = some w ∧
      w.address = (counter before).word ∧ w.span = x.span ∧
      Means (before ++ x :: after) s w.word := by
  obtain ⟨hlength, hall⟩ := List.forall₂_iff_get.mp h.words
  have hplaced : (placements (before ++ x :: after))[before.countP (·.statement?.isSome)]? =
      some ⟨counter before, x.span, s⟩ := getElem?_placements hs
  obtain ⟨hn, hplacement⟩ := List.getElem?_eq_some_iff.mp hplaced
  have hn' := hlength ▸ hn
  obtain ⟨ha, hspan, hw⟩ := hall _ hn hn'
  simp only [List.get_eq_getElem, hplacement] at ha hspan hw
  exact ⟨_, List.getElem?_eq_getElem hn', ha, hspan, hw⟩

/-! ## The instructions of the words -/

theorem kind_operand_eq_number_iff {t : Token} : t.operand.kind = .number ↔ t.kind = .number := by
  unfold Token.operand
  split <;> simp [*]

/-- What a memory-reference statement means is the instruction with the address that its operand
names. -/
theorem names_of_means {op : MemoryOp} {operand : Token} {indirect : Option Span} {w : Word}
    (h : Means p (.memory op operand.operand indirect) w) :
    ∃ a, Names p operand a ∧ w = (Instruction.memory op a indirect.isSome).encode := by
  cases h with
  | @number _ _ _ n hk hn hle =>
      refine ⟨BitVec.ofNat 12 n, .number (kind_operand_eq_number_iff.mp hk) ?_ hle, ?_⟩
      · simpa [Token.DenotesHexadecimal] using hn
      · rw [encode_memory, toNat_ofNat_address hle]
  | @label _ _ _ a hk ha =>
      refine ⟨a, .label (mt kind_operand_eq_number_iff.mpr hk) ?_, encode_memory op a _⟩
      simpa using ha

theorem eq_mnemonic_of_head {head : Token} {rest : List Token} {kind : TokenKind} {m : Mnemonic}
    (hh : head.kind = kind) (hm : (head :: rest).head?.bind (·.kind.mnemonic?) = some m) :
    kind = .mnemonic m := by
  rw [List.head?_cons, Option.bind_some, hh] at hm
  cases kind with
  | mnemonic => exact congrArg TokenKind.mnemonic (Option.some.inj hm)
  | identifier | label | directive | number | comment | gap | newline => cases hm

/-- A line that begins with a mnemonic has a statement, whose word is that of the instruction that the
line spells. -/
theorem spells_of_form {tokens : List Token} {content : Content} (hf : content.Form tokens)
    {m : Mnemonic} (hm : tokens.head?.bind (·.kind.mnemonic?) = some m) :
    ∃ s, content = .word s ∧
      ∀ w, Means p s w → ∃ i, w = i.encode ∧ i.mnemonic = m ∧ Spells p tokens i := by
  cases hf with
  | nothing => cases hm
  | origin hh | stop hh | decimal hh | hexadecimal hh => cases eq_mnemonic_of_head hh hm
  | direct hh ho =>
      cases eq_mnemonic_of_head hh hm
      refine ⟨_, rfl, ?_⟩
      intro w hw
      obtain ⟨a, ha, rfl⟩ := names_of_means hw
      exact ⟨_, rfl, rfl, .direct hh ha⟩
  | indirect hh ho hmark hi =>
      cases eq_mnemonic_of_head hh hm
      refine ⟨_, rfl, ?_⟩
      intro w hw
      obtain ⟨a, ha, rfl⟩ := names_of_means hw
      exact ⟨_, rfl, rfl, .indirect hh ha hi⟩
  | @register head op hh =>
      cases eq_mnemonic_of_head hh hm
      refine ⟨_, rfl, ?_⟩
      rintro w ⟨⟩
      exact ⟨_, (encode_register op).symm, rfl, .register hh⟩
  | @io head op hh =>
      cases eq_mnemonic_of_head hh hm
      refine ⟨_, rfl, ?_⟩
      rintro w ⟨⟩
      exact ⟨_, (encode_io op).symm, rfl, .io hh⟩

end Program

/-! ## Instruction lines -/

theorem Program.Reads.form {source : String} {p : List SourceLine} (h : Program.Reads source p) :
    ∀ x ∈ p, x.line.Form x.tokens :=
  ((List.forall₂_and_left _ _).mp (List.Forall₂.imp (fun _ _ hx => hx.symm) h)).1

theorem exists_program_of_assemble {source : String} {image : Image}
    (h : assemble source = .ok image) :
    ∃ p, Program.Reads source p ∧ (Program.labels p).Nodup ∧ Program.Assembles p image := by
  rw [assemble, bind_eq_ok_iff] at h
  obtain ⟨l, hl, hi⟩ := h
  obtain ⟨p, hreads, hnodup, rfl⟩ := Program.layOut_eq_ok_iff.mp hl
  have ha := (Program.image_eq_ok_iff hnodup).mp hi
  exact ⟨p, (Program.reads_iff ha.exists_means).mpr hreads, hnodup, ha⟩

/-- Every instruction line of a program that is assembled has a word, and this word is decoded to the
instruction that the line spells. A machine that is about to fetch the word does not refuse it. -/
theorem assembled_lines_decode {source : String} {image : Image} (h : assemble source = .ok image) :
    ∃ p, Program.Reads source p ∧ (Program.labels p).Nodup ∧
      ∀ before x after m, p = before ++ x :: after → x.mnemonic? = some m →
        ∃ w i, image.words[before.countP (·.statement?.isSome)]? = some w ∧
          w.address = (Program.counter before).word ∧ w.span = x.span ∧
          Instruction.decode? w.word = some i ∧ i.mnemonic = m ∧
          Program.Spells p (Line.body x.tokens) i ∧
          ∀ machine : Machine, machine.computer.s = false → machine.computer.sc = 0 →
            machine.computer.r = false →
            machine.computer.memory.read machine.computer.pc = w.word →
            ∃ status, machine.step.2 = .ok status := by
  obtain ⟨p, hreads, hnodup, ha⟩ := exists_program_of_assemble h
  refine ⟨p, hreads, hnodup, ?_⟩
  rintro before x after m rfl hm
  have hform := (hreads.form x (by simp)).content_form
  obtain ⟨s, hs, hspells⟩ := Program.spells_of_form hform hm
  have hstatement := SourceLine.statement?_eq_some_iff.mpr hs
  obtain ⟨w, hw, haddress, hspan, hmeans⟩ := ha.getElem?_words hstatement
  obtain ⟨i, hi, hmnemonic, hspell⟩ := hspells w.word hmeans
  have hd : Instruction.decode? w.word = some i := hi ▸ Instruction.decode?_encode i
  refine ⟨w, i, hw, haddress, hspan, hd, hmnemonic, hspell, ?_⟩
  intro machine hrunning hb hr hread
  exact ⟨_, (Machine.architecture_step hrunning hb hr (hread ▸ hd)).1⟩

/-- An addition through the cell of the line behind it. -/
def indirectAdd : Image := ⟨0, [⟨0, 0x9001, ⟨0, 7⟩⟩, ⟨1, 0x7001, ⟨8, 14⟩⟩]⟩

theorem assembled_lines_decode_indirectAdd :
    ∃ p x after, Program.Reads "ADD X I\nX, HLT" p ∧ p = x :: after ∧
      x.mnemonic? = some (.memory .add) ∧
      Program.Spells p (Line.body x.tokens) (.memory .add 1 true) ∧
      ∃ status, (Machine.initial.load indirectAdd).step.2 = .ok status := by
  have hassemble : assemble "ADD X I\nX, HLT" = .ok indirectAdd := by decide +kernel
  obtain ⟨p, hreads, -, hlines⟩ := assembled_lines_decode hassemble
  have htext : TextLine.throughEnd (TextLine.ofText 0 "ADD X I\nX, HLT".toList) =
      [⟨0, "ADD X I".toList⟩, ⟨8, "X, HLT".toList⟩] := by decide +kernel
  have htokens : TextLine.tokens ⟨0, "ADD X I".toList⟩ =
      .ok [⟨.mnemonic (.memory .add), "ADD", ⟨0, 3⟩⟩, ⟨.identifier, "X", ⟨4, 5⟩⟩,
        ⟨.identifier, "I", ⟨6, 7⟩⟩] := by decide +kernel
  have hforall := hreads
  rw [Program.Reads, htext] at hforall
  obtain ⟨x, after, ⟨hx, -⟩, -, hp⟩ := List.forall₂_cons_right_iff.mp hforall
  have hxtokens := Except.ok.inj (hx.symm.trans htokens)
  have hm : x.mnemonic? = some (.memory .add) := by rw [SourceLine.mnemonic?, hxtokens]; rfl
  obtain ⟨w, i, hw, -, -, hd, -, hspells, hmachine⟩ := hlines [] x after _ hp hm
  cases hw
  have hi : i = .memory .add 1 true := by
    have h : Instruction.decode? 0x9001 = some (.memory .add 1 true) := by decide
    exact Option.some.inj (hd.symm.trans h)
  subst hi
  exact ⟨p, x, after, hreads, hp, hm, hspells,
    hmachine (Machine.initial.load indirectAdd) rfl rfl rfl rfl⟩

end BasicComputer
