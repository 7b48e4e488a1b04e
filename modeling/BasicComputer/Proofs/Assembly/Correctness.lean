import BasicComputer.Proofs.Assembly.Encoding
import BasicComputer.Proofs.Assembly.Layout

/-! # Correctness of assembly

The second reading gives every statement the word that the statement means in its program, so that a
source text is assembled exactly if it says what words there are. -/

namespace BasicComputer

namespace Program

variable {p : List SourceLine}

/-! ## Labels -/

/-- Where no key is bound twice, looking a key up finds its binding. -/
theorem lookup_eq_some_iff_mem {α β : Type} [DecidableEq α] {l : List (α × β)}
    (h : (l.map Prod.fst).Nodup) {key : α} {value : β} :
    l.lookup key = some value ↔ (key, value) ∈ l := by
  induction l with
  | nil => simp
  | cons b l ih =>
      obtain ⟨key', value'⟩ := b
      rw [List.map_cons, List.nodup_cons] at h
      obtain ⟨hfresh, hnodup⟩ := h
      by_cases hk : key = key'
      · subst hk
        have hnot : (key, value) ∉ l := by
          intro hmem
          exact hfresh (List.mem_map.mpr ⟨_, hmem, rfl⟩)
        simp [hnot, eq_comm]
      · rw [List.lookup_cons, beq_false_of_ne hk, List.mem_cons, ih hnodup]
        simp [hk]

theorem mem_bindings {key : String} {b : Binding} :
    (key, b) ∈ bindings p ↔
      ∃ before l after, p = before ++ l :: after ∧ binding? before l = some (key, b) := by
  simp only [bindings, List.mem_filterMap, Prod.exists, mem_linesFrom, List.nil_append]
  refine ⟨?_, ?_⟩
  · intro h
    rcases h with ⟨above, l, ⟨between, after, rfl, rfl⟩, hb⟩
    exact ⟨_, l, after, rfl, hb⟩
  · intro h
    rcases h with ⟨before, l, after, rfl, hb⟩
    exact ⟨before, l, ⟨_, after, rfl, rfl⟩, hb⟩

theorem address?_eq_some_iff (h : (labels p).Nodup) {name : String} {a : Address} :
    (layout p).symbols.address? name = some a ↔ Defines p name a := by
  have hkeys : ((bindings p).map Prod.fst).Nodup := map_fst_bindings ▸ h
  have hget (b : Binding) : (layout p).symbols.get? name = some b ↔
      (upperCase name.toList, b) ∈ bindings p := lookup_eq_some_iff_mem hkeys
  simp only [SymbolTable.address?, Option.map_eq_some_iff, hget, mem_bindings]
  refine ⟨?_, ?_⟩
  · intro hx
    rcases hx with ⟨b, ⟨before, l, after, rfl, hb⟩, rfl⟩
    obtain ⟨label, hlabel, heq⟩ := Option.map_eq_some_iff.mp hb
    obtain ⟨hkey, rfl⟩ := Prod.mk.inj heq
    exact ⟨before, l, after, rfl, by simp [SourceLine.label?, hlabel, hkey], rfl⟩
  · intro hx
    rcases hx with ⟨before, l, after, rfl, hl, rfl⟩
    obtain ⟨label, hlabel, hkey⟩ := Option.map_eq_some_iff.mp hl
    exact ⟨_, ⟨before, l, after, rfl, by rw [binding?, hlabel, Option.map_some, hkey]⟩, rfl⟩

/-! ## Words -/

theorem resolve_eq_ok_iff (h : (labels p).Nodup) {operand : Token} {w : Word} :
    (layout p).symbols.resolve operand = .ok w ↔
      (operand.kind = .number ∧
          ∃ n, operand.DenotesHexadecimal n ∧ n ≤ 0xFFF ∧ w = BitVec.ofNat 16 n) ∨
        operand.kind ≠ .number ∧ ∃ a, Defines p operand.lexeme a ∧ w = a.word := by
  by_cases hk : operand.kind = .number
  · simp [SymbolTable.resolve, hk, map_eq_ok_iff, Token.hexadecimal_eq_ok_iff, and_assoc]
  · rw [SymbolTable.resolve, if_neg hk]
    simp only [hk, false_and, false_or, ne_eq, not_false_eq_true, true_and, ← address?_eq_some_iff h]
    cases (layout p).symbols.address? operand.lexeme <;> simp [eq_comm]

theorem encode_memory (op : MemoryOp) (a : Address) (indirect : Bool) :
    (Instruction.memory op a indirect).encode =
      BitVec.ofNat 16 (indirect.toNat * 0x8000 + op.opcode.toNat * 0x1000 + a.toNat) := rfl

theorem toNat_ofNat_address {n : Nat} (h : n ≤ 0xFFF) : (BitVec.ofNat 12 n).toNat = n := by
  rw [BitVec.toNat_ofNat]
  exact Nat.mod_eq_of_lt (by omega)

theorem encode_register (op : RegisterOp) :
    (Instruction.register op).encode = BitVec.ofNat 16 (0x7000 + op.selector.toNat) := by
  cases op <;> decide

theorem encode_io (op : IoOp) :
    (Instruction.io op).encode = BitVec.ofNat 16 (0xF000 + op.selector.toNat) := by
  cases op <;> decide

theorem le_of_denotesHexadecimal {t : Token} {n : Nat} (h : t.DenotesHexadecimal n) :
    n ≤ 0xFFFF := by
  obtain ⟨hlength, -, hrank, rfl⟩ := h
  have hlt : Nat.ofDigits 16 (t.lexeme.toList.reverse.map Numeral.rank) <
      16 ^ (t.lexeme.toList.reverse.map Numeral.rank).length := by
    refine Nat.ofDigits_lt_base_pow_length (by decide) ?_
    simpa using hrank
  have hpow : 16 ^ (t.lexeme.toList.reverse.map Numeral.rank).length ≤ 16 ^ 4 :=
    Nat.pow_le_pow_right (by decide) (by simpa using hlength)
  omega

theorem memory_word_eq_ok_iff (h : (labels p).Nodup) {op : MemoryOp} {operand : Token}
    {indirect : Option Span} {w : Word} :
    (Statement.memory op operand indirect).word (layout p).symbols = .ok w ↔
      Means p (.memory op operand indirect) w := by
  simp only [Statement.word_memory, map_eq_ok_iff, resolve_eq_ok_iff h]
  refine ⟨?_, ?_⟩
  · intro hx
    rcases hx with ⟨_, ⟨hk, n, hn, hle, rfl⟩ | ⟨hk, a, ha, rfl⟩, rfl⟩
    · rw [encode_memory, Word.address_ofNat, toNat_ofNat_address hle]
      exact .number hk hn hle
    · rw [Address.address_word]
      exact .label hk ha
  · intro hw
    cases hw with
    | @number _ _ _ n hk hn hle =>
        refine ⟨BitVec.ofNat 16 n, .inl ⟨hk, n, hn, hle, rfl⟩, ?_⟩
        rw [encode_memory, Word.address_ofNat, toNat_ofNat_address hle]
    | @label _ _ _ a hk ha =>
        refine ⟨a.word, .inr ⟨hk, a, ha, rfl⟩, ?_⟩
        rw [encode_memory, Address.address_word]

theorem statement_word_eq_ok_iff (h : (labels p).Nodup) {statement : Statement} {w : Word} :
    statement.word (layout p).symbols = .ok w ↔ Means p statement w := by
  cases statement with
  | memory op operand indirect => exact memory_word_eq_ok_iff h
  | register op mark =>
      cases mark with
      | none =>
          rw [Statement.word_register, Except.ok.injEq, encode_register]
          refine ⟨?_, ?_⟩
          · rintro rfl
            exact .register op
          · rintro ⟨⟩
            rfl
      | some span =>
          refine ⟨?_, ?_⟩
          · intro hw
            cases hw
          · rintro ⟨⟩
  | io op mark =>
      cases mark with
      | none =>
          rw [Statement.word_io, Except.ok.injEq, encode_io]
          refine ⟨?_, ?_⟩
          · rintro rfl
            exact .io op
          · rintro ⟨⟩
            rfl
      | some span =>
          refine ⟨?_, ?_⟩
          · intro hw
            cases hw
          · rintro ⟨⟩
  | decimal literal =>
      rw [Statement.word, Token.decimal_eq_ok_iff]
      refine ⟨?_, ?_⟩
      · intro hx
        rcases hx with ⟨v, hv, rfl⟩
        exact .decimal hv
      · intro hw
        cases hw with
        | decimal hv => exact ⟨_, hv, rfl⟩
  | hexadecimal literal =>
      simp only [Statement.word, map_eq_ok_iff, Token.hexadecimal_eq_ok_iff]
      refine ⟨?_, ?_⟩
      · intro hx
        rcases hx with ⟨n, ⟨hn, -⟩, rfl⟩
        exact .hexadecimal hn
      · intro hw
        cases hw with
        | hexadecimal hn => exact ⟨_, ⟨hn, le_of_denotesHexadecimal hn⟩, rfl⟩

theorem means_unique (h : (labels p).Nodup) {s : Statement} {w w' : Word} (hw : Means p s w)
    (hw' : Means p s w') : w = w' :=
  Except.ok.inj (((statement_word_eq_ok_iff h).mpr hw).symm.trans
    ((statement_word_eq_ok_iff h).mpr hw'))

/-- The second reading succeeds exactly if every statement stands for a word, and gives the image of
these words. -/
theorem image_eq_ok_iff (h : (labels p).Nodup) {image : Image} :
    (layout p).image = .ok image ↔ Assembles p image := by
  have hword (placement : Placement) (w : PlacedWord) :
      placement.word (layout p).symbols = .ok w ↔
        w.address = placement.address.word ∧ w.span = placement.span ∧
          Means p placement.statement w.word := by
    simp only [Placement.word, bind_eq_ok_iff, pure_eq_ok_iff, statement_word_eq_ok_iff h]
    refine ⟨?_, ?_⟩
    · intro hx
      rcases hx with ⟨word, hw, rfl⟩
      exact ⟨rfl, rfl, hw⟩
    · intro hx
      rcases hx with ⟨ha, hs, hw⟩
      refine ⟨w.word, hw, ?_⟩
      rw [← ha, ← hs]
  have hplacements : (layout p).placements.toList = placements p := rfl
  simp only [Layout.image, bind_eq_ok_iff, pure_eq_ok_iff, mapM_eq_ok_iff, hword, hplacements]
  refine ⟨?_, ?_⟩
  · intro hx
    rcases hx with ⟨words, hwords, rfl⟩
    exact ⟨rfl, hwords⟩
  · intro hx
    rcases hx with ⟨hentry, hwords⟩
    refine ⟨image.words, hwords, ?_⟩
    cases image
    exact congrArg (Image.mk · _) hentry

/-! ## Both readings -/

theorem unmarked_of_means {statement : Statement} {w : Word} (h : Means p statement w) :
    statement.Unmarked := by
  cases h <;> trivial

theorem mem_placements {x : SourceLine} (h : x ∈ p) {statement : Statement}
    (hs : x.line.content = .word statement) :
    ∃ placement ∈ placements p, placement.statement = statement := by
  obtain ⟨before, after, rfl⟩ := List.append_of_mem h
  refine ⟨⟨counter before, x.span, statement⟩, ?_, rfl⟩
  refine List.mem_filterMap.mpr ⟨(before, x), mem_linesFrom.mpr ⟨before, after, rfl, rfl⟩, ?_⟩
  simp [SourceLine.statement?, hs]

/-- A list of results exists exactly if there is a result for every member. -/
theorem exists_forall₂_iff {α β : Type} {R : α → β → Prop} {l : List α} :
    (∃ l', List.Forall₂ R l l') ↔ ∀ a ∈ l, ∃ b, R a b := by
  induction l with
  | nil => simp
  | cons a l ih =>
      rw [List.forall_mem_cons, ← ih]
      refine ⟨?_, ?_⟩
      · intro h
        rcases h with ⟨_, hl⟩
        cases hl with
        | cons hb hl => exact ⟨⟨_, hb⟩, _, hl⟩
      · intro h
        rcases h with ⟨⟨b, hb⟩, l', hl⟩
        exact ⟨b :: l', .cons hb hl⟩

theorem Assembles.exists_means {image : Image} (h : Assembles p image) :
    ∀ placement ∈ placements p, ∃ w, Means p placement.statement w := by
  intro placement hmem
  obtain ⟨w, -, -, hw⟩ := exists_forall₂_iff.mp ⟨_, h.words⟩ placement hmem
  exact ⟨w.word, hw⟩

theorem exists_words (h : ∀ placement ∈ placements p, ∃ w, Means p placement.statement w) :
    ∃ words : List PlacedWord, List.Forall₂
      (fun placement w => w.address = placement.address.word ∧ w.span = placement.span ∧
        Means p placement.statement w.word) (placements p) words := by
  refine exists_forall₂_iff.mpr fun placement hmem => ?_
  obtain ⟨w, hw⟩ := h placement hmem
  exact ⟨⟨placement.address.word, w, placement.span⟩, rfl, rfl, hw⟩

/-- Lines whose statements all stand for words have one of the forms that lines may have. -/
theorem reads_iff {source : String} (h : ∀ placement ∈ placements p, ∃ w, Means p placement.statement w) :
    Reads source p ↔
      List.Forall₂ ReadsAs p (TextLine.throughEnd (TextLine.ofText 0 source.toList)) := by
  refine ⟨?_, ?_⟩
  · exact List.Forall₂.imp fun x t hx => ⟨hx.1, hx.2.read⟩
  · intro hreads
    have hunmarked : ∀ x ∈ p, ∀ statement, x.line.content = .word statement → statement.Unmarked := by
      intro x hx statement hs
      obtain ⟨placement, hmem, rfl⟩ := mem_placements hx hs
      obtain ⟨w, hw⟩ := h placement hmem
      exact unmarked_of_means hw
    refine ((List.forall₂_and_left _ _).mpr ⟨hunmarked, hreads⟩).imp ?_
    rintro x t ⟨hu, ht, hread⟩
    exact ⟨ht, Line.form_of_read hread hu⟩

end Program

/-- A source text is assembled exactly if, up to the end of its program, its lines have the forms that
lines may have, no label is defined twice and every statement stands for a word. The image then has these
words, and no others, in the order of the lines. -/
theorem assemble_spec (source : String) :
    ((∃ image, assemble source = .ok image) ↔
        ∃ p, Program.Reads source p ∧ (Program.labels p).Nodup ∧
          ∀ placement ∈ Program.placements p, ∃ w, Program.Means p placement.statement w) ∧
      ∀ image, assemble source = .ok image ↔
        ∃ p, Program.Reads source p ∧ (Program.labels p).Nodup ∧ Program.Assembles p image := by
  have himage (image : Image) : assemble source = .ok image ↔
      ∃ p, Program.Reads source p ∧ (Program.labels p).Nodup ∧ Program.Assembles p image := by
    rw [assemble, bind_eq_ok_iff]
    simp only [Program.layOut_eq_ok_iff]
    refine ⟨?_, ?_⟩
    · intro h
      rcases h with ⟨_, ⟨p, hreads, hnodup, rfl⟩, hi⟩
      have ha := (Program.image_eq_ok_iff hnodup).mp hi
      have hmeans := ha.exists_means
      exact ⟨p, (Program.reads_iff hmeans).mpr hreads, hnodup, ha⟩
    · intro h
      rcases h with ⟨p, hreads, hnodup, ha⟩
      have hmeans := ha.exists_means
      exact ⟨_, ⟨p, (Program.reads_iff hmeans).mp hreads, hnodup, rfl⟩,
        (Program.image_eq_ok_iff hnodup).mpr ha⟩
  refine ⟨?_, himage⟩
  simp only [himage]
  refine ⟨?_, ?_⟩
  · intro h
    rcases h with ⟨image, p, hreads, hnodup, ha⟩
    exact ⟨p, hreads, hnodup, ha.exists_means⟩
  · intro h
    rcases h with ⟨p, hreads, hnodup, hmeans⟩
    obtain ⟨words, hwords⟩ := Program.exists_words hmeans
    exact ⟨⟨((Program.start? p).getD 0).word, words⟩, p, hreads, hnodup, rfl, hwords⟩

end BasicComputer
