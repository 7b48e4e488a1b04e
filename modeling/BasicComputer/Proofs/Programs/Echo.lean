import BasicComputer.Proofs.Programs.Execution

/-! # The echo program

The program waits for a character, prints it, and counts up; it halts when the count comes to 0. It prints as
many characters as its count is negative, spending five instructions on each of them. -/

namespace BasicComputer

namespace Echo

/-! ## The program -/

def loop : List String :=
  ["/ Echo three characters from the input device",
    "        ORG 10",
    "LOP,    SKI",
    "        BUN LOP",
    "        INP",
    "        OUT",
    "        ISZ CNT",
    "        BUN LOP",
    "        HLT"]

def ending : List String := ["        END", ""]

/-- The program that echoes so many characters. -/
def source (n : Nat) : String :=
  "\n".intercalate (loop ++ ("CNT, DEC -" ++ toString n) :: ending)

def labels : List (String × Address) := [("LOP", 0x010), ("CNT", 0x017)]

/-- The statements of the lines, with this literal for the count. -/
def statements (count : Token) : List Statement :=
  let label (name : String) := Token.unplaced (.identifier, name)
  [.io .ski none, .memory .bun (label "LOP") none, .io .inp none, .io .out none,
    .memory .isz (label "CNT") none, .memory .bun (label "LOP") none, .register .hlt none, .decimal count]

def code : List Instruction :=
  [.io .ski, .memory .bun 0x010 false, .io .inp, .io .out, .memory .isz 0x017 false,
    .memory .bun 0x010 false, .register .hlt]

/-- The program in memory, with this count behind it. -/
def cells (count : Word) : Memory := .holding 0x010 code [count]

theorem exists_image {n : Nat} (hn : n ≤ 32768) :
    ∃ image, assemble (source n) = .ok image ∧ image.entry.address = 0x010 ∧
      image.Fills 0x010 (code.map Instruction.encode ++ [BitVec.ofInt 16 (-n)]) := by
  have hname : Lead.word.covers "CNT".toList = true := rfl
  obtain ⟨literal, hliteral, hcount⟩ := exists_readsLike_negative hname hn
  have hloop : List.Forall₂ ReadsLike loop (loop.map readLine) := forall₂_readsLike (by decide +kernel)
  have hending : List.Forall₂ ReadsLike ending (ending.map readLine) := forall₂_readsLike (by decide +kernel)
  have hread := List.rel_append hloop (.cons hcount hending)
  have hlayout : (loop.map readLine ++
      ⟨some (Token.unplaced (.label, upperCase "CNT".toList)), .word (.decimal literal)⟩ ::
        ending.map readLine).foldlM Layout.addRead .empty =
      .ok (.filled 0x010 labels (statements literal)) := by
    -- Nothing but the literal is a variable, so that the lines can be laid out.
    with_unfolding_all rfl
  refine exists_image_fills (by simp) hread hlayout ?_
  iterate 7 refine .cons rfl ?_
  exact .cons hliteral .nil

theorem read_cells (count : Word) : (cells count).read 0x017 = count :=
  Memory.read_holding (k := 0) rfl (by decide)

theorem write_cells (count w : Word) : (cells count).write 0x017 w = cells w :=
  Memory.write_holding (k := 0) (by simp) (by decide) w

/-! ## A character -/

/-- The program is at this instruction, with so much left to count, to take and already printed. -/
structure Serves (a : Architecture) (pc : Address) (count : Word) (pending printed : List Byte) :
    Prop where
  running : a.s = false
  disabled : a.ien = false
  pc_eq : a.pc = pc
  memory_eq : a.memory = cells count
  pending_eq : a.pending = pending
  output_eq : a.output.toList = printed

variable {a : Architecture} {pc : Address} {count : Word} {c : Byte} {pending printed : List Byte}

theorem Serves.fetches (h : Serves a pc count pending printed) {i : Instruction}
    (hi : code[(pc - 0x010).toNat]? = some i) : a.Fetches i where
  running := h.running
  disabled := h.disabled
  decodes := by
    rw [h.memory_eq, h.pc_eq]
    exact Memory.decode?_read_holding hi

theorem Serves.fetched (h : Serves a pc count pending printed) :
    Serves a.fetched (pc + 1) count pending printed := by
  obtain ⟨inpr, fgi, input, hf, hpending, -⟩ := a.exists_fetched
  rw [hf] at hpending ⊢
  exact ⟨h.running, h.disabled, congrArg (· + 1) h.pc_eq, h.memory_eq, hpending.trans h.pending_eq,
    h.output_eq⟩

theorem Serves.fetched_character (h : Serves a pc count (c :: pending) printed) :
    a.fetched.fgi = true ∧ a.fetched.inpr = c ∧ a.fetched.input = pending := by
  obtain ⟨inpr, fgi, input, hf, -, htake⟩ := a.exists_fetched
  rw [hf]
  exact htake c pending h.pending_eq

theorem Serves.ski (h : Serves a 0x010 count (c :: pending) printed) :
    Serves (a.execute (.io .ski)) 0x012 count (c :: pending) printed := by
  have hf := h.fetched
  rw [Architecture.execute_eq_perform]
  change Serves (a.fetched.skipWhen a.fetched.fgi) _ _ _ _
  rw [Architecture.skipWhen_eq]
  refine ⟨hf.running, hf.disabled, ?_, hf.memory_eq, hf.pending_eq, hf.output_eq⟩
  rw [h.fetched_character.1, hf.pc_eq]
  rfl

theorem Serves.inp (h : Serves a 0x012 count (c :: pending) printed) :
    Serves (a.execute (.io .inp)) 0x013 count pending printed ∧
      (a.execute (.io .inp)).ac.byte = c := by
  have hf := h.fetched
  obtain ⟨-, hinpr, hinput⟩ := h.fetched_character
  rw [Architecture.execute_eq_perform]
  refine ⟨⟨hf.running, hf.disabled, hf.pc_eq, hf.memory_eq, hinput, hf.output_eq⟩, ?_⟩
  have hac : (a.fetched.perform (.io .inp)).ac =
      BitVec.ofNat 16 (a.fetched.ac.toNat / 0x100 * 0x100 + a.fetched.inpr.toNat) := rfl
  have hlt := c.isLt
  rw [hac, hinpr, Word.byte, ← BitVec.toNat_inj, BitVec.toNat_setWidth, BitVec.toNat_ofNat]
  omega

theorem Serves.out (h : Serves a 0x013 count pending printed) (hc : a.ac.byte = c) :
    Serves (a.execute (.io .out)) 0x014 count pending (printed ++ [c]) := by
  have hf := h.fetched
  obtain ⟨inpr, fgi, input, hfetched, -, -⟩ := a.exists_fetched
  have hac : a.fetched.ac = a.ac := by rw [hfetched]
  rw [Architecture.execute_eq_perform]
  refine ⟨hf.running, hf.disabled, hf.pc_eq, hf.memory_eq, hf.pending_eq, ?_⟩
  change (a.fetched.output.push a.fetched.ac.byte).toList = _
  rw [Array.toList_push, hf.output_eq, hac, hc]

theorem Serves.isz (h : Serves a 0x014 count pending printed) :
    Serves (a.execute (.memory .isz 0x017 false)) (if count + 1 = 0 then 0x016 else 0x015) (count + 1)
      pending printed := by
  have hf := h.fetched
  have hread : a.fetched.memory.read 0x017 = count := by rw [hf.memory_eq, read_cells]
  rw [Architecture.execute_eq_perform]
  change Serves (Architecture.skipWhen
    { a.fetched with memory := a.fetched.memory.write 0x017 (a.fetched.memory.read 0x017 + 1) }
    (a.fetched.memory.read 0x017 + 1 == 0)) _ _ _ _
  rw [Architecture.skipWhen_eq, hread]
  refine ⟨hf.running, hf.disabled, ?_, ?_, hf.pending_eq, hf.output_eq⟩
  · simp only [beq_iff_eq, hf.pc_eq]
    rfl
  · simp only [hf.memory_eq]
    exact write_cells ..

theorem Serves.bun (h : Serves a 0x015 count pending printed) :
    Serves (a.execute (.memory .bun 0x010 false)) 0x010 count pending printed := by
  have hf := h.fetched
  rw [Architecture.execute_eq_perform]
  exact ⟨hf.running, hf.disabled, rfl, hf.memory_eq, hf.pending_eq, hf.output_eq⟩

theorem Serves.hlt (h : Serves a 0x016 count pending printed) :
    (a.execute (.register .hlt)).s = true ∧ (a.execute (.register .hlt)).memory = cells count ∧
      (a.execute (.register .hlt)).output.toList = printed := by
  have hf := h.fetched
  rw [Architecture.execute_eq_perform]
  exact ⟨rfl, hf.memory_eq, hf.output_eq⟩

/-- A character is taken, printed and counted. -/
theorem Serves.character (h : Serves a 0x010 count (c :: pending) printed) :
    ∃ b, a.Leads 4 b ∧ Serves b (if count + 1 = 0 then 0x016 else 0x015) (count + 1) pending
      (printed ++ [c]) := by
  obtain ⟨hinp, hc⟩ := h.ski.inp
  have hout := hinp.out hc
  exact ⟨_, .next (h.fetches rfl) (.next (h.ski.fetches rfl) (.next (hinp.fetches rfl)
    (.one (hout.fetches rfl)))), hout.isz⟩

/-! ## All characters -/

/-- While there are enough characters the program prints until the count comes to 0. -/
theorem Serves.loop {n : Nat} (hn : n < 65536)
    (h : Serves a 0x010 (BitVec.ofInt 16 (-(n + 1 : Nat))) pending printed)
    (hlength : n + 1 ≤ pending.length) :
    ∃ b, a.Leads (5 * (n + 1)) b ∧ b.s = true ∧ b.memory = cells 0 ∧
      b.output.toList = printed ++ pending.take (n + 1) := by
  induction n generalizing a pending printed with
  | zero =>
      obtain ⟨c, rest, rfl⟩ := List.exists_cons_of_length_pos hlength
      obtain ⟨b, hl, hb⟩ := h.character
      -- The count comes to 0, so ISZ skips the jump back.
      have hzero : BitVec.ofInt 16 (-(0 : Nat)) = 0 := rfl
      rw [ofInt_neg_add_one, hzero, if_pos rfl] at hb
      obtain ⟨hs, hmemory, houtput⟩ := hb.hlt
      exact ⟨_, hl.trans (.one (hb.fetches rfl)), hs, hmemory, houtput⟩
  | succ n ih =>
      obtain ⟨c, rest, rfl⟩ := List.exists_cons_of_length_pos (Nat.zero_lt_of_lt hlength)
      obtain ⟨b, hl, hb⟩ := h.character
      have hne : BitVec.ofInt 16 (-(n + 1 : Nat)) ≠ 0 :=
        (ofInt_neg_eq_zero_iff hn).not.mpr (Nat.succ_ne_zero n)
      rw [ofInt_neg_add_one, if_neg hne] at hb
      obtain ⟨d, hd, hs, hmemory, houtput⟩ :=
        ih (Nat.lt_of_succ_lt hn) hb.bun (Nat.le_of_succ_le_succ hlength)
      refine ⟨d, ?_, hs, hmemory, ?_⟩
      · have hleads := (hl.trans (.one (hb.fetches rfl))).trans hd
        rwa [Nat.add_comm] at hleads
      · rw [houtput, List.append_assoc]
        rfl

/-- Where the program is loaded without breakpoints and at least as many characters are typed as it is to
echo, a budget of five cycles for each of these suffices. The run halts after as many cycles. It has printed
the characters modulo 256, in order, and of the memory it has changed the count alone. -/
theorem prints_typed {m : Machine} (hm : m.Reachable) (hbreak : m.breakpoints = .empty) {n : Nat}
    (hpos : 1 ≤ n) (hmax : n ≤ 32768) {text : List Char} (hlength : n ≤ text.length) :
    ∃ image, assemble (source n) = .ok image ∧
      let loaded := (m.load image).typeText text
      let r := loaded.run (5 * n)
      r.2 = .ok .halted ∧ r.1.computer.cycles = 5 * n ∧
        r.1.computer.output.toList = (text.take n).map Byte.ofChar ∧
        loaded.computer.memory.read 0x017 = BitVec.ofInt 16 (-n) ∧
        r.1.computer.memory.read 0x017 = 0 ∧
        ∀ cell, cell ≠ 0x017 → r.1.computer.memory.read cell = loaded.computer.memory.read cell := by
  obtain ⟨image, hassemble, hentry, hfills⟩ := exists_image hmax
  refine ⟨image, hassemble, ?_⟩
  intro loaded r
  obtain ⟨n, rfl⟩ := Nat.exists_eq_add_of_le' hpos
  have hmemory : loaded.computer.memory = cells (BitVec.ofInt 16 (-(n + 1 : Nat))) :=
    hfills.memory_eq (by simp [code])
  have hserves : Serves loaded.computer.architecture 0x010 (BitVec.ofInt 16 (-(n + 1 : Nat)))
      (text.map Byte.ofChar) [] := ⟨rfl, rfl, hentry, hmemory, rfl, rfl⟩
  obtain ⟨b, hl, hs, hb, houtput⟩ := hserves.loop (by omega) (by simpa using hlength)
  have hreach : loaded.Reachable := (hm.perform (.load image)).perform (.typeText text)
  obtain ⟨hresult, harch⟩ := hreach.run_of_leads hbreak rfl hl hs le_rfl
  have hcells : r.1.computer.memory = cells 0 := (congrArg Architecture.memory harch).trans hb
  have hcycles := (congrArg Architecture.cycles harch).trans hl.cycles_eq
  refine ⟨hresult, hcycles.trans (Nat.zero_add _), ?_, ?_, ?_, ?_⟩
  · have hprinted : r.1.computer.output = b.output := congrArg Architecture.output harch
    rw [hprinted, houtput, List.map_take]
    rfl
  · rw [hmemory, read_cells]
  · rw [hcells, read_cells]
  · intro cell hcell
    rw [hcells, hmemory, ← write_cells _ 0, Memory.read_write_of_ne _ (Ne.symm hcell)]

theorem prints_typed_three :
    ∃ image, assemble (source 3) = .ok image ∧
      let r := ((Machine.initial.load image).typeText ['h', 'e', 'ŀ', 'l', 'o']).run 15
      r.2 = .ok .halted ∧ r.1.computer.cycles = 15 ∧
        r.1.computer.output.toList = ['h', 'e', '@'].map Byte.ofChar := by
  obtain ⟨image, hassemble, hresult, hcycles, houtput, -, -, -⟩ :=
    prints_typed (m := .initial) .initial rfl (n := 3) (by decide) (by decide)
      (by decide : 3 ≤ ['h', 'e', 'ŀ', 'l', 'o'].length)
  exact ⟨image, hassemble, hresult, hcycles, houtput⟩

end Echo

end BasicComputer
