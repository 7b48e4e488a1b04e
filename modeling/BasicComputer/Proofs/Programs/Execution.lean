import BasicComputer.Proofs.Assembly.Reading
import BasicComputer.Proofs.Machine.Granularity
import BasicComputer.Proofs.Machine.Interrupt

/-! # Executing a program

What a program does is shown instruction by instruction, without the registers of the control unit. Where
its instructions lead to a halt within the budget, a run of the machine comes to the same end. -/

namespace BasicComputer

/-! ## Programs in memory -/

namespace Memory

/-- These words from the origin on, and 0 everywhere else. -/
def block (origin : Address) (words : List Word) : Memory :=
  ⟨.ofFn fun i => words.getD (BitVec.ofFin i - origin).toNat 0⟩

theorem read_block (origin : Address) (words : List Word) (a : Address) :
    (block origin words).read a = words.getD (a - origin).toNat 0 := by
  rw [read_eq_getElem, block, Vector.getElem_ofFn]
  rfl

theorem block_nil (origin : Address) : block origin [] = blank :=
  ext_read fun a => by rw [read_block, read_blank, List.getD_nil]

/-- The cell of a word of the block. -/
theorem add_ofNat_eq_iff {origin a : Address} {k : Nat} (hk : k < 4096) :
    origin + BitVec.ofNat 12 k = a ↔ (a - origin).toNat = k := by
  have hsub : origin + BitVec.ofNat 12 k = a ↔ a - origin = BitVec.ofNat 12 k := by
    refine ⟨?_, ?_⟩
    · rintro rfl
      rw [BitVec.add_comm, BitVec.add_sub_cancel]
    · intro h
      rw [← h, BitVec.add_comm, BitVec.sub_add_cancel]
  rw [hsub, ← BitVec.toNat_inj, BitVec.toNat_ofNat, Nat.mod_eq_of_lt hk]

theorem write_block_of_getD {origin : Address} {words words' : List Word} {k : Nat} {w : Word}
    (hk : k < 4096) (h : ∀ j, words'.getD j 0 = if j = k then w else words.getD j 0) :
    (block origin words).write (origin + BitVec.ofNat 12 k) w = block origin words' := by
  refine ext_read fun a => ?_
  rw [read_write, read_block, read_block, h]
  simp only [add_ofNat_eq_iff hk]

theorem write_block {origin : Address} {words : List Word} {k : Nat} (hk : k < words.length)
    (hk' : k < 4096) (w : Word) :
    (block origin words).write (origin + BitVec.ofNat 12 k) w = block origin (words.set k w) := by
  refine write_block_of_getD hk' fun j => ?_
  by_cases hj : j = k
  · subst hj
    simp [hk]
  · simp [hj, List.getElem?_set_ne (Ne.symm hj)]

theorem write_block_length {origin : Address} {words : List Word} (h : words.length < 4096) (w : Word) :
    (block origin words).write (origin + BitVec.ofNat 12 words.length) w =
      block origin (words ++ [w]) := by
  refine write_block_of_getD h fun j => ?_
  rcases Nat.lt_trichotomy j words.length with hj | rfl | hj
  · simp [Nat.ne_of_lt hj, List.getElem?_append_left hj]
  · simp
  · have hlength : (words ++ [w]).length ≤ j := by
      rw [List.length_append]
      exact hj
    simp [Nat.ne_of_gt hj, Nat.le_of_lt hj, List.getElem?_eq_none hlength]

/-- A program from the origin on with data behind it, and 0 everywhere else. -/
def holding (origin : Address) (program : List Instruction) (data : List Word) : Memory :=
  block origin (program.map Instruction.encode ++ data)

section

variable {origin a : Address} {program : List Instruction} {data : List Word} {k : Nat}

theorem decode?_read_holding {i : Instruction} (h : program[(a - origin).toNat]? = some i) :
    Instruction.decode? ((holding origin program data).read a) = some i := by
  have hlt : (a - origin).toNat < (program.map Instruction.encode).length := by
    rw [List.length_map]
    exact (List.getElem?_eq_some_iff.mp h).1
  rw [holding, read_block, List.getD_eq_getElem?_getD, List.getElem?_append_left hlt,
    List.getElem?_map, h]
  exact Instruction.decode?_encode i

theorem read_holding {w : Word} (hw : data[k]? = some w) (hk : program.length + k < 4096) :
    (holding origin program data).read (origin + BitVec.ofNat 12 (program.length + k)) = w := by
  rw [holding, read_block, (add_ofNat_eq_iff hk).mp rfl, List.getD_eq_getElem?_getD,
    List.getElem?_append_right (by simp)]
  simp [hw]

theorem write_holding (hdata : k < data.length) (hk : program.length + k < 4096) (w : Word) :
    (holding origin program data).write (origin + BitVec.ofNat 12 (program.length + k)) w =
      holding origin program (data.set k w) := by
  rw [holding, write_block (by simpa using hdata) hk, List.set_append_right _ _ (by simp)]
  simp [holding]

end

end Memory

/-- The cells of so many words from the origin on. -/
def Address.cells (origin : Address) (n : Nat) : List Address :=
  (List.range n).map fun k => origin + BitVec.ofNat 12 k

/-- The image fills the cells from the origin on with these words, in this order. -/
def Image.Fills (image : Image) (origin : Address) (words : List Word) : Prop :=
  image.contents = (origin.cells words.length).zip words

theorem Image.Fills.memory_eq {image : Image} {origin : Address} {words : List Word}
    (h : image.Fills origin words) (hlength : words.length ≤ 4096) :
    image.memory = .block origin words := by
  have hmemory : image.memory = image.contents.foldl (fun memory c => memory.write c.1 c.2) .blank := by
    rw [Image.memory, Image.contents, List.foldl_map]
  rw [hmemory, h]
  clear h hmemory
  induction words using List.reverseRecOn with
  | nil => exact (Memory.block_nil origin).symm
  | append_singleton words w ih =>
      rw [List.length_append, List.length_singleton] at hlength
      have hlt : words.length < 4096 := hlength
      have hcells : origin.cells (words ++ [w]).length =
          origin.cells words.length ++ [origin + BitVec.ofNat 12 words.length] := by
        simp [Address.cells, List.range_succ]
      rw [hcells, List.zip_append (by simp [Address.cells]), List.foldl_append,
        ih (Nat.le_of_lt hlt)]
      exact Memory.write_block_length hlt w

theorem exists_words {symbols : SymbolTable} {placements : List Placement} {words : List Word}
    (h : List.Forall₂ (fun p w => p.statement.word symbols = .ok w) placements words) :
    ∃ placed, placements.mapM (Placement.word symbols) = .ok placed ∧
      placed.map (fun w => (w.address.address, w.word)) = (placements.map (·.address)).zip words := by
  induction h with
  | nil => exact ⟨[], rfl, rfl⟩
  | @cons p w placements words hp _ ih =>
      obtain ⟨placed, hplaced, hcontents⟩ := ih
      refine ⟨⟨p.address.word, w, p.span⟩ :: placed, ?_, ?_⟩
      · rw [List.mapM_cons, hplaced, Placement.word, hp]
        rfl
      · rw [List.map_cons, hcontents, Address.address_word]
        rfl

/-- The layout of a program whose statements lie one behind the other from its entry on. -/
def Layout.filled (origin : Address) (labels : List (String × Address)) (statements : List Statement) :
    Layout where
  symbols := ⟨labels.map fun label => (label.1, ⟨label.2, ⟨0, 0⟩⟩)⟩
  placements := (((origin.cells statements.length).zip statements).map fun p => ⟨p.1, ⟨0, 0⟩, p.2⟩).toArray
  counter := origin + BitVec.ofNat 12 statements.length
  entry := some origin
  ended := true

/-- Such a program fills the cells from its entry on. -/
theorem exists_image_fills {texts : List String} {lines : List Line} (hne : texts ≠ [])
    (hread : List.Forall₂ ReadsLike texts lines) {origin : Address} {labels : List (String × Address)}
    {statements : List Statement} {words : List Word}
    (hl : lines.foldlM Layout.addRead .empty = .ok (.filled origin labels statements))
    (hwords : List.Forall₂
      (fun s w => s.word (Layout.filled origin labels statements).symbols = .ok w) statements words) :
    ∃ image, assemble ("\n".intercalate texts) = .ok image ∧ image.entry.address = origin ∧
      image.Fills origin words := by
  have hcells : (origin.cells statements.length).length = statements.length := by simp [Address.cells]
  have hplacements : List.Forall₂
      (fun p w => p.statement.word (Layout.filled origin labels statements).symbols = .ok w)
      (Layout.filled origin labels statements).placements.toList words := by
    rw [← List.map_snd_zip (Nat.le_of_eq hcells.symm)] at hwords
    exact List.forall₂_map_left_iff.mpr (List.forall₂_map_left_iff.mp hwords)
  have haddresses : (Layout.filled origin labels statements).placements.toList.map (·.address) =
      origin.cells words.length := by
    rw [← hwords.length_eq]
    refine (List.map_map ..).trans ?_
    exact List.map_fst_zip (Nat.le_of_eq hcells)
  obtain ⟨placed, hplaced, hcontents⟩ := exists_words hplacements
  have hi : assembleLines lines = .ok ⟨origin.word, placed⟩ := by
    rw [assembleLines, hl]
    change (Layout.filled origin labels statements).image = _
    rw [Layout.image, hplaced]
    rfl
  obtain ⟨image, hassemble, hentry, himage⟩ := exists_image_of_read hne hread hi
  refine ⟨image, hassemble, by rw [hentry, Address.address_word], ?_⟩
  rw [Image.Fills, himage, Image.contents, hcontents, haddresses]

/-! ## Instruction after instruction -/

namespace Architecture

/-- The computer runs with interrupts disabled, and PC points at the word of this instruction. -/
structure Fetches (a : Architecture) (i : Instruction) : Prop where
  running : a.s = false
  disabled : a.ien = false
  decodes : Instruction.decode? (a.memory.read a.pc) = some i

/-- So many instructions lead from one state to another. -/
inductive Leads : Nat → Architecture → Architecture → Prop
  | here (a : Architecture) : Leads 0 a a
  | next {n : Nat} {a b : Architecture} {i : Instruction} (h : a.Fetches i)
      (rest : Leads n (a.execute i) b) : Leads (n + 1) a b

variable {a b c : Architecture} {k n : Nat}

theorem Leads.trans (h : Leads k a b) (h' : Leads n b c) : Leads (k + n) a c := by
  induction h with
  | here a => rwa [Nat.zero_add]
  | @next k a b i hf _ ih =>
      rw [Nat.add_right_comm]
      exact .next hf (ih h')

theorem Leads.step {i : Instruction} (hf : a.Fetches i) (hb : a.execute i = b) (h : Leads n b c) :
    Leads (n + 1) a c := by
  subst hb
  exact .next hf h

theorem Leads.one {i : Instruction} (h : a.Fetches i) : Leads 1 a (a.execute i) :=
  .next h (.here _)

/-- The characters that are still to be taken: the one in INPR, where there is one, and those behind it. -/
def pending (a : Architecture) : List Byte :=
  if a.fgi then a.inpr :: a.input else a.input

/-- The computer as an instruction finds it: the devices have acted, PC has moved on, and the cycle is
counted. -/
def fetched (a : Architecture) : Architecture :=
  { a.devicesAct with pc := a.pc + 1, cycles := a.cycles + 1 }

/-- The devices touch nothing but their own registers. Of the pending characters they bring the first to
INPR. -/
theorem exists_fetched (a : Architecture) :
    ∃ inpr fgi input, a.fetched =
        { a with inpr, fgi, input, fgo := true, pc := a.pc + 1, cycles := a.cycles + 1 } ∧
      a.fetched.pending = a.pending ∧
      ∀ c rest, a.pending = c :: rest → fgi = true ∧ inpr = c ∧ input = rest := by
  unfold fetched devicesAct pending
  cases hf : a.fgi with
  | true => exact ⟨a.inpr, true, a.input, by simp, by simp, by simp⟩
  | false =>
      cases hi : a.input with
      | nil => exact ⟨a.inpr, false, [], by simp, by simp, by simp⟩
      | cons c rest => exact ⟨c, true, rest, by simp, by simp, by simp⟩

theorem skipWhen_eq (a : Architecture) (condition : Bool) :
    a.skipWhen condition = { a with pc := if condition then a.pc + 1 else a.pc } := by
  cases condition <;> rfl

/-- No instruction looks at the number of cycles. -/
theorem perform_cycles (a : Architecture) (i : Instruction) (n : Nat) :
    perform { a with cycles := n } i = { a.perform i with cycles := n } := by
  cases i with
  | memory op address indirect =>
      cases op with
      | isz => simp only [perform, performMemory, skipWhen_eq]; rfl
      | _ => rfl
  | register op =>
      cases op with
      | spa | sna | sza | sze => simp only [perform, performRegister, skipWhen_eq]
      | _ => rfl
  | io op =>
      cases op with
      | ski | sko => simp only [perform, performIo, skipWhen_eq]
      | _ => rfl

theorem execute_eq_perform (a : Architecture) (i : Instruction) :
    a.execute i = a.fetched.perform i := by
  have hcycles : a.devicesAct.cycles = a.cycles := by
    unfold devicesAct
    split <;> rfl
  let ready : Architecture := { a.devicesAct with pc := a.pc + 1 }
  have hready : (ready.perform i).cycles + 1 = a.cycles + 1 := by
    rw [cycles_perform]
    exact congrArg (· + 1) hcycles
  have hfetched : a.fetched = { ready with cycles := a.cycles + 1 } := rfl
  rw [hfetched, perform_cycles, ← hready]
  rfl

theorem cycles_execute (a : Architecture) (i : Instruction) :
    (a.execute i).cycles = a.cycles + 1 := by
  rw [execute_eq_perform, cycles_perform]
  rfl

/-- Every instruction takes one cycle. -/
theorem Leads.cycles_eq (h : Leads n a b) : b.cycles = a.cycles + n := by
  induction h with
  | here => rfl
  | next _ _ ih => rw [ih, cycles_execute, Nat.add_right_comm, Nat.add_assoc]

end Architecture

/-! ## Counting up to zero -/

theorem ofInt_neg_add_one (n : Nat) :
    BitVec.ofInt 16 (-(n + 1 : Nat)) + 1 = BitVec.ofInt 16 (-n) := by
  have hone : (1 : Word) = BitVec.ofInt 16 1 := rfl
  rw [hone, ← BitVec.ofInt_add]
  congr 1
  omega

theorem ofInt_neg_eq_zero_iff {n : Nat} (hn : n < 65536) : BitVec.ofInt 16 (-n) = 0 ↔ n = 0 := by
  rw [← BitVec.toNat_inj, BitVec.toNat_ofInt]
  simp
  omega

/-! ## Runs -/

namespace Machine

variable {m : Machine} {n : Nat} {b : Architecture}

theorem stepUpTo_of_halted (hs : m.computer.s = true) (n : Nat) :
    m.stepUpTo n = (m, .ok .halted) := by
  cases n with
  | zero => rw [stepUpTo, Computer.status, hs]; rfl
  | succ n => rw [stepUpTo, step_of_halted hs]

theorem stepUpTo_succ (h : m.step.2 = .ok m.step.1.computer.status) (n : Nat) :
    m.stepUpTo (n + 1) = m.step.1.stepUpTo n := by
  rw [stepUpTo]
  generalize m.step = stepped at h
  obtain ⟨next, result⟩ := stepped
  obtain rfl : result = .ok next.computer.status := h
  cases hs : next.computer.s with
  | true =>
      rw [stepUpTo_of_halted hs]
      simp [Computer.status, hs]
  | false => simp [Computer.status, hs]

/-- Steps go through the instructions, up to the halt that they lead to. -/
theorem Reachable.stepUpTo_of_leads (h : Reachable m) (hb : m.computer.sc = 0) {a : Architecture}
    (ha : m.computer.architecture = a) (hl : a.Leads n b) (hs : b.s = true) {budget : Nat}
    (hn : n ≤ budget) :
    (m.stepUpTo budget).2 = .ok .halted ∧ (m.stepUpTo budget).1.computer.architecture = b := by
  induction hl generalizing m budget with
  | here a =>
      have hhalted : m.computer.s = true := by rwa [← ha] at hs
      rw [stepUpTo_of_halted hhalted]
      exact ⟨rfl, ha⟩
  | @next n a b i hf _ ih =>
      subst ha
      obtain ⟨hrun, hien, hd⟩ := hf
      -- Where interrupts are disabled none is due, so the next cycle is that of the instruction.
      have hr : m.computer.r = false := by
        rw [Bool.eq_false_iff]
        intro hr
        have hdue := ((h.preciseInterrupts.boundary hrun hb).mp hr).1
        exact absurd (hdue.symm.trans hien) (by decide)
      obtain ⟨hresult, hsc, harch⟩ := architecture_step hrun hb hr hd
      obtain ⟨left, rfl⟩ := Nat.exists_eq_add_of_le' hn
      rw [← Nat.add_assoc, stepUpTo_succ hresult]
      exact ih (h.perform .step) hsc harch hs (Nat.le_add_left n left)

/-- A machine without breakpoints, at the beginning of a cycle, runs through the instructions that lead to
a halt within the budget. -/
theorem Reachable.run_of_leads (h : Reachable m) (hbreak : m.breakpoints = .empty)
    (hb : m.computer.sc = 0) (hl : m.computer.architecture.Leads n b) (hs : b.s = true) {budget : Nat}
    (hn : n ≤ budget) :
    (m.run budget).2 = .ok .halted ∧ (m.run budget).1.computer.architecture = b := by
  obtain ⟨hresult, harch⟩ := h.stepUpTo_of_leads hb rfl hl hs hn
  have hrun : m.run budget = runOfSteps budget (m.stepUpTo budget) := finishRun_runOn hbreak le_rfl rfl
  rw [hrun]
  generalize m.stepUpTo budget = last at hresult harch
  obtain ⟨last, result⟩ := last
  obtain rfl : result = .ok .halted := hresult
  exact ⟨rfl, harch⟩

end Machine

end BasicComputer
