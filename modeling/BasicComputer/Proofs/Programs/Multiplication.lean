import BasicComputer.Proofs.Programs.Execution
import Mathlib.Data.BitVec

/-! # The multiplication program

The program shifts the second factor right through E and the first factor left. Where a bit comes out it adds
the first factor to the product. Eight turns take up the lower eight bits of the second factor. -/

namespace BasicComputer

namespace Multiplication

/-! ## The program -/

def body : List String :=
  ["ORG 5",
    "LOP, CLE",
    "LDA Y",
    "CIR",
    "STA Y",
    "SZE",
    "BUN ONE",
    "BUN ZRO",
    "ONE, LDA X",
    "ADD P",
    "STA P",
    "CLE",
    "ZRO, LDA X",
    "CIL",
    "STA X",
    "ISZ CTR",
    "BUN LOP",
    "HLT",
    "CTR, DEC -8"]

def ending : List String := ["P, HEX 0", "END"]

/-- The program that multiplies the factors written like this. -/
def source (x y : String) : String :=
  "\n".intercalate (body ++ ("X, HEX " ++ x) :: ("Y, HEX " ++ y) :: ending)

def labels : List (String × Address) :=
  [("LOP", 0x005), ("ONE", 0x00C), ("ZRO", 0x010), ("CTR", 0x016), ("X", 0x017), ("Y", 0x018), ("P", 0x019)]

/-- The statements of the lines, with these literals for the factors. -/
def statements (x y : Token) : List Statement :=
  let label (name : String) := Token.unplaced (.identifier, name)
  [.register .cle none, .memory .lda (label "Y") none, .register .cir none,
    .memory .sta (label "Y") none, .register .sze none, .memory .bun (label "ONE") none,
    .memory .bun (label "ZRO") none, .memory .lda (label "X") none, .memory .add (label "P") none,
    .memory .sta (label "P") none, .register .cle none, .memory .lda (label "X") none,
    .register .cil none, .memory .sta (label "X") none, .memory .isz (label "CTR") none,
    .memory .bun (label "LOP") none, .register .hlt none,
    .decimal (Token.unplaced (.number, "-8")), .hexadecimal x, .hexadecimal y,
    .hexadecimal (Token.unplaced (.number, "0"))]

def code : List Instruction :=
  [.register .cle, .memory .lda 0x018 false, .register .cir, .memory .sta 0x018 false,
    .register .sze, .memory .bun 0x00C false, .memory .bun 0x010 false,
    .memory .lda 0x017 false, .memory .add 0x019 false, .memory .sta 0x019 false, .register .cle,
    .memory .lda 0x017 false, .register .cil, .memory .sta 0x017 false,
    .memory .isz 0x016 false, .memory .bun 0x005 false, .register .hlt]

theorem exists_image {x y : Word} {xs ys : String} (hx : x.WrittenAs xs) (hy : y.WrittenAs ys) :
    ∃ image, assemble (source xs ys) = .ok image ∧ image.entry.address = 0x005 ∧
      image.Fills 0x005 (code.map Instruction.encode ++ [0xFFF8, x, y, 0]) := by
  have hxname : Lead.word.covers "X".toList = true := rfl
  have hyname : Lead.word.covers "Y".toList = true := rfl
  obtain ⟨xliteral, hxliteral, hxline⟩ := exists_readsLike_hexadecimal hxname hx
  obtain ⟨yliteral, hyliteral, hyline⟩ := exists_readsLike_hexadecimal hyname hy
  have hbody : List.Forall₂ ReadsLike body (body.map readLine) := forall₂_readsLike (by decide +kernel)
  have hending : List.Forall₂ ReadsLike ending (ending.map readLine) := forall₂_readsLike (by decide +kernel)
  have hread := List.rel_append hbody (.cons hxline (.cons hyline hending))
  have hlayout : (body.map readLine ++
      ⟨some (Token.unplaced (.label, upperCase "X".toList)), .word (.hexadecimal xliteral)⟩ ::
        ⟨some (Token.unplaced (.label, upperCase "Y".toList)), .word (.hexadecimal yliteral)⟩ ::
          ending.map readLine).foldlM Layout.addRead .empty =
      .ok (.filled 0x005 labels (statements xliteral yliteral)) := by
    -- Nothing but the literals is a variable, so that the lines can be laid out.
    with_unfolding_all rfl
  have hword {literal : Token} {w : Word} (h : literal.hexadecimal 0xFFFF = .ok w.toNat) :
      (literal.hexadecimal 0xFFFF).map (BitVec.ofNat 16) = .ok w := by
    rw [h, Except.map, BitVec.ofNat_toNat, BitVec.setWidth_eq]
  refine exists_image_fills (by simp) hread hlayout ?_
  iterate 18 refine .cons rfl ?_
  exact .cons (hword hxliteral) (.cons (hword hyliteral) (.cons rfl .nil))

/-- The program in memory, with these data behind it. -/
def cells (data : List Word) : Memory := .holding 0x005 code data

/-- The cell that holds this one of the data. -/
def cell (k : Nat) : Address := 0x005 + BitVec.ofNat 12 (code.length + k)

section

variable {data : List Word} {k : Nat} {w : Word}

theorem read_cells (hw : data[k]? = some w) (hk : code.length + k < 4096) :
    (cells data).read (cell k) = w := Memory.read_holding hw hk

theorem write_cells (hw : data[k]? = some w) (hk : code.length + k < 4096) (v : Word) :
    (cells data).write (cell k) v = cells (data.set k v) :=
  Memory.write_holding (List.getElem?_eq_some_iff.mp hw).1 hk v

end

/-! ## The instructions -/

/-- The computer at an instruction of the program, with these data behind the program. -/
def working (pc : Address) (ac : Word) (e : Bool) (data : List Word) (cycles : Nat) :
    Architecture where
  memory := cells data
  ac := ac
  e := e
  pc := pc
  inpr := 0
  outr := 0
  fgi := false
  fgo := true
  ien := false
  s := false
  input := []
  output := #[]
  cycles := cycles

section

variable {pc : Address} {ac : Word} {e : Bool} {data : List Word} {cycles : Nat}

theorem fetches {i : Instruction} (hi : code[(pc - 0x005).toNat]? = some i) :
    (working pc ac e data cycles).Fetches i :=
  ⟨rfl, rfl, Memory.decode?_read_holding hi⟩

theorem fetched_working :
    (working pc ac e data cycles).fetched = working (pc + 1) ac e data (cycles + 1) := rfl

theorem execute_cle : (working pc ac e data cycles).execute (.register .cle) =
    working (pc + 1) ac false data (cycles + 1) := rfl

theorem execute_cir : (working pc ac false data cycles).execute (.register .cir) =
    working (pc + 1) (ac >>> 1) (decide (ac.toNat % 2 = 1)) data (cycles + 1) := by
  have hac : BitVec.ofNat 16 (ac.toNat / 2 + false.toNat * 0x8000) = ac >>> 1 :=
    BitVec.eq_of_toNat_eq (by simp [Nat.shiftRight_eq_div_pow]; omega)
  rw [← hac]
  rfl

theorem execute_cil : (working pc ac false data cycles).execute (.register .cil) =
    working (pc + 1) (2 * ac) (decide (0x8000 ≤ ac.toNat)) data (cycles + 1) := by
  have hac : BitVec.ofNat 16 (ac.toNat * 2 + false.toNat) = 2 * ac :=
    BitVec.eq_of_toNat_eq (by simp [Nat.mul_comm])
  rw [← hac]
  rfl

theorem execute_sze : (working pc ac e data cycles).execute (.register .sze) =
    working (if e then pc + 1 else pc + 1 + 1) ac e data (cycles + 1) := by
  cases e <;> rfl

theorem execute_bun (target : Address) :
    (working pc ac e data cycles).execute (.memory .bun target false) =
      working target ac e data (cycles + 1) := rfl

section

variable {k : Nat} {w : Word} (hw : data[k]? = some w) (hk : code.length + k < 4096)

include hw hk

theorem execute_lda : (working pc ac e data cycles).execute (.memory .lda (cell k) false) =
    working (pc + 1) w e data (cycles + 1) := by
  rw [Architecture.execute_eq_perform, fetched_working]
  simp [Architecture.perform, Architecture.performMemory, Architecture.effectiveAddress, working,
    read_cells hw hk]

theorem execute_add : (working pc ac e data cycles).execute (.memory .add (cell k) false) =
    working (pc + 1) (ac + w) (decide (0x10000 ≤ ac.toNat + w.toNat)) data (cycles + 1) := by
  rw [Architecture.execute_eq_perform, fetched_working]
  simp [Architecture.perform, Architecture.performMemory, Architecture.effectiveAddress, working,
    read_cells hw hk, BitVec.ofNat_add]

theorem execute_sta : (working pc ac e data cycles).execute (.memory .sta (cell k) false) =
    working (pc + 1) ac e (data.set k ac) (cycles + 1) := by
  rw [Architecture.execute_eq_perform, fetched_working]
  simp [Architecture.perform, Architecture.performMemory, Architecture.effectiveAddress, working,
    write_cells hw hk]

theorem execute_isz : (working pc ac e data cycles).execute (.memory .isz (cell k) false) =
    working (if w + 1 = 0 then pc + 1 + 1 else pc + 1) ac e (data.set k (w + 1)) (cycles + 1) := by
  rw [Architecture.execute_eq_perform, fetched_working]
  simp [Architecture.perform, Architecture.performMemory, Architecture.effectiveAddress,
    Architecture.skipWhen_eq, working, read_cells hw hk, write_cells hw hk]

end

end

section

variable {ac : Word} {e : Bool} {counter x y p : Word} {cycles : Nat}

/-- The lowest bit of the second factor decides where the program goes on. -/
theorem leads_bit : (working 0x005 ac e [counter, x, y, p] cycles).Leads 6
    (working (if y.toNat % 2 = 1 then 0x00C else 0x010) (y >>> 1) (decide (y.toNat % 2 = 1))
      [counter, x, y >>> 1, p] (cycles + 6)) := by
  refine .step (fetches rfl) execute_cle ?_
  refine .step (fetches rfl) (execute_lda (k := 2) rfl (by decide)) ?_
  refine .step (fetches rfl) execute_cir ?_
  refine .step (fetches rfl) (execute_sta (k := 2) rfl (by decide)) ?_
  refine .step (fetches rfl) execute_sze ?_
  -- Where the bit is 0, SZE skips the first of the two jumps.
  by_cases h : y.toNat % 2 = 1
  · simp only [h]
    exact .step (fetches rfl) (execute_bun 0x00C) (.here _)
  · simp only [h]
    exact .step (fetches rfl) (execute_bun 0x010) (.here _)

/-- The first factor is added to the product. -/
theorem leads_addition : (working 0x00C ac e [counter, x, y, p] cycles).Leads 4
    (working 0x010 (x + p) false [counter, x, y, x + p] (cycles + 4)) := by
  refine .step (fetches rfl) (execute_lda (k := 1) rfl (by decide)) ?_
  refine .step (fetches rfl) (execute_add (k := 3) rfl (by decide)) ?_
  refine .step (fetches rfl) (execute_sta (k := 3) rfl (by decide)) ?_
  exact .step (fetches rfl) execute_cle (.here _)

/-- The first factor is doubled, and the turn counted. -/
theorem leads_count : (working 0x010 ac false [counter, x, y, p] cycles).Leads 4
    (working (if counter + 1 = 0 then 0x015 else 0x014) (2 * x) (decide (0x8000 ≤ x.toNat))
      [counter + 1, 2 * x, y, p] (cycles + 4)) := by
  refine .step (fetches rfl) (execute_lda (k := 1) rfl (by decide)) ?_
  refine .step (fetches rfl) execute_cil ?_
  refine .step (fetches rfl) (execute_sta (k := 1) rfl (by decide)) ?_
  exact .step (fetches rfl) (execute_isz (k := 0) rfl (by decide)) (.here _)

/-- A turn takes the lowest bit out of the second factor. -/
theorem leads_turn (ac : Word) (e : Bool) (counter x y p : Word) (cycles : Nat) :
    ∃ n ≤ 14, ∃ ac' e' cycles', (working 0x005 ac e [counter, x, y, p] cycles).Leads n
      (working (if counter + 1 = 0 then 0x015 else 0x014) ac' e'
        [counter + 1, 2 * x, y >>> 1, if y.toNat % 2 = 1 then x + p else p] cycles') := by
  have hbit : (working 0x005 ac e [counter, x, y, p] cycles).Leads 6 _ := leads_bit
  by_cases h : y.toNat % 2 = 1
  · rw [if_pos h] at hbit ⊢
    exact ⟨14, le_rfl, _, _, _, hbit.trans (leads_addition.trans leads_count)⟩
  · rw [if_neg h, decide_eq_false h] at hbit
    rw [if_neg h]
    exact ⟨10, by decide, _, _, _, hbit.trans leads_count⟩

end

/-! ## All turns -/

/-- The first factor times so many of the lower bits of the second. -/
def product (x y : Word) (n : Nat) : Word := x * BitVec.ofNat 16 (y.toNat % 2 ^ n)

theorem product_zero (x y : Word) : product x y 0 = 0 := by
  simp [product, Nat.mod_one]

theorem product_succ (x y p : Word) (n : Nat) :
    (if y.toNat % 2 = 1 then x + p else p) + product (2 * x) (y >>> 1) n = p + product x y (n + 1) := by
  have hsplit : y.toNat % 2 ^ (n + 1) = y.toNat % 2 + 2 * (y.toNat / 2 % 2 ^ n) := by
    rw [Nat.pow_succ', Nat.mod_mul]
  have hshift : (y >>> 1).toNat = y.toNat / 2 := by
    simp [Nat.shiftRight_eq_div_pow]
  rw [product, product, hsplit, hshift, BitVec.ofNat_add, BitVec.ofNat_mul]
  generalize BitVec.ofNat 16 (y.toNat / 2 % 2 ^ n) = high
  have hzero : BitVec.ofNat 16 0 = (0 : Word) := rfl
  have hone : BitVec.ofNat 16 1 = (1 : Word) := rfl
  have htwo : BitVec.ofNat 16 2 = (2 : Word) := rfl
  rcases Nat.mod_two_eq_zero_or_one y.toNat with h | h
  · rw [h, if_neg (by decide), hzero, htwo]
    ring
  · rw [h, if_pos rfl, hone, htwo]
    ring

/-- Each turn adds what one bit accounts for, until the counter comes to 0. -/
theorem leads_halt {n : Nat} (hn : n < 65536) (ac : Word) (e : Bool) (x y p : Word) (cycles : Nat) :
    ∃ k ≤ 15 * (n + 1), ∃ b,
      (working 0x005 ac e [BitVec.ofInt 16 (-(n + 1 : Nat)), x, y, p] cycles).Leads k b ∧
        b.s = true ∧ b.memory.read 0x019 = p + product x y (n + 1) := by
  induction n generalizing ac e x y p cycles with
  | zero =>
      obtain ⟨k, hk, ac', e', cycles', hturn⟩ :=
        leads_turn ac e (BitVec.ofInt 16 (-(0 + 1 : Nat))) x y p cycles
      -- The counter comes to 0, so ISZ skips the jump back.
      have hzero : BitVec.ofInt 16 (-(0 : Nat)) = 0 := rfl
      rw [ofInt_neg_add_one, hzero, if_pos rfl] at hturn
      refine ⟨k + 1, by omega, _, hturn.trans (.one (fetches (i := .register .hlt) rfl)), rfl, ?_⟩
      rw [← product_succ, product_zero, add_zero]
      exact read_cells (k := 3) rfl (by decide)
  | succ n ih =>
      obtain ⟨k, hk, ac', e', cycles', hturn⟩ :=
        leads_turn ac e (BitVec.ofInt 16 (-(n + 1 + 1 : Nat))) x y p cycles
      have hne : BitVec.ofInt 16 (-(n + 1 : Nat)) ≠ 0 :=
        (ofInt_neg_eq_zero_iff hn).not.mpr (Nat.succ_ne_zero n)
      rw [ofInt_neg_add_one, if_neg hne] at hturn
      obtain ⟨l, hl, b, hrest, hs, hb⟩ := ih (Nat.lt_of_succ_lt hn) ac' e' (2 * x) (y >>> 1)
        (if y.toNat % 2 = 1 then x + p else p) (cycles' + 1)
      have hbun := hturn.trans (.step (fetches rfl) (execute_bun 0x005) hrest)
      exact ⟨_, by omega, b, hbun, hs, hb.trans (product_succ x y p (n + 1))⟩

/-- Where the program is loaded without breakpoints a budget of 1000 cycles suffices: the run halts, and the
last cell of the program, which was 0, holds the product of the first factor and the lower eight bits of the
second, modulo 65536. -/
theorem multiplies_low_byte {m : Machine} (hm : m.Reachable) (hbreak : m.breakpoints = .empty)
    {x y : Word} {xs ys : String} (hx : x.WrittenAs xs) (hy : y.WrittenAs ys) :
    ∃ image, assemble (source xs ys) = .ok image ∧
      image.contents.getLast? = some (0x019, 0) ∧
      let r := (m.load image).run 1000
      r.2 = .ok .halted ∧
        r.1.computer.memory.read 0x019 = BitVec.ofNat 16 (x.toNat * (y.toNat % 256)) := by
  obtain ⟨image, hassemble, hentry, hfills⟩ := exists_image hx hy
  refine ⟨image, hassemble, ?_, ?_⟩
  · rw [hfills]
    rfl
  intro r
  have hmemory : image.memory = cells [0xFFF8, x, y, 0] := hfills.memory_eq (by simp [code])
  have harch : (m.load image).computer.architecture =
      working 0x005 0 false [0xFFF8, x, y, 0] 0 := by
    rw [working, ← hmemory, ← hentry]
    rfl
  obtain ⟨k, hk, b, hl, hs, hb⟩ := leads_halt (n := 7) (by decide) 0 false x y 0 0
  have hcounter : BitVec.ofInt 16 (-(7 + 1 : Nat)) = 0xFFF8 := rfl
  rw [hcounter, ← harch] at hl
  have hreach : (m.load image).Reachable := hm.perform (.load image)
  have hbudget : k ≤ 1000 := Nat.le_trans hk (by decide)
  obtain ⟨hresult, hlast⟩ := hreach.run_of_leads hbreak rfl hl hs hbudget
  refine ⟨hresult, ?_⟩
  have hread : r.1.computer.memory = b.memory := congrArg Architecture.memory hlast
  rw [hread, hb, product, zero_add, BitVec.ofNat_mul, BitVec.ofNat_toNat, BitVec.setWidth_eq]
  rfl

/-- The factors are spelled like an instruction and a directive. -/
theorem multiplies_low_byte_spelled :
    Word.WrittenAs 0x0ADD "Add" ∧ Word.WrittenAs 0x0DEC "dEC" ∧
      ∃ image, assemble (source "Add" "dEC") = .ok image ∧
        let r := (Machine.initial.load image).run 1000
        r.2 = .ok .halted ∧ r.1.computer.memory.read 0x019 = 0x03BC := by
  have hx : Word.WrittenAs 0x0ADD "Add" := ⟨by decide, by decide, by simp; decide, by decide +kernel⟩
  have hy : Word.WrittenAs 0x0DEC "dEC" := ⟨by decide, by decide, by simp; decide, by decide +kernel⟩
  obtain ⟨image, hassemble, -, hresult, hproduct⟩ :=
    multiplies_low_byte (m := .initial) .initial rfl hx hy
  exact ⟨hx, hy, image, hassemble, hresult, hproduct⟩

end Multiplication

end BasicComputer
