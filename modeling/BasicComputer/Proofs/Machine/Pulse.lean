import BasicComputer.Machine.Step

/-! # Pulses

Everything that a single pulse can do to a running computer: it refuses a word, ends the cycle or goes
on with it, by one of few transfers for each time within the cycle. -/

namespace BasicComputer

namespace Computer

/-! ## One pulse -/

/-- Counts the sequence counter up. -/
def tick (c : Computer) : Computer := { c with sc := c.sc + 1 }

@[simp] theorem sc_tick (c : Computer) : c.tick.sc = c.sc + 1 := rfl

@[simp] theorem s_tick (c : Computer) : c.tick.s = c.s := rfl

@[simp] theorem cycle_tick (c : Computer) : c.tick.cycle = c.cycle := rfl

/-- The computer once the devices have acted, if a cycle begins. -/
def begun (c : Computer) : Computer := if c.atBoundary then c.startCycle else c

theorem begun_of_boundary {c : Computer} (h : c.sc = 0) : c.begun = c.startCycle := by
  simp [begun, atBoundary, h]

theorem begun_of_within {c : Computer} (h : c.sc ≠ 0) : c.begun = c := by
  simp [begun, atBoundary, h]

@[simp] theorem sc_begun (c : Computer) : c.begun.sc = c.sc := by
  unfold begun
  split <;> simp

@[simp] theorem s_feed (c : Computer) : c.feed.s = c.s := by
  unfold feed
  split <;> rfl

@[simp] theorem s_begun (c : Computer) : c.begun.s = c.s := by
  unfold begun
  split <;> simp [startCycle]

theorem pulse_of_halted {c : Computer} (h : c.s = true) : c.pulse = ⟨c, [], none⟩ := by
  simp [pulse, h]

theorem pulse_of_running {c : Computer} (h : c.s = false) :
    c.pulse.computer = c.begun.advance.computer ∧ c.pulse.fault = c.begun.advance.fault := by
  cases hb : c.atBoundary <;> simp [pulse, begun, h, hb]

theorem pulse_of_refused {c : Computer} (hs : c.s = false) (h : c.begun.transfer? = none) :
    c.pulse.computer = c.begun.refuse ∧ c.pulse.fault = some ⟨c.begun.ir, c.begun.origin⟩ := by
  obtain ⟨hc, hf⟩ := pulse_of_running hs
  rw [hc, hf]
  simp [advance, h]

theorem pulse_of_ends {c : Computer} {t : Transfer} (hs : c.s = false)
    (h : c.begun.transfer? = some t) (ht : t.endsCycle = true) :
    c.pulse.computer = (t.apply c.begun).finishCycle ∧ c.pulse.fault = none := by
  obtain ⟨hc, hf⟩ := pulse_of_running hs
  rw [hc, hf]
  simp [advance, h, ht]

theorem pulse_of_proceeds {c : Computer} {t : Transfer} (hs : c.s = false)
    (h : c.begun.transfer? = some t) (ht : t.endsCycle = false) :
    c.pulse.computer = (t.apply c.begun).tick ∧ c.pulse.fault = none := by
  obtain ⟨hc, hf⟩ := pulse_of_running hs
  rw [hc, hf]
  simp [advance, tick, h, ht]

/-- A running computer's pulse refuses a word, ends the cycle or goes on with it. -/
theorem pulse_cases {c : Computer} (hs : c.s = false) :
    (c.begun.transfer? = none ∧ c.pulse.computer = c.begun.refuse) ∨
      (∃ t, c.begun.transfer? = some t ∧ t.endsCycle = true ∧
        c.pulse.computer = (t.apply c.begun).finishCycle) ∨
      ∃ t, c.begun.transfer? = some t ∧ t.endsCycle = false ∧
        c.pulse.computer = (t.apply c.begun).tick := by
  cases h : c.begun.transfer? with
  | none => exact .inl ⟨rfl, (pulse_of_refused hs h).1⟩
  | some t =>
      cases ht : t.endsCycle with
      | true => exact .inr (.inl ⟨t, rfl, ht, (pulse_of_ends hs h ht).1⟩)
      | false => exact .inr (.inr ⟨t, rfl, ht, (pulse_of_proceeds hs h ht).1⟩)

/-! ## The transfers of each time -/

/-- The transfers after which a cycle goes on, each with its time and circumstances. -/
inductive Proceeds (c : Computer) : Transfer → Prop
  | saveReturn (hc : c.cycle = .interrupt) (h : c.sc = 0) : Proceeds c .trFromPc
  | storeReturn (hc : c.cycle = .interrupt) (h : c.sc = 1) : Proceeds c .memoryFromTr
  | locate (hc : c.cycle = .instruction) (h : c.sc = 0) : Proceeds c .arFromPc
  | fetch (hc : c.cycle = .instruction) (h : c.sc = 1) : Proceeds c .fetch
  | decode (hc : c.cycle = .instruction) (h : c.sc = 2) : Proceeds c .decode
  | indirect (hc : c.cycle = .instruction) (h : c.sc = 3) (ho : c.opcode ≠ escapeOpcode) :
      Proceeds c .arFromMemory
  | direct (hc : c.cycle = .instruction) (h : c.sc = 3) (ho : c.opcode ≠ escapeOpcode) :
      Proceeds c .idle
  | operand (hc : c.cycle = .instruction) (h : c.sc = 4) (ho : c.opcode ∈ [0#3, 1#3, 2#3, 6#3]) :
      Proceeds c .drFromMemory
  | link (hc : c.cycle = .instruction) (h : c.sc = 4) (ho : c.opcode = 5) :
      Proceeds c .memoryFromPc
  | increment (hc : c.cycle = .instruction) (h : c.sc = 5) (ho : c.opcode = 6) :
      Proceeds c .incrementDr

/-- The transfers that end a cycle: one of the interrupt cycle, all others of instruction cycles. -/
inductive Ends (c : Computer) : Transfer → Prop
  | service (hc : c.cycle = .interrupt) (h : 2 ≤ c.sc) : Ends c .enterService
  | execute {t : Transfer} (hc : c.cycle = .instruction) (h : 3 ≤ c.sc) (ht : t ≠ .enterService) :
      Ends c t

section

variable {c : Computer} {t : Transfer}

theorem transfer?_of_service (hc : c.cycle = .interrupt) (h : 2 ≤ c.sc) :
    c.transfer? = some .enterService := by
  obtain ⟨n, hn⟩ := Nat.exists_eq_add_of_le' h
  simp [transfer?, hc, hn]

theorem transfer?_of_escape (hc : c.cycle = .instruction) (h : c.sc = 3)
    (ho : c.opcode = escapeOpcode) : c.transfer? = c.selectedTransfer? := by
  simp [transfer?, hc, h, ho]

theorem transfer?_of_address (hc : c.cycle = .instruction) (h : c.sc = 3)
    (ho : c.opcode ≠ escapeOpcode) :
    c.transfer? = some (if c.i then .arFromMemory else .idle) := by
  simp [transfer?, hc, h, ho]

theorem transfer?_of_execute (hc : c.cycle = .instruction) (h : 4 ≤ c.sc) :
    c.transfer? = MemoryOp.all[c.opcode.toNat]?.map (·.transfer c) := by
  obtain ⟨n, hn⟩ := Nat.exists_eq_add_of_le' h
  simp [transfer?, hc, hn]

theorem opcode_of_all_eq_some {o : BitVec 3} {op : MemoryOp}
    (h : MemoryOp.all[o.toNat]? = some op) : o = op.opcode := by
  revert o
  cases op <;> decide

theorem opcode_of_all_eq_none {o : BitVec 3} (h : MemoryOp.all[o.toNat]? = none) :
    o = escapeOpcode := by
  revert o
  decide

theorem selectedTransfer?_ends (h : c.selectedTransfer? = some t) :
    t.endsCycle = true ∧ t ≠ .enterService := by
  unfold selectedTransfer? at h
  split at h
  · cases h
  · split at h
    · obtain ⟨op, -, rfl⟩ := Option.map_eq_some_iff.mp h
      cases op <;> simp only [IoOp.transfer, Transfer.skipWhen] <;> (try split) <;> decide
    · obtain ⟨op, -, rfl⟩ := Option.map_eq_some_iff.mp h
      cases op <;> simp only [RegisterOp.transfer, Transfer.skipWhen] <;> (try split) <;> decide

/-- A memory operation goes on at time 4 unless it needs no operand, and at time 5 to increment it. -/
theorem proceeds_of_memoryOp {op : MemoryOp} (hc : c.cycle = .instruction) (h : 4 ≤ c.sc)
    (ho : c.opcode = op.opcode) (ht : (op.transfer c).endsCycle = false) :
    c.Proceeds (op.transfer c) := by
  have hsc : c.sc = 4 ∨ c.sc = 5 := by
    have := MemoryOp.sc_le_of_not_endsCycle ht
    omega
  rcases hsc with h | h <;> cases op <;>
    simp only [MemoryOp.transfer, h, if_true, Nat.reduceEqDiff, if_false] at ht ⊢ <;> try cases ht
  · exact .operand hc h (by simp [ho, MemoryOp.opcode])
  · exact .operand hc h (by simp [ho, MemoryOp.opcode])
  · exact .operand hc h (by simp [ho, MemoryOp.opcode])
  · exact .link hc h ho
  · exact .operand hc h (by simp [ho, MemoryOp.opcode])
  · exact .increment hc h ho

theorem memoryOp_ne_enterService (op : MemoryOp) : op.transfer c ≠ .enterService := by
  cases op <;> simp only [MemoryOp.transfer] <;> (repeat' split) <;> decide

/-- What the control unit chooses, by the time within the cycle. -/
theorem transfer?_cases (h : c.transfer? = some t) :
    (t.endsCycle = false ∧ c.Proceeds t) ∨ (t.endsCycle = true ∧ c.Ends t) := by
  cases hc : c.cycle with
  | interrupt =>
      rcases (by omega : c.sc = 0 ∨ c.sc = 1 ∨ 2 ≤ c.sc) with hsc | hsc | hsc
      · simp only [transfer?, hc, hsc, Option.some.injEq] at h
        exact h ▸ .inl ⟨rfl, .saveReturn hc hsc⟩
      · simp only [transfer?, hc, hsc, Option.some.injEq] at h
        exact h ▸ .inl ⟨rfl, .storeReturn hc hsc⟩
      · rw [transfer?_of_service hc hsc, Option.some.injEq] at h
        exact h ▸ .inr ⟨rfl, .service hc hsc⟩
  | instruction =>
      rcases (by omega : c.sc = 0 ∨ c.sc = 1 ∨ c.sc = 2 ∨ c.sc = 3 ∨ 4 ≤ c.sc)
        with hsc | hsc | hsc | hsc | hsc
      · simp only [transfer?, hc, hsc, Option.some.injEq] at h
        exact h ▸ .inl ⟨rfl, .locate hc hsc⟩
      · simp only [transfer?, hc, hsc, Option.some.injEq] at h
        exact h ▸ .inl ⟨rfl, .fetch hc hsc⟩
      · simp only [transfer?, hc, hsc, Option.some.injEq] at h
        exact h ▸ .inl ⟨rfl, .decode hc hsc⟩
      · by_cases ho : c.opcode = escapeOpcode
        · rw [transfer?_of_escape hc hsc ho] at h
          obtain ⟨hends, hne⟩ := selectedTransfer?_ends h
          exact .inr ⟨hends, .execute hc (Nat.le_of_eq hsc.symm) hne⟩
        · rw [transfer?_of_address hc hsc ho, Option.some.injEq] at h
          cases hi : c.i with
          | true =>
              rw [hi, if_pos rfl] at h
              exact h ▸ .inl ⟨rfl, .indirect hc hsc ho⟩
          | false =>
              rw [hi, if_neg Bool.false_ne_true] at h
              exact h ▸ .inl ⟨rfl, .direct hc hsc ho⟩
      · rw [transfer?_of_execute hc hsc] at h
        obtain ⟨op, hop, rfl⟩ := Option.map_eq_some_iff.mp h
        cases ht : (op.transfer c).endsCycle with
        | false => exact .inl ⟨rfl, proceeds_of_memoryOp hc hsc (opcode_of_all_eq_some hop) ht⟩
        | true => exact .inr ⟨rfl, .execute hc (by omega) (memoryOp_ne_enterService op)⟩

theorem proceeds_of_transfer? (h : c.transfer? = some t) (ht : t.endsCycle = false) :
    c.Proceeds t := by
  simpa [ht] using transfer?_cases h

theorem ends_of_transfer? (h : c.transfer? = some t) (ht : t.endsCycle = true) : c.Ends t := by
  simpa [ht] using transfer?_cases h

/-- Only an instruction with opcode 7 can be without a transfer. -/
theorem escape_of_transfer?_eq_none (h : c.transfer? = none) :
    c.cycle = .instruction ∧ 3 ≤ c.sc ∧ c.opcode = escapeOpcode := by
  cases hc : c.cycle with
  | interrupt =>
      rcases (by omega : c.sc = 0 ∨ c.sc = 1 ∨ 2 ≤ c.sc) with hsc | hsc | hsc
      · simp [transfer?, hc, hsc] at h
      · simp [transfer?, hc, hsc] at h
      · simp [transfer?_of_service hc hsc] at h
  | instruction =>
      rcases (by omega : c.sc = 0 ∨ c.sc = 1 ∨ c.sc = 2 ∨ c.sc = 3 ∨ 4 ≤ c.sc)
        with hsc | hsc | hsc | hsc | hsc
      · simp [transfer?, hc, hsc] at h
      · simp [transfer?, hc, hsc] at h
      · simp [transfer?, hc, hsc] at h
      · by_cases ho : c.opcode = escapeOpcode
        · exact ⟨rfl, Nat.le_of_eq hsc.symm, ho⟩
        · simp [transfer?_of_address hc hsc ho] at h
      · rw [transfer?_of_execute hc hsc, Option.map_eq_none_iff] at h
        exact ⟨rfl, by omega, opcode_of_all_eq_none h⟩

end

end Computer

/-! ## The events of a pulse -/

/-- The event tells what became of a pulse: the transfer, and how it ended the cycle. -/
def Event.isOutcome : Event → Bool
  | .transfer _ | .interruptRaised | .executed .. | .interruptServiced _ | .halted _
  | .undecodable .. => true
  | .pulse .. | .characterReady _ | .printerReady | .loaded .. | .characterTruncated _
  | .breakpointReached _ | .budgetExhausted .. => false

namespace Computer

theorem isOutcome_finishEvents (c : Computer) :
    ∀ event ∈ c.finishEvents, event.isOutcome = true := by
  have hcompletion : c.completion.isOutcome = true := by
    unfold completion
    split <;> rfl
  unfold finishEvents
  split
  · simpa [Event.isOutcome] using hcompletion
  · split <;> simpa [Event.isOutcome] using hcompletion

/-- What the devices do aside, a pulse is told of by its context and then by what became of it. -/
theorem events_advance (c : Computer) : ∃ outcomes,
    c.advance.events = .pulse c.phase c.sc :: outcomes ∧
      ∀ event ∈ outcomes, event.isOutcome = true := by
  unfold advance
  split
  next => exact ⟨_, rfl, by simp [Event.isOutcome]⟩
  next t _ =>
    split
    · exact ⟨_, rfl, by simpa [Event.isOutcome] using isOutcome_finishEvents _⟩
    · exact ⟨_, rfl, by simp [Event.isOutcome]⟩

end Computer

end BasicComputer
