import BasicComputer.Proofs.Machine.Breakpoints
import BasicComputer.Proofs.Machine.InstructionCycle
import BasicComputer.Proofs.Machine.Train

/-! # The input device

Every character typed since the machine was loaded or reset is accounted for: it still waits, or it is in
INPR, or an INP that found FGI set has taken it into AC. What the account is drawn from are the events of
the pulses and the instructions that they execute. -/

namespace BasicComputer

/-- The character that an event reports to be in INPR. -/
def Event.moved? : Event → Option Byte
  | .characterReady character => some character
  | _ => none

/-- What the input device holds: the characters that wait, INPR and FGI. -/
structure InputDevice where
  queue : List Byte
  register : Byte
  ready : Bool

namespace Computer

def inputDevice (c : Computer) : InputDevice := ⟨c.input, c.inpr, c.fgi⟩

/-- The characters that the next pulse moves into INPR. -/
def moved (c : Computer) : List Byte := c.pulse.events.filterMap Event.moved?

/-- The next pulse executes INP, and FGI is set. -/
structure TakesInput (c : Computer) : Prop where
  running : c.s = false
  cycle_eq : c.cycle = .instruction
  time : c.sc = 3
  decodes : Instruction.decode? c.ir = some (.io .inp)
  ready : c.fgi = true

theorem takesInput_iff (c : Computer) : c.TakesInput ↔
    c.s = false ∧ c.cycle = .instruction ∧ c.sc = 3 ∧
      Instruction.decode? c.ir = some (.io .inp) ∧ c.fgi = true :=
  ⟨fun ⟨hs, hc, hsc, hd, hf⟩ => ⟨hs, hc, hsc, hd, hf⟩,
    fun ⟨hs, hc, hsc, hd, hf⟩ => ⟨hs, hc, hsc, hd, hf⟩⟩

instance (c : Computer) : Decidable c.TakesInput := decidable_of_iff' _ c.takesInput_iff

end Computer

/-! ## The transfers of input-output instructions -/

/-- The input-output instruction that a transfer belongs to, if it is not the transfer of a skip. -/
def Transfer.io? : Transfer → Option IoOp
  | .acFromInpr => some .inp
  | .outrFromAc => some .out
  | .enableInterrupt => some .ion
  | .disableInterrupt => some .iof
  | _ => none

namespace Computer

variable {c : Computer} {t : Transfer} {op : IoOp}

theorem io?_skipWhen (condition : Bool) : (Transfer.skipWhen condition).io? = none := by
  cases condition <;> rfl

theorem io?_registerOp (op : RegisterOp) : (op.transfer c).io? = none := by
  cases op with
  | spa | sna | sza | sze => exact io?_skipWhen _
  | _ => rfl

theorem io?_memoryOp (op : MemoryOp) : (op.transfer c).io? = none := by
  cases op <;> simp only [MemoryOp.transfer] <;> (repeat' split) <;> rfl

theorem io?_ioOp {op' : IoOp} (h : (op'.transfer c).io? = some op) : op' = op := by
  cases op' with
  | inp | out | ion | iof => exact Option.some.inj h
  | ski | sko => cases (io?_skipWhen _).symm.trans h

theorem transfer_of_io? (h : t.io? = some op) (c : Computer) : op.transfer c = t := by
  cases t <;> cases h <;> rfl

theorem endsCycle_of_io? (h : t.io? = some op) : t.endsCycle = true := by
  cases t <;> first | rfl | cases h

/-- Only the selector of the instruction chooses its transfer. -/
theorem decode?_of_selects_io (h : c.selectedTransfer? = some t) (ht : t.io? = some op)
    (ho : c.ir.opcode = escapeOpcode) (hi : c.i = c.ir.indirect) :
    Instruction.decode? c.ir = some (.io op) := by
  rcases ir_of_selectedTransfer? h ho hi with ⟨op', -, rfl⟩ | ⟨op', hw, rfl⟩
  · cases (io?_registerOp op').symm.trans ht
  · rw [hw, io?_ioOp ht, Instruction.decode?_encode]

/-- The transfer is made where its instruction is executed, and nowhere else. -/
theorem Timing.transfer?_eq_io_iff (h : c.Timing) (ht : t.io? = some op) :
    c.transfer? = some t ↔
      c.cycle = .instruction ∧ c.sc = 3 ∧ Instruction.decode? c.ir = some (.io op) := by
  constructor
  · intro hmade
    obtain ⟨hc, hsc⟩ : c.cycle = .instruction ∧ 3 ≤ c.sc := by
      cases ends_of_transfer? hmade (endsCycle_of_io? ht) with
      | execute hc hsc => exact ⟨hc, hsc⟩
      | _ => cases ht
    have hthree : c.sc = 3 := by
      by_contra hne
      rw [transfer?_of_execute hc (by omega)] at hmade
      obtain ⟨memoryOp, -, rfl⟩ := Option.map_eq_some_iff.mp hmade
      cases (io?_memoryOp memoryOp).symm.trans ht
    obtain ⟨hopcode, hi⟩ := h.decoded hc hsc
    have ho : c.opcode = escapeOpcode := by
      by_contra ho
      rw [transfer?_of_address hc hthree ho, Option.some.injEq] at hmade
      subst hmade
      split at ht <;> cases ht
    rw [transfer?_of_escape hc hthree ho] at hmade
    exact ⟨hc, hthree, decode?_of_selects_io hmade ht (hopcode ▸ ho) hi⟩
  · rintro ⟨hc, hsc, hd⟩
    have hw := (Instruction.encode_of_decode?_eq_some hd).symm
    obtain ⟨hopcode, hindirect⟩ := h.decoded hc (Nat.le_of_eq hsc.symm)
    have ho : c.opcode = escapeOpcode := by
      rw [hopcode, hw, Instruction.encode, Word.opcode_ofFields]
    have hi : c.i = true := by rw [hindirect, hw, Instruction.encode, Word.indirect_ofFields]
    rw [transfer?_of_escape hc hsc ho, selectedTransfer?_io hi hw, transfer_of_io? ht]

/-! ## One pulse -/

theorem inputDevice_apply {t : Transfer} (h : t ≠ .acFromInpr) (c : Computer) :
    (t.apply c).inputDevice = c.inputDevice := by
  cases t <;> first | rfl | exact absurd rfl h

theorem moved_advance (c : Computer) : c.advance.events.filterMap Event.moved? = [] := by
  obtain ⟨outcomes, hevents, ho⟩ := c.events_advance
  rw [hevents, List.filterMap_cons_none rfl, List.filterMap_eq_nil_iff]
  intro event hevent
  have houtcome := ho event hevent
  cases event with
  | characterReady character => cases houtcome
  | _ => rfl

/-- What a pulse does to the input device. -/
inductive Handling (c : Computer) : Prop
  | moves {character : Byte} {rest : List Byte} (hs : c.s = false) (hb : c.sc = 0)
      (hf : c.fgi = false) (hi : c.input = character :: rest) (hm : c.moved = [character])
      (ht : ¬c.TakesInput) (h : c.pulse.computer.inputDevice = ⟨rest, character, true⟩) : Handling c
  | taken (hm : c.moved = []) (ht : c.TakesInput)
      (h : c.pulse.computer.inputDevice = ⟨c.input, c.inpr, false⟩)
      (hac : c.pulse.computer.ac = c.ac.extractLsb' 8 8 ++ c.inpr) : Handling c
  | idle (hm : c.moved = []) (ht : ¬c.TakesInput)
      (h : c.pulse.computer.inputDevice = c.inputDevice) : Handling c

theorem moved_of_within (h : c.sc ≠ 0) : c.moved = [] := by
  unfold moved pulse
  split
  · rfl
  · simpa [atBoundary, h] using moved_advance c

theorem moved_of_boundary (hs : c.s = false) (hb : c.sc = 0) :
    c.moved = c.feedEvents.filterMap Event.moved? := by
  have hevents : c.pulse.events = c.startEvents ++ c.startCycle.advance.events := by
    simp [pulse, hs, atBoundary, hb]
  rw [moved, hevents, List.filterMap_append, moved_advance, List.append_nil, startEvents,
    List.filterMap_append]
  split <;> simp [Event.moved?]

/-- A character is moved where a cycle begins and FGI is clear. -/
theorem inputDevice_begun (hs : c.s = false) :
    (∃ character rest, c.sc = 0 ∧ c.fgi = false ∧ c.input = character :: rest ∧
        c.moved = [character] ∧ c.begun.inputDevice = ⟨rest, character, true⟩) ∨
      c.moved = [] ∧ c.begun.inputDevice = c.inputDevice := by
  by_cases hb : c.sc = 0
  · rw [begun_of_boundary hb, moved_of_boundary hs hb]
    cases hf : c.fgi with
    | true => exact .inr (by simp [feedEvents, startCycle, feed, inputDevice, hf])
    | false =>
        cases hi : c.input with
        | nil => exact .inr (by simp [feedEvents, startCycle, feed, inputDevice, hf, hi])
        | cons character rest =>
            exact .inl ⟨character, rest, hb, rfl, rfl, by simp [feedEvents, hf, hi, Event.moved?],
              by simp [startCycle, feed, inputDevice, hf, hi]⟩
  · rw [begun_of_within hb]
    exact .inr ⟨moved_of_within hb, rfl⟩

/-- Every transfer but that of INP leaves the input device alone. -/
theorem inputDevice_pulse (hs : c.s = false) (h : c.begun.transfer? ≠ some .acFromInpr) :
    c.pulse.computer.inputDevice = c.begun.inputDevice := by
  have hne {t : Transfer} (ht : c.begun.transfer? = some t) : t ≠ .acFromInpr :=
    fun heq => h (heq ▸ ht)
  rcases pulse_cases hs with ⟨-, hc⟩ | ⟨t, ht, -, hc⟩ | ⟨t, ht, -, hc⟩
  · rw [hc]
    rfl
  · rw [hc]
    exact inputDevice_apply (hne ht) c.begun
  · rw [hc]
    exact inputDevice_apply (hne ht) c.begun

/-- Where the control unit is in order, a pulse moves a character, takes one, or does neither. An INP that
finds FGI clear takes none: it leaves the device as it is. -/
theorem Timing.handling (h : c.Timing) : c.Handling := by
  cases hs : c.s with
  | true =>
      refine .idle (by rw [moved, pulse_of_halted hs]; rfl) (fun ht => ?_) (by rw [pulse_of_halted hs])
      cases hs.symm.trans ht.running
  | false =>
      by_cases hinp : c.begun.transfer? = some .acFromInpr
      · obtain ⟨hc, hsc, hd⟩ := (h.begun.transfer?_eq_io_iff rfl).mp hinp
        -- No cycle begins at time 3, so the devices have not acted.
        have hw : c.begun = c := begun_of_within (by simp at hsc; omega)
        have hpulse := (pulse_of_ends hs hinp rfl).1
        rw [hw] at hc hsc hd hpulse
        have hm := moved_of_within (c := c) (by omega)
        cases hf : c.fgi with
        | true => exact .taken hm ⟨hs, hc, hsc, hd, hf⟩ (by rw [hpulse]; rfl) (by rw [hpulse]; rfl)
        | false =>
            refine .idle hm (fun ht => ?_) (by rw [hpulse, inputDevice, inputDevice, hf]; rfl)
            cases hf.symm.trans ht.ready
      · have hpulse := inputDevice_pulse hs hinp
        have ht : ¬c.TakesInput := fun ⟨_, hc, hsc, hd, _⟩ => by
          rw [begun_of_within (by omega)] at hinp
          exact hinp ((h.transfer?_eq_io_iff rfl).mpr ⟨hc, hsc, hd⟩)
        rcases inputDevice_begun hs with ⟨character, rest, hb, hf, hi, hm, hd⟩ | ⟨hm, hd⟩
        · exact .moves hs hb hf hi hm ht (hpulse.trans hd)
        · exact .idle hm ht (hpulse.trans hd)

end Computer

/-! ## Stimuli -/

/-- What the input device hears from: an operator who types, and the clock. -/
inductive Stimulus
  | keys (characters : List Byte)
  | pulse

namespace Stimulus

def typed : Stimulus → List Byte
  | keys characters => characters
  | pulse => []

/-- The characters that have been typed. -/
def typedBy (stimuli : List Stimulus) : List Byte := stimuli.flatMap typed

theorem typedBy_append (stimuli more : List Stimulus) :
    typedBy (stimuli ++ more) = typedBy stimuli ++ typedBy more :=
  List.flatMap_append

@[simp] theorem typedBy_keys (characters : List Byte) : typedBy [.keys characters] = characters :=
  List.append_nil characters

@[simp] theorem typedBy_pulse : typedBy [.pulse] = [] := rfl

end Stimulus

open Stimulus (typedBy typedBy_append typedBy_keys typedBy_pulse)

namespace Computer

def respond (c : Computer) : Stimulus → Computer
  | .keys characters => { c with input := c.input ++ characters }
  | .pulse => c.pulse.computer

def respondAll (c : Computer) (stimuli : List Stimulus) : Computer := stimuli.foldl respond c

/-- The computers that the pulses among the stimuli set out from. -/
def pulsed (c : Computer) : List Stimulus → List Computer
  | [] => []
  | .keys characters :: rest => (c.respond (.keys characters)).pulsed rest
  | .pulse :: rest => c :: (c.respond .pulse).pulsed rest

/-- The characters that have been moved into INPR. -/
def movedBy (c : Computer) (stimuli : List Stimulus) : List Byte := (c.pulsed stimuli).flatMap moved

/-- The computers from which an INP has been executed that found FGI set. -/
def takings (c : Computer) (stimuli : List Stimulus) : List Computer :=
  (c.pulsed stimuli).filter fun d => d.TakesInput

theorem respondAll_append (c : Computer) (stimuli more : List Stimulus) :
    c.respondAll (stimuli ++ more) = (c.respondAll stimuli).respondAll more :=
  List.foldl_append

theorem pulsed_append (c : Computer) (stimuli more : List Stimulus) :
    c.pulsed (stimuli ++ more) = c.pulsed stimuli ++ (c.respondAll stimuli).pulsed more := by
  induction stimuli generalizing c with
  | nil => rfl
  | cons stimulus rest ih =>
      cases stimulus with
      | keys characters => exact ih _
      | pulse => exact congrArg (c :: ·) (ih _)

/-! ## The account -/

/-- The account of the characters typed to a computer. The `k`th character taken is the `k`th typed. -/
structure InputAccount (c : Computer) (stimuli : List Stimulus) : Prop where
  typed_eq : typedBy stimuli = c.movedBy stimuli ++ (c.respondAll stimuli).input
  inpr_eq : (c.respondAll stimuli).inpr = (c.movedBy stimuli).getLastD 0
  moved_at : ∀ d ∈ c.pulsed stimuli, d.moved ≠ [] → d.s = false ∧ d.sc = 0 ∧ d.fgi = false
  taken_length : (c.takings stimuli).length + (c.respondAll stimuli).fgi.toNat =
    (c.movedBy stimuli).length
  taken : ∀ (k : Nat) (d : Computer), (c.takings stimuli)[k]? = some d →
    (typedBy stimuli)[k]? = some d.pulse.computer.ac.byte ∧
      d.pulse.computer.ac.extractLsb' 8 8 = d.ac.extractLsb' 8 8

variable {c : Computer} {stimuli : List Stimulus}

theorem Timing.respondAll (h : c.Timing) (stimuli : List Stimulus) :
    (c.respondAll stimuli).Timing := by
  induction stimuli generalizing c with
  | nil => exact h
  | cons stimulus rest ih =>
      cases stimulus with
      | keys characters =>
          exact ih ⟨h.tr_le, h.instruction_sc, h.decoded, h.memory_reference, h.fifth, h.sixth,
            h.interrupt_sc, h.halted_sc⟩
      | pulse => exact ih h.pulse

theorem InputAccount.keys (h : c.InputAccount stimuli) (characters : List Byte) :
    c.InputAccount (stimuli ++ [.keys characters]) := by
  have hpulsed : c.pulsed (stimuli ++ [.keys characters]) = c.pulsed stimuli := by
    simp [pulsed_append, pulsed]
  have hmoved : c.movedBy (stimuli ++ [.keys characters]) = c.movedBy stimuli := by
    rw [movedBy, hpulsed, movedBy]
  have htakings : c.takings (stimuli ++ [.keys characters]) = c.takings stimuli := by
    rw [takings, hpulsed, takings]
  refine ⟨?_, ?_, hpulsed ▸ h.moved_at, ?_, fun k d hd => ?_⟩
  · rw [typedBy_append, typedBy_keys, hmoved, h.typed_eq, respondAll_append, List.append_assoc]
    rfl
  · rw [hmoved, ← h.inpr_eq, respondAll_append]
    rfl
  · rw [htakings, hmoved, ← h.taken_length, respondAll_append]
    rfl
  · rw [htakings] at hd
    obtain ⟨htaken, hhigh⟩ := h.taken k d hd
    rw [typedBy_append]
    exact ⟨(List.getElem?_append_left (List.getElem?_eq_some_iff.mp htaken).1).trans htaken, hhigh⟩

theorem respondAll_pulse (c : Computer) (stimuli : List Stimulus) :
    c.respondAll (stimuli ++ [.pulse]) = (c.respondAll stimuli).pulse.computer :=
  respondAll_append c stimuli [.pulse]

theorem pulsed_pulse (c : Computer) (stimuli : List Stimulus) :
    c.pulsed (stimuli ++ [.pulse]) = c.pulsed stimuli ++ [c.respondAll stimuli] :=
  pulsed_append c stimuli [.pulse]

theorem typedBy_snoc_pulse (stimuli : List Stimulus) :
    typedBy (stimuli ++ [.pulse]) = typedBy stimuli := by
  rw [typedBy_append, typedBy_pulse, List.append_nil]

theorem movedBy_pulse (c : Computer) (stimuli : List Stimulus) :
    c.movedBy (stimuli ++ [.pulse]) = c.movedBy stimuli ++ (c.respondAll stimuli).moved := by
  rw [movedBy, pulsed_pulse, List.flatMap_append, List.flatMap_singleton, movedBy]

theorem takings_of_taken (h : (c.respondAll stimuli).TakesInput) :
    c.takings (stimuli ++ [.pulse]) = c.takings stimuli ++ [c.respondAll stimuli] := by
  simp [takings, pulsed_pulse, List.filter_append, h]

theorem takings_of_not_taken (h : ¬(c.respondAll stimuli).TakesInput) :
    c.takings (stimuli ++ [.pulse]) = c.takings stimuli := by
  simp [takings, pulsed_pulse, List.filter_append, h]

namespace InputAccount

variable {d : Computer}

/-- Characters move where no character is ready, at the beginning of a cycle. -/
theorem moved_at_pulse (h : c.InputAccount stimuli) (hd : c.respondAll stimuli = d)
    (hm : d.moved ≠ [] → d.s = false ∧ d.sc = 0 ∧ d.fgi = false) :
    ∀ x ∈ c.pulsed (stimuli ++ [.pulse]), x.moved ≠ [] → x.s = false ∧ x.sc = 0 ∧ x.fgi = false := by
  intro x hx
  rw [pulsed_pulse, hd, List.mem_append, List.mem_singleton] at hx
  rcases hx with hx | rfl
  · exact h.moved_at x hx
  · exact hm

/-- The character that is ready is the next to be taken. -/
theorem ready (h : c.InputAccount stimuli) (hd : c.respondAll stimuli = d) (hf : d.fgi = true) :
    (typedBy stimuli)[(c.takings stimuli).length]? = some d.inpr := by
  subst hd
  have hlength := h.taken_length
  rw [hf, Bool.toNat_true] at hlength
  have hlast : (c.movedBy stimuli)[(c.takings stimuli).length]? = (c.movedBy stimuli).getLast? := by
    rw [List.getLast?_eq_getElem?, ← hlength, Nat.add_sub_cancel]
  rw [h.typed_eq, List.getElem?_append_left (by omega), hlast, h.inpr_eq]
  cases hmoved : c.movedBy stimuli with
  | nil => simp [hmoved] at hlength
  | cons first rest => simp [List.getLast?_cons]

theorem moves (h : c.InputAccount stimuli) (hd : c.respondAll stimuli = d) {character : Byte}
    {rest : List Byte} (hs : d.s = false) (hb : d.sc = 0) (hf : d.fgi = false)
    (hi : d.input = character :: rest) (hm : d.moved = [character]) (ht : ¬d.TakesInput)
    (hdevice : d.pulse.computer.inputDevice = ⟨rest, character, true⟩) :
    c.InputAccount (stimuli ++ [.pulse]) := by
  subst hd
  obtain ⟨hqueue, hregister, hready⟩ := InputDevice.mk.inj hdevice
  refine ⟨?_, ?_, h.moved_at_pulse rfl fun _ => ⟨hs, hb, hf⟩, ?_, ?_⟩
  · rw [typedBy_snoc_pulse, movedBy_pulse, respondAll_pulse, hqueue, hm, h.typed_eq, hi]
    simp
  · rw [movedBy_pulse, respondAll_pulse, hregister, hm]
    simp
  · rw [takings_of_not_taken ht, movedBy_pulse, respondAll_pulse, hready, hm, List.length_append,
      ← h.taken_length, hf]
    rfl
  · rw [takings_of_not_taken ht, typedBy_snoc_pulse]
    exact h.taken

/-- A pulse that moves nothing changes neither what waits nor what was moved last. -/
theorem unmoved (h : c.InputAccount stimuli) (hd : c.respondAll stimuli = d) (hm : d.moved = [])
    (hqueue : d.pulse.computer.input = d.input) (hregister : d.pulse.computer.inpr = d.inpr) :
    typedBy (stimuli ++ [.pulse]) =
        c.movedBy (stimuli ++ [.pulse]) ++ (c.respondAll (stimuli ++ [.pulse])).input ∧
      (c.respondAll (stimuli ++ [.pulse])).inpr = (c.movedBy (stimuli ++ [.pulse])).getLastD 0 := by
  subst hd
  rw [typedBy_snoc_pulse, movedBy_pulse, respondAll_pulse, hm, List.append_nil, hqueue, hregister]
  exact ⟨h.typed_eq, h.inpr_eq⟩

theorem takes (h : c.InputAccount stimuli) (hd : c.respondAll stimuli = d) (hm : d.moved = [])
    (ht : d.TakesInput) (hdevice : d.pulse.computer.inputDevice = ⟨d.input, d.inpr, false⟩)
    (hac : d.pulse.computer.ac = d.ac.extractLsb' 8 8 ++ d.inpr) :
    c.InputAccount (stimuli ++ [.pulse]) := by
  subst hd
  obtain ⟨hqueue, hregister, hready⟩ := InputDevice.mk.inj hdevice
  obtain ⟨htyped, hinpr⟩ := h.unmoved rfl hm hqueue hregister
  refine ⟨htyped, hinpr, h.moved_at_pulse rfl fun hne => absurd hm hne, ?_, fun k x hk => ?_⟩
  · rw [takings_of_taken ht, movedBy_pulse, respondAll_pulse, hready, hm, List.append_nil,
      ← h.taken_length, ht.ready, List.length_append]
    rfl
  · rw [takings_of_taken ht] at hk
    rw [typedBy_snoc_pulse]
    -- All but the last character taken were taken before.
    rcases Nat.lt_or_ge k (c.takings stimuli).length with hlt | hge
    · exact h.taken k x (by rwa [List.getElem?_append_left hlt] at hk)
    · obtain ⟨rfl, rfl⟩ : k = (c.takings stimuli).length ∧ c.respondAll stimuli = x := by
        rw [List.getElem?_append_right hge, List.getElem?_singleton] at hk
        split at hk
        next hzero => exact ⟨by omega, Option.some.inj hk⟩
        next => cases hk
      rw [hac]
      refine ⟨?_, BitVec.extractLsb'_append_eq_left⟩
      rw [h.ready rfl ht.ready]
      exact congrArg some BitVec.setWidth_append_eq_right.symm

theorem idles (h : c.InputAccount stimuli) (hd : c.respondAll stimuli = d) (hm : d.moved = [])
    (ht : ¬d.TakesInput) (hdevice : d.pulse.computer.inputDevice = d.inputDevice) :
    c.InputAccount (stimuli ++ [.pulse]) := by
  subst hd
  obtain ⟨hqueue, hregister, hready⟩ := InputDevice.mk.inj hdevice
  obtain ⟨htyped, hinpr⟩ := h.unmoved rfl hm hqueue hregister
  refine ⟨htyped, hinpr, h.moved_at_pulse rfl fun hne => absurd hm hne, ?_, ?_⟩
  · rw [takings_of_not_taken ht, movedBy_pulse, respondAll_pulse, hready, hm, List.append_nil]
    exact h.taken_length
  · rw [takings_of_not_taken ht, typedBy_snoc_pulse]
    exact h.taken

theorem pulse (h : c.InputAccount stimuli) (htiming : (c.respondAll stimuli).Timing) :
    c.InputAccount (stimuli ++ [.pulse]) := by
  cases htiming.handling with
  | moves hs hb hf hi hm ht hdevice => exact h.moves rfl hs hb hf hi hm ht hdevice
  | taken hm ht hdevice hac => exact h.takes rfl hm ht hdevice hac
  | idle hm ht hdevice => exact h.idles rfl hm ht hdevice

end InputAccount

/-- The account is right for every program and whatever is typed between whichever pulses. -/
theorem inputAccount (memory : Memory) (pc : Address) (stimuli : List Stimulus) :
    InputAccount { initial with memory, pc } stimuli := by
  have htiming : Timing { initial with memory, pc } := .of_boundary (Nat.zero_le _) rfl
  induction stimuli using List.reverseRecOn with
  | nil => exact ⟨rfl, rfl, by simp [pulsed], rfl, by simp [takings, pulsed]⟩
  | append_singleton stimuli stimulus ih =>
      cases stimulus with
      | keys characters => exact ih.keys characters
      | pulse => exact ih.pulse (htiming.respondAll stimuli)

end Computer

/-! ## Histories -/

/-- The action loads or resets. -/
def Action.beginsAnew : Action → Bool
  | .load _ | .reset => true
  | _ => false

/-- The low eight bits of every character that the action types. -/
def Action.typed : Action → List Byte
  | .typeText text => text.map Byte.ofChar
  | _ => []

namespace Machine

variable {m n : Machine} {actions : List Action} {stimuli : List Stimulus} {train : List Machine}

/-- What the computer hears in a history of actions, and the machines that its pulses set out from. -/
inductive Heard (m : Machine) : List Action → List Stimulus → List Machine → Prop
  | start : Heard m [] [] []
  | act {actions : List Action} {stimuli : List Stimulus} {train pulses : List Machine}
      {action : Action} (h : Heard m actions stimuli train) (hb : action.beginsAnew = false)
      (hp : (m.performAll actions).Train action pulses) :
      Heard m (actions ++ [action])
        (stimuli ++ .keys action.typed :: List.replicate pulses.length .pulse) (train ++ pulses)

theorem Clocked.respond (h : m.Clocked train n) :
    m.computer.respondAll (List.replicate train.length .pulse) = n.computer ∧
      m.computer.pulsed (List.replicate train.length .pulse) = train.map Machine.computer := by
  induction h with
  | start => exact ⟨rfl, rfl⟩
  | @pulse train n _ ih =>
      rw [List.length_append, List.length_singleton, List.replicate_succ',
        Computer.respondAll_pulse, Computer.pulsed_pulse, ih.1, ih.2, List.map_append]
      exact ⟨rfl, rfl⟩
  | between _ hb ih => exact ⟨ih.1.trans hb.computer_eq.symm, ih.2⟩

/-- An action is heard as what it types and the pulses that it makes. -/
theorem Train.respond {action : Action} (h : m.Train action train)
    (hb : action.beginsAnew = false) :
    m.computer.respondAll (.keys action.typed :: List.replicate train.length .pulse) =
        (m.perform action).computer ∧
      m.computer.pulsed (.keys action.typed :: List.replicate train.length .pulse) =
        train.map Machine.computer := by
  have hsilent (c : Computer) : c.respond (.keys []) = c := by simp [Computer.respond]
  cases ha : action.advances with
  | true =>
      have hkeys : m.computer.respond (.keys action.typed) = m.computer := by
        cases action with
        | pulse | step | run budget | runGuarded guard => exact hsilent _
        | _ => cases ha
      rw [Computer.respondAll, List.foldl_cons, Computer.pulsed, hkeys]
      exact (h.clocked ha).respond
  | false =>
      obtain rfl := h.eq_nil ha
      cases action with
      | load image | reset => cases hb
      | pulse | step | run budget | runGuarded guard => cases ha
      | typeText text => exact ⟨rfl, rfl⟩
      | _ => exact ⟨hsilent _, rfl⟩

theorem Heard.respond (h : m.Heard actions stimuli train) :
    (m.performAll actions).computer = m.computer.respondAll stimuli ∧
      m.computer.pulsed stimuli = train.map Machine.computer ∧
      Stimulus.typedBy stimuli = actions.flatMap Action.typed := by
  induction h with
  | start => exact ⟨rfl, rfl, rfl⟩
  | @act actions stimuli train pulses action h hb hp ih =>
      obtain ⟨hcomputer, hpulsed, htyped⟩ := ih
      obtain ⟨hnext, hmore⟩ := hp.respond hb
      have hquiet : Stimulus.typedBy (List.replicate pulses.length .pulse) = [] := by
        simp [Stimulus.typedBy, Stimulus.typed]
      rw [performAll_snoc, Computer.respondAll_append, Computer.pulsed_append, ← hcomputer, hnext,
        hpulsed, hmore, List.map_append, Stimulus.typedBy_append, htyped, List.flatMap_append]
      refine ⟨rfl, rfl, ?_⟩
      rw [List.flatMap_singleton, ← List.singleton_append, Stimulus.typedBy_append, hquiet,
        Stimulus.typedBy_keys, List.append_nil]

theorem exists_heard (ht : m.computer.Timing) (hb : ∀ action ∈ actions, action.beginsAnew = false) :
    ∃ stimuli train, m.Heard actions stimuli train := by
  induction actions using List.reverseRecOn with
  | nil => exact ⟨[], [], .start⟩
  | append_singleton actions action ih =>
      obtain ⟨stimuli, train, h⟩ :=
        ih fun action ha => hb action (List.mem_append_left _ ha)
      have htiming : (m.performAll actions).computer.Timing := by
        rw [h.respond.1]
        exact ht.respondAll stimuli
      obtain ⟨pulses, hp⟩ := exists_train htiming.halted_sc action
      exact ⟨_, _, h.act (hb action (by simp)) hp⟩

/-- A machine that was just loaded or reset, whatever it did before. -/
inductive Fresh : Machine → Prop
  | load (m : Machine) (image : Image) : Fresh (m.load image)
  | reset (m : Machine) : Fresh m.reset

/-- Whatever is done to a fresh machine is heard as characters and pulses, and at every point of what is
heard the account of the characters is right. -/
theorem Fresh.input_device_in_order (h : m.Fresh)
    (hb : ∀ action ∈ actions, action.beginsAnew = false) :
    (∃ stimuli train, m.Heard actions stimuli train) ∧
      ∀ stimuli train, m.Heard actions stimuli train →
        (m.performAll actions).computer = m.computer.respondAll stimuli ∧
        m.computer.pulsed stimuli = train.map Machine.computer ∧
        Stimulus.typedBy stimuli = actions.flatMap Action.typed ∧
        ∀ past, past <+: stimuli → m.computer.InputAccount past := by
  obtain ⟨memory, pc, hfresh⟩ : ∃ memory pc, m.computer = { Computer.initial with memory, pc } := by
    cases h with
    | load m image => exact ⟨_, _, rfl⟩
    | reset m => exact ⟨.blank, 0, rfl⟩
  have htiming : m.computer.Timing := by
    rw [hfresh]
    exact .of_boundary (Nat.zero_le _) rfl
  refine ⟨exists_heard htiming hb, fun stimuli train hheard => ?_⟩
  obtain ⟨hcomputer, hpulsed, htyped⟩ := hheard.respond
  refine ⟨hcomputer, hpulsed, htyped, fun past _ => ?_⟩
  rw [hfresh]
  exact Computer.inputAccount memory pc past

/-- A program that takes one character. -/
def takeCharacter : Image := ⟨0, [⟨0, 0xF800, ⟨0, 3⟩⟩]⟩

/-- Two characters have been typed, the second of which does not fit into eight bits. -/
def typedCharacters : Machine := (initial.load takeCharacter).typeText ['A', 'Ł']

theorem step_typedCharacters : typedCharacters.step.1 = typedCharacters.afterPulses 4 := by
  rw [step_eq_pulse (k := 3) rfl rfl (by rfl)]
  rfl

theorem input_device_in_order_takeCharacter :
    let m := initial.load takeCharacter
    let actions : List Action := [.typeText ['A', 'Ł'], .step]
    m.Fresh ∧ (∀ action ∈ actions, action.beginsAnew = false) ∧
      (∃ stimuli train, m.Heard actions stimuli train ∧ Stimulus.typedBy stimuli = [0x41, 0x41] ∧
        m.computer.InputAccount stimuli) ∧
      (m.performAll actions).computer.ac = 0x41 ∧ (m.performAll actions).computer.input = [0x41] := by
  intro m actions
  have hfresh : m.Fresh := .load _ _
  have hb : ∀ action ∈ actions, action.beginsAnew = false := by simp [actions, Action.beginsAnew]
  obtain ⟨⟨stimuli, train, h⟩, haccount⟩ := hfresh.input_device_in_order hb
  obtain ⟨-, -, htyped, hpast⟩ := haccount stimuli train h
  have hlast : m.performAll actions = typedCharacters.afterPulses 4 := step_typedCharacters
  rw [hlast]
  exact ⟨hfresh, hb, ⟨stimuli, train, h, htyped, hpast stimuli List.prefix_rfl⟩, rfl, rfl⟩

end Machine

end BasicComputer
