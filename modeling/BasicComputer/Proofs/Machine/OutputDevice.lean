import BasicComputer.Proofs.Machine.InputDevice

/-! # The output device

What a program has printed are the low eight bits of AC wherever a pulse executed OUT, in the order of the
pulses. No other pulse prints, and nothing between pulses does. -/

namespace BasicComputer

namespace Computer

/-- The next pulse executes OUT. -/
structure PrintsOutput (c : Computer) : Prop where
  running : c.s = false
  cycle_eq : c.cycle = .instruction
  time : c.sc = 3
  decodes : Instruction.decode? c.ir = some (.io .out)

theorem printsOutput_iff (c : Computer) : c.PrintsOutput ↔
    c.s = false ∧ c.cycle = .instruction ∧ c.sc = 3 ∧ Instruction.decode? c.ir = some (.io .out) :=
  ⟨fun ⟨hs, hc, hsc, hd⟩ => ⟨hs, hc, hsc, hd⟩, fun ⟨hs, hc, hsc, hd⟩ => ⟨hs, hc, hsc, hd⟩⟩

instance (c : Computer) : Decidable c.PrintsOutput := decidable_of_iff' _ c.printsOutput_iff

/-- The character that the next pulse prints, if it prints one. -/
def printed (c : Computer) : List Byte := if c.PrintsOutput then [c.ac.byte] else []

variable {c : Computer}

theorem output_begun (c : Computer) : c.begun.output = c.output := by
  unfold begun startCycle feed
  repeat' split
  all_goals rfl

theorem output_apply {t : Transfer} (h : t ≠ .outrFromAc) (c : Computer) :
    (t.apply c).output = c.output := by
  cases t <;> first | rfl | exact absurd rfl h

theorem output_pulse_of_silent (hs : c.s = false) (h : c.begun.transfer? ≠ some .outrFromAc) :
    c.pulse.computer.output = c.output := by
  have hne {t : Transfer} (ht : c.begun.transfer? = some t) : t ≠ .outrFromAc :=
    fun heq => h (heq ▸ ht)
  rw [← output_begun c]
  rcases pulse_cases hs with ⟨-, hc⟩ | ⟨t, ht, -, hc⟩ | ⟨t, ht, -, hc⟩
  · rw [hc]
    rfl
  · rw [hc]
    exact output_apply (hne ht) c.begun
  · rw [hc]
    exact output_apply (hne ht) c.begun

/-- A pulse adds what it prints to what has been printed. -/
theorem Timing.output_pulse (h : c.Timing) :
    c.pulse.computer.output.toList = c.output.toList ++ c.printed := by
  cases hs : c.s with
  | true =>
      have hsilent : ¬c.PrintsOutput := fun hp => by cases hs.symm.trans hp.running
      rw [pulse_of_halted hs, printed, if_neg hsilent, List.append_nil]
  | false =>
      by_cases hout : c.begun.transfer? = some .outrFromAc
      · obtain ⟨hc, hsc, hd⟩ := (h.begun.transfer?_eq_io_iff rfl).mp hout
        -- No cycle begins at time 3, so the devices have not acted.
        have hw : c.begun = c := begun_of_within (by simp at hsc; omega)
        have hpulse := (pulse_of_ends hs hout rfl).1
        rw [hw] at hc hsc hd hpulse
        rw [hpulse, printed, if_pos ⟨hs, hc, hsc, hd⟩]
        exact Array.toList_push
      · have hsilent : ¬c.PrintsOutput := fun ⟨_, hc, hsc, hd⟩ => by
          rw [begun_of_within (by omega)] at hout
          exact hout ((h.transfer?_eq_io_iff rfl).mpr ⟨hc, hsc, hd⟩)
        rw [output_pulse_of_silent hs hout, printed, if_neg hsilent, List.append_nil]

end Computer

namespace Machine

variable {m n : Machine} {train : List Machine}

/-- The characters that the pulses of a train print. -/
def printedBy (train : List Machine) : List Byte := train.flatMap (·.computer.printed)

theorem Clocked.timing (h : m.Clocked train n) (ht : m.computer.Timing) : n.computer.Timing := by
  induction h with
  | start => exact ht
  | pulse _ ih => exact ih.pulse
  | between _ hb ih => exact hb.computer_eq ▸ ih

/-- Nothing that is printed is lost on the way from pulse to pulse. -/
theorem Clocked.output (h : m.Clocked train n) (ht : m.computer.Timing) :
    n.computer.output.toList = m.computer.output.toList ++ printedBy train := by
  induction h with
  | start => simp [printedBy]
  | @pulse train n hclocked ih =>
      rw [computer_pulse, (hclocked.timing ht).output_pulse, ih, printedBy, printedBy,
        List.flatMap_append, List.flatMap_singleton, List.append_assoc]
  | between _ hb ih => rw [hb.computer_eq, ih]

end Machine

end BasicComputer
