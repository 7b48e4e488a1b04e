import BasicComputer.Proofs.Machine.Breakpoints
import BasicComputer.Proofs.Machine.Pulse

/-! # When characters are typed

It does not matter when characters are typed, as long as the input device never finds its queue empty: they
can all be typed before the first pulse. The queue is then longer by what is still to be typed, and no
pulse looks that far into it. -/

namespace BasicComputer

/-! ## One pulse -/

namespace Computer

/-- More characters wait behind those in the queue. -/
def queueing (c : Computer) (later : List Byte) : Computer := { c with input := c.input ++ later }

/-- Where a cycle begins and FGI is clear, a character waits. -/
def Supplied (c : Computer) : Prop := c.s = false → c.sc = 0 → c.fgi = false → c.input ≠ []

instance (c : Computer) : Decidable c.Supplied := by
  unfold Supplied
  infer_instance

variable {c : Computer}

theorem feed_queueing (h : c.fgi = false → c.input ≠ []) (later : List Byte) :
    (c.queueing later).feed = c.feed.queueing later ∧
      (c.queueing later).feedEvents = c.feedEvents := by
  cases hf : c.fgi with
  | true => simp [feed, feedEvents, queueing, hf]
  | false =>
      obtain ⟨character, rest, hi⟩ := List.exists_cons_of_ne_nil (h hf)
      simp [feed, feedEvents, queueing, hf, hi]

theorem startCycle_queueing (h : c.fgi = false → c.input ≠ []) (later : List Byte) :
    (c.queueing later).startCycle = c.startCycle.queueing later ∧
      (c.queueing later).startEvents = c.startEvents := by
  obtain ⟨hfeed, hevents⟩ := feed_queueing h later
  rw [startCycle, startCycle, hfeed, startEvents, startEvents, hevents]
  exact ⟨rfl, rfl⟩

/-- Once the devices have acted nothing looks at the queue. -/
theorem apply_queueing (t : Transfer) (c : Computer) (later : List Byte) :
    t.apply (c.queueing later) = (t.apply c).queueing later := by
  cases t <;> rfl

theorem advance_queueing (c : Computer) (later : List Byte) :
    (c.queueing later).advance =
      ⟨c.advance.computer.queueing later, c.advance.events, c.advance.fault⟩ := by
  have ht : (c.queueing later).transfer? = c.transfer? := rfl
  rw [advance, advance, ht]
  cases c.transfer? with
  | none => rfl
  | some t =>
      cases he : t.endsCycle with
      | true =>
          simp only [he, apply_queueing, if_true]
          rfl
      | false =>
          simp only [he, apply_queueing, Bool.false_eq_true, if_false]
          rfl

theorem Supplied.pulse_queueing (h : c.Supplied) (later : List Byte) :
    (c.queueing later).pulse =
      ⟨c.pulse.computer.queueing later, c.pulse.events, c.pulse.fault⟩ := by
  have hrunning : (c.queueing later).s = c.s := rfl
  have hboundary : (c.queueing later).atBoundary = c.atBoundary := rfl
  rw [pulse, pulse, hrunning, hboundary]
  cases hs : c.s with
  | true => rfl
  | false =>
      cases hb : c.atBoundary with
      | false => exact advance_queueing c later
      | true =>
          have hsc : c.sc = 0 := by simpa [atBoundary] using hb
          obtain ⟨hstart, hevents⟩ := startCycle_queueing (h hs hsc) later
          simp only [Bool.false_eq_true, if_false, if_true, hstart, hevents, advance_queueing]

end Computer

/-! ## Histories of typing and pulses -/

namespace Event

/-- The event warns of a character that was truncated. -/
def isTruncation : Event → Bool
  | characterTruncated _ => true
  | _ => false

/-- The warnings for a text. -/
def truncations (text : List Char) : List Event :=
  (text.filter (0xFF < ·.toNat)).map characterTruncated

theorem truncations_append (text later : List Char) :
    truncations (text ++ later) = truncations text ++ truncations later := by
  simp [truncations]

theorem isTruncation_of_mem {text : List Char} {event : Event} (h : event ∈ truncations text) :
    event.isTruncation = true := by
  obtain ⟨character, -, rfl⟩ := List.mem_map.mp h
  rfl

end Event

namespace Computer

theorem isTruncation_advance (c : Computer) :
    ∀ event ∈ c.advance.events, event.isTruncation = false := by
  obtain ⟨outcomes, hevents, ho⟩ := c.events_advance
  rw [hevents]
  refine List.forall_mem_cons.mpr ⟨rfl, fun event hevent => ?_⟩
  have houtcome := ho event hevent
  cases event with
  | characterTruncated character => cases houtcome
  | _ => rfl

theorem isTruncation_startEvents (c : Computer) :
    ∀ event ∈ c.startEvents, event.isTruncation = false := by
  unfold startEvents feedEvents
  split <;> split <;> simp [Event.isTruncation]

/-- No pulse warns of a truncated character. -/
theorem isTruncation_pulse (c : Computer) :
    ∀ event ∈ c.pulse.events, event.isTruncation = false := by
  unfold pulse
  split
  · simp
  · split
    · intro event hevent
      rcases List.mem_append.mp hevent with hevent | hevent
      · exact isTruncation_startEvents c event hevent
      · exact isTruncation_advance c.startCycle event hevent
    · exact isTruncation_advance c

end Computer

namespace Action

def isPulse : Action → Bool
  | pulse => true
  | _ => false

/-- What an action types. -/
def text : Action → List Char
  | typeText text => text
  | _ => []

/-- The same history, with everything typed at once before the first pulse. -/
def typedFirst (actions : List Action) : List Action :=
  typeText (actions.flatMap text) :: actions.filter isPulse

/-- The history does nothing but type and make pulses. -/
def OnlyTypesAndPulses (actions : List Action) : Prop :=
  ∀ action ∈ actions, action = pulse ∨ ∃ text, action = typeText text

end Action

namespace Machine

/-- The results of the pulses in a history. -/
def statuses (m : Machine) : List Action → List (Except DecodeFault Status)
  | [] => []
  | .pulse :: rest => m.pulse.2 :: m.pulse.1.statuses rest
  | action :: rest => (m.perform action).statuses rest

/-- The first machine is the second with more typed to it, and the warnings for that. -/
structure Ahead (later : List Char) (early late : Machine) : Prop where
  computer_eq : early.computer = late.computer.queueing (later.map Byte.ofChar)
  breakpoints_eq : early.breakpoints = late.breakpoints
  tracing_eq : early.tracing = late.tracing
  pausedAt_eq : early.pausedAt = late.pausedAt
  told_eq : early.journal.toList.filter (!·.isTruncation) =
    late.journal.toList.filter (!·.isTruncation)
  truncations_eq : early.journal.toList.filter (·.isTruncation) =
    late.journal.toList.filter (·.isTruncation) ++ Event.truncations later

variable {early late : Machine} {later : List Char}

theorem journal_typeText (m : Machine) (text : List Char) :
    (m.typeText text).journal.toList = m.journal.toList ++ Event.truncations text :=
  Journal.toList_append _ _

theorem filter_truncations (text : List Char) :
    (Event.truncations text).filter (·.isTruncation) = Event.truncations text :=
  List.filter_eq_self.mpr fun _ => Event.isTruncation_of_mem

theorem filter_not_truncations (text : List Char) :
    (Event.truncations text).filter (!·.isTruncation) = [] :=
  List.filter_eq_nil_iff.mpr fun _ h => by simp [Event.isTruncation_of_mem h]

theorem ahead_typeText (m : Machine) (text : List Char) : (m.typeText text).Ahead text m where
  computer_eq := rfl
  breakpoints_eq := rfl
  tracing_eq := rfl
  pausedAt_eq := rfl
  told_eq := by rw [journal_typeText, List.filter_append, filter_not_truncations, List.append_nil]
  truncations_eq := by rw [journal_typeText, List.filter_append, filter_truncations]

/-- Typing the next text leaves less to be typed. -/
theorem Ahead.typeText {text : List Char} (h : early.Ahead (text ++ later) late) :
    early.Ahead later (late.typeText text) where
  computer_eq := by
    rw [h.computer_eq]
    simp [Computer.queueing, Machine.typeText]
  breakpoints_eq := h.breakpoints_eq
  tracing_eq := h.tracing_eq
  pausedAt_eq := h.pausedAt_eq
  told_eq := by
    rw [h.told_eq, journal_typeText, List.filter_append, filter_not_truncations, List.append_nil]
  truncations_eq := by
    rw [h.truncations_eq, journal_typeText, List.filter_append, filter_truncations,
      Event.truncations_append, List.append_assoc]

theorem journal_pulse (m : Machine) : m.pulse.1.journal.toList =
    m.journal.toList ++ Event.noted m.tracing m.computer.pulse.events :=
  Journal.toList_append _ _

theorem filter_truncations_noted (m : Machine) :
    (Event.noted m.tracing m.computer.pulse.events).filter (·.isTruncation) = [] := by
  refine List.filter_eq_nil_iff.mpr fun event hevent => ?_
  have hmem : event ∈ m.computer.pulse.events := by
    unfold Event.noted at hevent
    split at hevent
    · exact hevent
    · exact (List.mem_filter.mp hevent).1
  simp [Computer.isTruncation_pulse _ event hmem]

theorem Ahead.pulse (h : early.Ahead later late) (hs : late.computer.Supplied) :
    early.pulse.1.Ahead later late.pulse.1 ∧ early.pulse.2 = late.pulse.2 := by
  have hpulse := hs.pulse_queueing (later.map Byte.ofChar)
  rw [← h.computer_eq] at hpulse
  have hevents := congrArg Pulse.events hpulse
  refine ⟨⟨?_, h.breakpoints_eq, h.tracing_eq, ?_, ?_, ?_⟩, ?_⟩
  · exact congrArg Pulse.computer hpulse
  · change (if early.computer.fetches then none else early.pausedAt) =
      (if late.computer.fetches then none else late.pausedAt)
    rw [h.computer_eq, h.pausedAt_eq]
    rfl
  · rw [journal_pulse, journal_pulse, List.filter_append, List.filter_append, h.told_eq, hevents,
      h.tracing_eq]
  · rw [journal_pulse, journal_pulse, List.filter_append, List.filter_append,
      filter_truncations_noted, filter_truncations_noted, h.truncations_eq]
    simp
  · simp only [Machine.pulse, hpulse]
    rfl

/-- The machine that had everything typed stays ahead to the end, where nothing is left to be typed. -/
theorem Ahead.history {actions : List Action} (hactions : Action.OnlyTypesAndPulses actions)
    (hsupplied : ∀ past rest, actions = past ++ .pulse :: rest →
      (late.performAll past).computer.Supplied)
    (h : early.Ahead (actions.flatMap Action.text) late) :
    early.statuses (actions.filter Action.isPulse) = late.statuses actions ∧
      (early.performAll (actions.filter Action.isPulse)).Ahead [] (late.performAll actions) := by
  induction actions generalizing early late with
  | nil => exact ⟨rfl, h⟩
  | cons action rest ih =>
      have hrest : Action.OnlyTypesAndPulses rest := fun a ha =>
        hactions a (List.mem_cons_of_mem _ ha)
      have hnext : ∀ past behind, rest = past ++ .pulse :: behind →
          ((late.perform action).performAll past).computer.Supplied := by
        rintro past behind rfl
        exact hsupplied (action :: past) behind rfl
      rcases hactions action List.mem_cons_self with rfl | ⟨text, rfl⟩
      · obtain ⟨hahead, hr⟩ := h.pulse (hsupplied [] rest rfl)
        obtain ⟨hstatuses, hlast⟩ := ih hrest hnext hahead
        exact ⟨congrArg₂ List.cons hr hstatuses, hlast⟩
      · exact ih hrest hnext h.typeText

/-- Let a history do nothing but type and make pulses, and let a character wait whenever a cycle begins
with FGI clear. With everything typed at once before the first pulse the pulses have the same results, and
the machine ends the same, but for the places of the warnings of truncated characters in its log. -/
theorem typing_early (m : Machine) {actions : List Action}
    (hactions : Action.OnlyTypesAndPulses actions)
    (hsupplied : ∀ past rest, actions = past ++ .pulse :: rest →
      (m.performAll past).computer.Supplied) :
    let early := m.performAll (Action.typedFirst actions)
    let late := m.performAll actions
    m.statuses (Action.typedFirst actions) = m.statuses actions ∧
      early.computer = late.computer ∧ early.pausedAt = late.pausedAt ∧
      early.breakpoints = late.breakpoints ∧ early.tracing = late.tracing ∧
      early.journal.toList.filter (!·.isTruncation) =
        late.journal.toList.filter (!·.isTruncation) ∧
      early.journal.toList.filter (·.isTruncation) =
        late.journal.toList.filter (·.isTruncation) := by
  obtain ⟨hstatuses, hlast⟩ :=
    (ahead_typeText m (actions.flatMap Action.text)).history hactions hsupplied
  have hcomputer := hlast.computer_eq
  have htruncations := hlast.truncations_eq
  rw [Event.truncations, List.filter_nil, List.map_nil, List.append_nil] at htruncations
  rw [List.map_nil, Computer.queueing, List.append_nil] at hcomputer
  exact ⟨hstatuses, hcomputer, hlast.pausedAt_eq, hlast.breakpoints_eq, hlast.tracing_eq,
    hlast.told_eq, htruncations⟩

theorem typing_early_betweenPulses :
    let actions : List Action := [.typeText ['A'], .pulse, .typeText ['Ł'], .pulse]
    Action.OnlyTypesAndPulses actions ∧
      (∀ past rest, actions = past ++ .pulse :: rest →
        (initial.performAll past).computer.Supplied) ∧
      (initial.performAll [.typeText ['A', 'Ł'], .pulse, .pulse]).computer =
        (initial.performAll actions).computer ∧
      (initial.performAll actions).journal.toList.filter (·.isTruncation) =
        [.characterTruncated 'Ł'] := by
  intro actions
  have hactions : Action.OnlyTypesAndPulses actions := by
    simp [Action.OnlyTypesAndPulses, actions]
  have hsupplied : ∀ past rest, actions = past ++ .pulse :: rest →
      (initial.performAll past).computer.Supplied := by
    intro past rest h
    rcases past with _ | ⟨_, _ | ⟨_, _ | ⟨_, _ | ⟨_, past⟩⟩⟩⟩ <;>
      simp only [actions, List.nil_append, List.cons_append, List.cons.injEq, reduceCtorEq,
        false_and, true_and, and_false, List.nil_eq_append_iff] at h
    · obtain ⟨rfl, -⟩ := h
      exact fun _ _ _ => List.cons_ne_nil _ _
    · obtain ⟨rfl, rfl, rfl, -⟩ := h
      exact fun _ hsc => nomatch hsc
  obtain ⟨-, hcomputer, -, -, -, -, htruncations⟩ := typing_early initial hactions hsupplied
  exact ⟨hactions, hsupplied, hcomputer, htruncations.symm⟩

end Machine

end BasicComputer
