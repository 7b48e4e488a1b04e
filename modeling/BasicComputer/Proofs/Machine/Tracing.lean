import BasicComputer.Proofs.Machine.Breakpoints
import BasicComputer.Proofs.Machine.Likeness
import BasicComputer.Proofs.Machine.Train

/-! # Tracing

Tracing adds details to the log and does nothing else. Two histories that differ in nothing but how the
switch was set lead to machines that are alike, and their logs are the same once the details are taken out.
What the details tell of the clock is complete: one context for every pulse. -/

namespace BasicComputer

/-! ## Details -/

namespace Record

/-- How the infos begin that are details. -/
def detailHeads : List String := ["Executed ", "Input device: ", "Output device: "]

/-- Transfers and their contexts, and what is told of the devices and of executed instructions. -/
def isDetail : Record → Bool
  | step _ | context .. => true
  | info text => detailHeads.any fun head => head.toList.isPrefixOf text.toList
  | warning _ | error _ => false

/-- The log as it is without details. -/
def withoutDetails (log : List Record) : List Record := log.filter (!·.isDetail)

/-- The times of the contexts in a log. -/
def times (log : List Record) : List Nat :=
  log.filterMap fun
    | context _ time => some time
    | _ => none

theorem withoutDetails_append (log more : List Record) :
    withoutDetails (log ++ more) = withoutDetails log ++ withoutDetails more :=
  List.filter_append ..

theorem times_append (log more : List Record) : times (log ++ more) = times log ++ times more :=
  List.filterMap_append

end Record

/-- The texts of events tell the details from the rest. -/
theorem Event.isDetail_record (event : Event) : event.record.isDetail = event.isDetail := by
  cases event with
  | pulse | transfer | interruptRaised | undecodable | characterTruncated | breakpointReached
  | budgetExhausted => rfl
  | printerReady => decide
  | characterReady | executed | interruptServiced | halted | loaded =>
      simp only [Event.record, Record.isDetail, String.toList_append]
      rfl

theorem withoutDetails_map_record (events : List Event) :
    Record.withoutDetails (events.map Event.record) =
      (events.filter (!·.isDetail)).map Event.record := by
  rw [Record.withoutDetails, List.filter_map]
  congr 2
  funext event
  simp [Event.isDetail_record]

/-- What a machine notes of a pulse without tracing is what it notes while tracing, without details. -/
theorem withoutDetails_noted (tracing : Bool) (events : List Event) :
    Record.withoutDetails ((Event.noted tracing events).map Event.record) =
      Record.withoutDetails (events.map Event.record) := by
  cases tracing with
  | true => rfl
  | false => simp [Event.noted, withoutDetails_map_record]

namespace Machine

variable {m n : Machine}

/-! ## Machines that differ in details -/

/-- The log as it is shown. -/
def log (m : Machine) : List Record := m.journal.toList.map Event.record

@[simp] theorem log_note (m : Machine) (event : Event) :
    (m.note event).log = m.log ++ [event.record] := by
  simp [log, note]

theorem log_pulse (m : Machine) : m.pulse.1.log =
    m.log ++ (Event.noted m.tracing m.computer.pulse.events).map Event.record := by
  have hjournal : m.pulse.1.journal =
      m.journal.append (Event.noted m.tracing m.computer.pulse.events) := rfl
  rw [log, hjournal, Journal.toList_append, List.map_append, log]

/-- The machines are alike, and so are their logs but for the details. -/
structure AlikeButDetails (m n : Machine) : Prop extends Alike m n where
  log_eq : Record.withoutDetails m.log = Record.withoutDetails n.log

theorem AlikeButDetails.refl (m : Machine) : m.AlikeButDetails m := ⟨⟨rfl, rfl, rfl⟩, rfl⟩

theorem AlikeButDetails.symm (h : m.AlikeButDetails n) : n.AlikeButDetails m :=
  ⟨h.toAlike.symm, h.log_eq.symm⟩

theorem AlikeButDetails.trans {k : Machine} (h : m.AlikeButDetails n) (h' : n.AlikeButDetails k) :
    m.AlikeButDetails k :=
  ⟨h.toAlike.trans h'.toAlike, h.log_eq.trans h'.log_eq⟩

theorem AlikeButDetails.note (h : m.AlikeButDetails n) (event : Event) :
    (m.note event).AlikeButDetails (n.note event) := by
  refine ⟨coupled_alike.note m n event h.toAlike, ?_⟩
  rw [log_note, log_note, Record.withoutDetails_append, Record.withoutDetails_append, h.log_eq]

theorem log_pass (m : Machine) : m.pass.log = m.log := by
  unfold pass
  split <;> rfl

theorem coupled_alikeButDetails : Coupled AlikeButDetails where
  alike _ _ h := h.toAlike
  pulse m n h := by
    refine ⟨coupled_alike.pulse m n h.toAlike, ?_⟩
    rw [log_pulse, log_pulse, Record.withoutDetails_append, Record.withoutDetails_append,
      withoutDetails_noted, withoutDetails_noted, h.log_eq, h.computer_eq]
  pass m n h := by
    refine ⟨coupled_alike.pass m n h.toAlike, ?_⟩
    rw [log_pass, log_pass, h.log_eq]
  pause m n h := by
    refine ⟨coupled_alike.pause m n h.toAlike, ?_⟩
    have hlog (m : Machine) : m.pause.log = (m.note (.breakpointReached m.computer.pc)).log := rfl
    rw [hlog, hlog, h.computer_eq]
    exact (h.note _).log_eq
  note _ _ event h := h.note event

/-! ## Reports -/

/-- What an action tells the operator. -/
inductive Report
  | nothing
  | status (result : Except DecodeFault Status)
  | stop (result : Except DecodeFault Stop)
  | stopAfter (polls : Nat) (result : Except DecodeFault Stop)
  | changed (answer : Bool)
  | drained (log : List Record)

/-- The report, with the details taken out of a log. -/
def Report.withoutDetails : Report → Report
  | .drained log => .drained (Record.withoutDetails log)
  | report => report

def report (m : Machine) : Action → Report
  | .load _ | .reset | .typeText _ | .trace _ | .setBreakpoints _ => .nothing
  | .drainJournal => .drained (m.drainJournal.1.map Event.record)
  | .insertBreakpoint address => .changed (m.breakpoints.insert address).2
  | .eraseBreakpoint address => .changed (m.breakpoints.erase address).2
  | .pulse => .status m.pulse.2
  | .step => .status m.step.2
  | .run budget => .stop (m.run budget).2
  | .runGuarded guard => .stopAfter (m.runGuarded guard).polls (m.runGuarded guard).result

end Machine

/-- The guard may look at the log, but neither at its details nor at the switch. An answer that depends on
them would itself be a reading of the log's details. -/
def Guard.IgnoresDetails (guard : Guard) : Prop :=
  ∀ k m n, Machine.AlikeButDetails m n → guard.holds k m = guard.holds k n

namespace Machine

variable {m n : Machine}

/-- Machines that differ in details go on to differ in details only, and give the same reports. -/
theorem AlikeButDetails.perform (h : m.AlikeButDetails n) (action : Action)
    (hg : ∀ guard, action = .runGuarded guard → guard.IgnoresDetails) :
    (m.report action).withoutDetails = (n.report action).withoutDetails ∧
      (m.perform action).AlikeButDetails (n.perform action) := by
  obtain ⟨hc, hb, hp⟩ := h.toAlike
  cases action with
  | load image =>
      refine ⟨rfl, ⟨rfl, hb, rfl⟩, ?_⟩
      exact (h.note (.loaded image.size image.entry.address)).log_eq
  | reset => exact ⟨rfl, ⟨rfl, hb, rfl⟩, h.log_eq⟩
  | typeText text =>
      refine ⟨rfl, ⟨?_, hb, hp⟩, ?_⟩
      · simp only [Machine.perform, typeText, hc]
      · simp only [Machine.perform, typeText, log, Journal.toList_append, List.map_append,
          Record.withoutDetails_append]
        rw [← log, ← log, h.log_eq]
  | trace tracing => exact ⟨rfl, ⟨hc, hb, hp⟩, h.log_eq⟩
  | drainJournal => exact ⟨congrArg Report.drained h.log_eq, ⟨hc, hb, hp⟩, rfl⟩
  | setBreakpoints addresses => exact ⟨rfl, ⟨hc, rfl, hp⟩, h.log_eq⟩
  | insertBreakpoint address =>
      exact ⟨by rw [report, report, hb], ⟨hc, by simp only [Machine.perform, hb], hp⟩, h.log_eq⟩
  | eraseBreakpoint address =>
      exact ⟨by rw [report, report, hb], ⟨hc, by simp only [Machine.perform, hb], hp⟩, h.log_eq⟩
  | pulse =>
      exact ⟨by rw [report, report, report_pulse_congr hc], coupled_alikeButDetails.pulse m n h⟩
  | step =>
      obtain ⟨hnext, hr⟩ := coupled_alikeButDetails.step h
      exact ⟨by rw [report, report, hr], hnext⟩
  | run budget =>
      obtain ⟨hnext, hr⟩ := coupled_alikeButDetails.run h budget
      exact ⟨by rw [report, report, hr], hnext⟩
  | runGuarded guard =>
      obtain ⟨hnext, hpolls, hr⟩ := coupled_alikeButDetails.runGuarded guard (hg guard rfl) h
      exact ⟨by rw [report, report, hpolls, hr], hnext⟩

end Machine

/-! ## Histories -/

/-- The action sets the switch for tracing. -/
def Action.isSwitch : Action → Bool
  | .trace _ => true
  | _ => false

/-- The history without the switches. -/
def Action.withoutSwitches (actions : List Action) : List Action := actions.filter (!·.isSwitch)

namespace Machine

variable {m n : Machine} {actions actions' : List Action}

/-- The reports of all actions but the switches, which have nothing to report. -/
def transcript (m : Machine) : List Action → List Report
  | [] => []
  | action :: rest =>
    if action.isSwitch then (m.perform action).transcript rest
    else m.report action :: (m.perform action).transcript rest

theorem AlikeButDetails.trace (h : m.AlikeButDetails n) {action : Action}
    (ha : action.isSwitch = true) : (m.perform action).AlikeButDetails n := by
  cases action with
  | trace tracing => exact ⟨⟨h.computer_eq, h.breakpoints_eq, h.pausedAt_eq⟩, h.log_eq⟩
  | _ => cases ha

/-- Switches can be left out of a history. -/
theorem AlikeButDetails.withoutSwitches (h : m.AlikeButDetails n)
    (hg : ∀ guard, .runGuarded guard ∈ actions → guard.IgnoresDetails) :
    (m.transcript actions).map Report.withoutDetails =
        (n.transcript (Action.withoutSwitches actions)).map Report.withoutDetails ∧
      (m.performAll actions).AlikeButDetails (n.performAll (Action.withoutSwitches actions)) := by
  -- From the first switch on the machines differ in tracing, so both vary in the induction.
  induction actions generalizing m n with
  | nil => exact ⟨rfl, h⟩
  | cons action rest ih =>
      have hrest : ∀ guard, .runGuarded guard ∈ rest → guard.IgnoresDetails :=
        fun guard hguard => hg guard (List.mem_cons_of_mem _ hguard)
      cases ha : action.isSwitch with
      | true =>
          have hfilter : Action.withoutSwitches (action :: rest) = Action.withoutSwitches rest := by
            simp [Action.withoutSwitches, ha]
          obtain ⟨hreports, hlast⟩ := ih (h.trace ha) hrest
          rw [transcript, if_pos ha, hfilter]
          exact ⟨hreports, hlast⟩
      | false =>
          have hfilter : Action.withoutSwitches (action :: rest) =
              action :: Action.withoutSwitches rest := by
            simp [Action.withoutSwitches, ha]
          have hself : ∀ guard, action = .runGuarded guard → guard.IgnoresDetails := by
            rintro guard rfl
            exact hg guard List.mem_cons_self
          obtain ⟨hreport, hnext⟩ := h.perform action hself
          obtain ⟨hreports, hlast⟩ := ih hnext hrest
          rw [hfilter, transcript, transcript, ha, if_neg Bool.false_ne_true,
            if_neg Bool.false_ne_true, List.map_cons, List.map_cons, hreport, hreports]
          exact ⟨rfl, hlast⟩

theorem alikeButDetails_performAll (m : Machine)
    (h : Action.withoutSwitches actions = Action.withoutSwitches actions')
    (hg : ∀ guard, .runGuarded guard ∈ actions → guard.IgnoresDetails) :
    (m.transcript actions).map Report.withoutDetails =
        (m.transcript actions').map Report.withoutDetails ∧
      (m.performAll actions).AlikeButDetails (m.performAll actions') := by
  have hkeeps (guard : Guard) (actions : List Action) :
      .runGuarded guard ∈ actions ↔ .runGuarded guard ∈ Action.withoutSwitches actions := by
    simp [Action.withoutSwitches, Action.isSwitch]
  have hg' : ∀ guard, .runGuarded guard ∈ actions' → guard.IgnoresDetails := fun guard hguard =>
    hg guard ((hkeeps guard actions).mpr (h ▸ (hkeeps guard actions').mp hguard))
  obtain ⟨hreports, hlast⟩ := (AlikeButDetails.refl m).withoutSwitches hg
  obtain ⟨hreports', hlast'⟩ := (AlikeButDetails.refl m).withoutSwitches hg'
  rw [← h] at hreports' hlast'
  exact ⟨hreports.trans hreports'.symm, hlast.trans hlast'.symm⟩

/-! ## Without tracing -/

/-- The machine does not trace, and there are no details in its log. -/
structure Untraced (m : Machine) : Prop where
  tracing_eq : m.tracing = false
  log_eq : Record.withoutDetails m.log = m.log

theorem Untraced.pulse (h : m.Untraced) : m.pulse.1.Untraced := by
  refine ⟨h.tracing_eq, ?_⟩
  rw [log_pulse, Record.withoutDetails_append, h.log_eq, h.tracing_eq, withoutDetails_map_record]
  simp [Event.noted]

theorem Between.log_eq (h : m.Between n) : ∃ events : List Event,
    n.log = m.log ++ events.map Event.record ∧ ∀ event ∈ events, event.isDetail = false := by
  obtain ⟨events, hnoted, hdetail⟩ := h.noted
  exact ⟨events, by rw [log, hnoted, List.map_append, log], hdetail⟩

theorem Untraced.append (h : m.Untraced) (ht : n.tracing = false) {events : List Event}
    (hlog : n.log = m.log ++ events.map Event.record)
    (hd : ∀ event ∈ events, event.isDetail = false) : n.Untraced := by
  refine ⟨ht, ?_⟩
  rw [hlog, Record.withoutDetails_append, h.log_eq, withoutDetails_map_record,
    List.filter_eq_self.mpr (by simpa using hd)]

theorem Clocked.untraced {train : List Machine} (h : m.Clocked train n) (hm : m.Untraced) :
    n.Untraced := by
  induction h with
  | start => exact hm
  | pulse _ ih => exact ih.pulse
  | between _ hb ih =>
      obtain ⟨events, hlog, hd⟩ := hb.log_eq
      exact ih.append (hb.tracing_eq.trans ih.tracing_eq) hlog hd

/-- Without pulses no detail is noted. -/
theorem log_of_not_advances {action : Action} (ha : action.advances = false)
    (hd : action ≠ .drainJournal) : ∃ events : List Event,
      (m.perform action).log = m.log ++ events.map Event.record ∧
        ∀ event ∈ events, event.isDetail = false := by
  cases action with
  | pulse | step | run budget | runGuarded guard => cases ha
  | drainJournal => exact absurd rfl hd
  | load image =>
      exact ⟨[.loaded image.size image.entry.address], by simp [Machine.perform, log, load],
        by simp [Event.isDetail]⟩
  | typeText text =>
      refine ⟨(text.filter (0xFF < ·.toNat)).map .characterTruncated,
        by simp [Machine.perform, log, typeText], fun event hevent => ?_⟩
      obtain ⟨character, -, rfl⟩ := List.mem_map.mp hevent
      rfl
  | reset | trace tracing | setBreakpoints addresses | insertBreakpoint address
  | eraseBreakpoint address => exact ⟨[], (List.append_nil _).symm, by simp⟩

theorem Untraced.perform (h : m.Untraced) (hsc : m.computer.s = true → m.computer.sc = 0)
    {action : Action} (ha : action ≠ .trace true) : (m.perform action).Untraced := by
  obtain ⟨train, htrain⟩ := exists_train hsc action
  cases hadvances : action.advances with
  | true => exact (htrain.clocked hadvances).untraced h
  | false =>
      have htracing : (m.perform action).tracing = false := by
        cases action with
        | trace tracing =>
            cases tracing with
            | true => exact absurd rfl ha
            | false => rfl
        | pulse | step | run budget | runGuarded guard => cases hadvances
        | _ => exact h.tracing_eq
      by_cases hd : action = .drainJournal
      · exact ⟨htracing, by rw [hd]; rfl⟩
      · obtain ⟨events, hlog, hdetail⟩ := log_of_not_advances (m := m) hadvances hd
        exact h.append htracing hlog hdetail

/-- A history without tracing has no details to take out. -/
theorem Untraced.history (h : m.Untraced) (hm : Reachable m)
    (ha : ∀ action ∈ actions, action ≠ .trace true) :
    (m.transcript actions).map Report.withoutDetails = m.transcript actions ∧
      (m.performAll actions).Untraced := by
  induction actions generalizing m with
  | nil => exact ⟨rfl, h⟩
  | cons action rest ih =>
      have hnext := h.perform hm.timing.halted_sc (ha action List.mem_cons_self)
      obtain ⟨hreports, hlast⟩ :=
        ih hnext (hm.perform action) fun action hrest => ha action (List.mem_cons_of_mem _ hrest)
      refine ⟨?_, hlast⟩
      have hreport : (m.report action).withoutDetails = m.report action := by
        cases action with
        | drainJournal => exact congrArg Report.drained h.log_eq
        | _ => rfl
      rw [transcript]
      split
      · exact hreports
      · rw [List.map_cons, hreport, hreports]

end Machine

/-! ## While tracing -/

/-- The time of a context. -/
def Event.time? : Event → Option Nat
  | .pulse _ time => some time
  | _ => none

theorem times_map_record (events : List Event) :
    Record.times (events.map Event.record) = events.filterMap Event.time? := by
  rw [Record.times, List.filterMap_map]
  congr 1
  funext event
  cases event <;> rfl

namespace Computer

variable (c : Computer)

theorem times_advance : c.advance.events.filterMap Event.time? = [c.sc] := by
  obtain ⟨outcomes, hevents, ho⟩ := c.events_advance
  have htimes : outcomes.filterMap Event.time? = [] := by
    rw [List.filterMap_eq_nil_iff]
    intro event hevent
    have houtcome := ho event hevent
    cases event with
    | pulse phase time => cases houtcome
    | _ => rfl
  rw [hevents, List.filterMap_cons, htimes]
  rfl

theorem times_startEvents : c.startEvents.filterMap Event.time? = [] := by
  unfold startEvents feedEvents
  rw [List.filterMap_append]
  split <;> split <;> rfl

/-- A pulse that is executed has one context, with the time before it. -/
theorem times_pulse :
    c.pulse.events.filterMap Event.time? = if c.s then [] else [c.sc] := by
  unfold pulse
  split
  · rfl
  · split
    · rw [List.filterMap_append, times_startEvents, times_advance, sc_startCycle, List.nil_append]
    · exact c.times_advance

end Computer

namespace Machine

variable {m n : Machine} {train : List Machine} {actions actions' : List Action}

/-- The times at which the pulses of a train are executed. A halted machine executes none. -/
def trainTimes (train : List Machine) : List Nat :=
  (train.filter (!·.computer.s)).map (·.computer.sc)

/-- The log of the second machine goes on from that of the first, with contexts of these times. -/
def LogsTimes (m n : Machine) (times : List Nat) : Prop :=
  ∃ entries, n.log = m.log ++ entries ∧ Record.times entries = times

theorem times_of_not_detail {events : List Event} (h : ∀ event ∈ events, event.isDetail = false) :
    Record.times (events.map Event.record) = [] := by
  rw [times_map_record, List.filterMap_eq_nil_iff]
  intro event hevent
  cases event with
  | pulse phase time => cases h _ hevent
  | _ => rfl

/-- Every pulse of a tracing machine is in the log, with its time. -/
theorem Clocked.logsTimes (h : m.Clocked train n) (hm : m.tracing = true) :
    n.tracing = true ∧ m.LogsTimes n (trainTimes train) := by
  induction h with
  | start => exact ⟨hm, [], by simp, rfl⟩
  | @pulse train n _ ih =>
      obtain ⟨htracing, entries, hlog, htimes⟩ := ih
      refine ⟨htracing, entries ++ n.computer.pulse.events.map Event.record, ?_, ?_⟩
      · rw [log_pulse, hlog, htracing, List.append_assoc]
        rfl
      · have hlast : trainTimes [n] = if n.computer.s then [] else [n.computer.sc] := by
          cases hs : n.computer.s <;> simp [trainTimes, hs]
        rw [Record.times_append, htimes, times_map_record, Computer.times_pulse, ← hlast, trainTimes,
          trainTimes, trainTimes, List.filter_append, List.map_append]
  | between _ hb ih =>
      obtain ⟨htracing, entries, hlog, htimes⟩ := ih
      obtain ⟨events, hmore, hd⟩ := hb.log_eq
      refine ⟨hb.tracing_eq.trans htracing, entries ++ events.map Event.record, ?_, ?_⟩
      · rw [hmore, hlog, List.append_assoc]
      · rw [Record.times_append, htimes, times_of_not_detail hd, List.append_nil]

theorem Train.logsTimes {action : Action} (h : m.Train action train) (hm : m.tracing = true)
    (ha : action ≠ .drainJournal) : m.LogsTimes (m.perform action) (trainTimes train) := by
  cases hadvances : action.advances with
  | true => exact ((h.clocked hadvances).logsTimes hm).2
  | false =>
      obtain rfl := h.eq_nil hadvances
      obtain ⟨events, hlog, hd⟩ := log_of_not_advances (m := m) hadvances ha
      exact ⟨_, hlog, times_of_not_detail hd⟩

/-- Switches make no difference but for the details in the log, wherever they stand in a history. If the
first history never traces, its log and what it reads from the log are those of the other one without
details. While the machine traces, every pulse that is executed has one context, with its time. -/
theorem tracing_transparent
    (hsame : Action.withoutSwitches actions = Action.withoutSwitches actions')
    (hguards : ∀ guard, .runGuarded guard ∈ actions → guard.IgnoresDetails) :
    (initial.performAll actions).AlikeButDetails (initial.performAll actions') ∧
      (initial.transcript actions).map Report.withoutDetails =
        (initial.transcript actions').map Report.withoutDetails ∧
      ((∀ action ∈ actions, action ≠ .trace true) →
        (initial.performAll actions).log =
            Record.withoutDetails (initial.performAll actions').log ∧
          initial.transcript actions = (initial.transcript actions').map Report.withoutDetails) ∧
      ((initial.performAll actions').tracing = true → ∀ action, action ≠ .drainJournal →
        (∃ train, (initial.performAll actions').Train action train) ∧
          ∀ train, (initial.performAll actions').Train action train →
            (initial.performAll actions').LogsTimes
              ((initial.performAll actions').perform action) (trainTimes train)) := by
  obtain ⟨hreports, hlast⟩ := alikeButDetails_performAll initial hsame hguards
  refine ⟨hlast, hreports, fun huntraced => ?_, fun htracing action ha => ⟨?_, fun train htrain => ?_⟩⟩
  · obtain ⟨hplain, hend⟩ := Untraced.history ⟨rfl, rfl⟩ .initial huntraced
    exact ⟨hend.log_eq.symm.trans hlast.log_eq, hplain.symm.trans hreports⟩
  · exact exists_train (reachable_iff.mpr ⟨actions', rfl⟩).timing.halted_sc action
  · exact htrain.logsTimes htracing ha

/-- A guard that looks at AC, and that no run gets past. -/
def clearGuard : Guard := ⟨0, fun _ m => m.computer.ac == 0⟩

theorem tracing_transparent_strayWord :
    let actions : List Action := [.load strayWord, .runGuarded clearGuard, .pulse, .pulse]
    let actions' : List Action :=
      [.load strayWord, .runGuarded clearGuard, .pulse, .trace true, .pulse]
    Action.withoutSwitches actions = Action.withoutSwitches actions' ∧
      (∀ guard, .runGuarded guard ∈ actions → guard.IgnoresDetails) ∧
      (initial.performAll actions).log = Record.withoutDetails (initial.performAll actions').log ∧
      (initial.performAll actions').LogsTimes ((initial.performAll actions').perform .pulse) [2] := by
  intro actions actions'
  have hsame : Action.withoutSwitches actions = Action.withoutSwitches actions' := rfl
  have hguards : ∀ guard, .runGuarded guard ∈ actions → guard.IgnoresDetails := by
    intro guard hguard k m n h
    obtain rfl : guard = clearGuard := by simpa [actions] using hguard
    simp only [clearGuard, h.computer_eq]
  obtain ⟨-, -, hlog, htimes⟩ := tracing_transparent hsame hguards
  have huntraced : ∀ action ∈ actions, action ≠ .trace true := by simp [actions]
  exact ⟨hsame, hguards, (hlog huntraced).1, (htimes rfl .pulse (by simp)).2 _ rfl⟩

end Machine

end BasicComputer
