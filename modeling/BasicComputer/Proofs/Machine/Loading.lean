import BasicComputer.Proofs.Assembly.Decoding
import BasicComputer.Proofs.Machine.Tracing
import Mathlib.Data.List.Find

/-! # Loading

Loading an image fills every cell with the last word that the image has for it, and leaves of what was
before no more than the log, the breakpoints and the switch for tracing. From then on the machine does what
a new machine with these breakpoints and this switch does: the log it had only stands in front. -/

namespace BasicComputer

/-! ## The words of an image -/

namespace PlacedWord

/-- The address counts modulo the number of cells. -/
def IsFor (w : PlacedWord) (a : Address) : Prop := w.address.toNat % 4096 = a.toNat

instance (w : PlacedWord) (a : Address) : Decidable (w.IsFor a) := Nat.decEq _ _

theorem isFor_iff {w : PlacedWord} {a : Address} : w.IsFor a ↔ w.address.address = a := by
  rw [IsFor, ← Word.toNat_address, BitVec.toNat_inj]

end PlacedWord

/-- The word is for the cell, and none behind it is. -/
def Image.LastFor (image : Image) (a : Address) (w : PlacedWord) : Prop :=
  ∃ before after, image.words = before ++ w :: after ∧ w.IsFor a ∧ ∀ x ∈ after, ¬x.IsFor a

section

variable {image : Image} {a : Address} {w : PlacedWord}

/-- The last word for a cell is the first one that a search from the end meets. -/
theorem lastFor_iff_find? :
    image.LastFor a w ↔ image.words.reverse.find? (fun x => decide (x.IsFor a)) = some w := by
  rw [List.find?_eq_some_iff_append]
  constructor
  · rintro ⟨before, after, hwords, hw, hafter⟩
    exact ⟨by simpa using hw, after.reverse, before.reverse, by simp [hwords], by simpa using hafter⟩
  · rintro ⟨hw, after, before, hwords, hafter⟩
    refine ⟨before.reverse, after.reverse, ?_, by simpa using hw, by simpa using hafter⟩
    rw [List.reverse_eq_iff] at hwords
    simpa using hwords

theorem exists_lastFor (h : ∃ x ∈ image.words, x.IsFor a) : ∃ w, image.LastFor a w := by
  cases hfind : image.words.reverse.find? (fun x => decide (x.IsFor a)) with
  | some w => exact ⟨w, lastFor_iff_find?.mpr hfind⟩
  | none =>
      obtain ⟨x, hx, hfor⟩ := h
      have := List.find?_eq_none.mp hfind x (List.mem_reverse.mpr hx)
      exact absurd hfor (by simpa using this)

/-- Words for other cells leave a cell as it is. -/
theorem read_foldl_write {words : List PlacedWord} (h : ∀ x ∈ words, ¬x.IsFor a) (memory : Memory) :
    (words.foldl (fun memory x => memory.write x.address.address x.word) memory).read a =
      memory.read a := by
  induction words generalizing memory with
  | nil => rfl
  | cons x rest ih =>
      have hx : x.address.address ≠ a := fun hxa =>
        h x List.mem_cons_self (PlacedWord.isFor_iff.mpr hxa)
      rw [List.foldl_cons, ih fun y hy => h y (List.mem_cons_of_mem _ hy),
        Memory.read_write_of_ne _ hx]

theorem Image.LastFor.read_memory (h : image.LastFor a w) : image.memory.read a = w.word := by
  obtain ⟨before, after, hwords, hw, hafter⟩ := h
  rw [Image.memory, hwords, List.foldl_append, List.foldl_cons, read_foldl_write hafter,
    PlacedWord.isFor_iff.mp hw, Memory.read_write_self]

theorem read_memory_of_forall_not (h : ∀ x ∈ image.words, ¬x.IsFor a) :
    image.memory.read a = 0 := by
  rw [Image.memory, read_foldl_write h, Memory.read_blank]

/-! ## The spans of an assembled image -/

theorem toNat_address_lt_of_assemble {source : String} (h : assemble source = .ok image) :
    ∀ x ∈ image.words, x.address.toNat < 4096 := by
  obtain ⟨p, -, -, ha⟩ := exists_program_of_assemble h
  intro x hx
  obtain ⟨placement, haddress, -, -⟩ := Program.exists_forall₂_iff.mp ⟨_, ha.words.flip⟩ x hx
  rw [haddress, Address.toNat_word]
  exact placement.address.isLt

/-- Where every address is the number of a cell, the search for a span looks for the word in that
cell. -/
theorem spanOf?_eq_of_lt (h : ∀ x ∈ image.words, x.address.toNat < 4096) {b : Word}
    (hb : b.toNat < 4096) :
    image.spanOf? b =
      (image.words.reverse.find? (fun x => decide (x.IsFor b.address))).map (·.span) := by
  rw [Image.spanOf?]
  congr 1
  refine List.find?_congr fun x hx => ?_
  have hx := h x (List.mem_reverse.mp hx)
  have hiff : x.IsFor b.address ↔ x.address = b := by
    rw [PlacedWord.IsFor, Word.toNat_address, Nat.mod_eq_of_lt hx, Nat.mod_eq_of_lt hb,
      BitVec.toNat_inj]
  rw [decide_eq_decide.mpr hiff, beq_eq_decide]

theorem spanOf?_eq_none_of_le (h : ∀ x ∈ image.words, x.address.toNat < 4096) {b : Word}
    (hb : 4096 ≤ b.toNat) : image.spanOf? b = none := by
  rw [Image.spanOf?, Option.map_eq_none_iff, List.find?_eq_none]
  intro x hx heq
  have hx := h x (List.mem_reverse.mp hx)
  rw [beq_iff_eq.mp heq] at hx
  omega

end

/-! ## A log in front -/

/-- The journal with these entries in front of its own. -/
def Journal.withPast {α : Type} (past : List α) (j : Journal α) : Journal α :=
  ⟨past.toArray ++ j.entries⟩

@[simp] theorem Journal.toList_withPast {α : Type} (past : List α) (j : Journal α) :
    (j.withPast past).toList = past ++ j.toList := by
  simp [withPast, toList]

theorem Journal.ext_toList {α : Type} {j k : Journal α} (h : j.toList = k.toList) : j = k := by
  cases j
  cases k
  exact congrArg Journal.mk (Array.toList_inj.mp h)

theorem Journal.append_withPast {α : Type} (past entries : List α) (j : Journal α) :
    (j.withPast past).append entries = (j.append entries).withPast past :=
  Journal.ext_toList (by simp)

theorem Journal.push_withPast {α : Type} (past : List α) (entry : α) (j : Journal α) :
    (j.withPast past).push entry = (j.push entry).withPast past :=
  Journal.ext_toList (by simp)

namespace Machine

/-- The machine, had these entries been made in its journal before all others. -/
def withPast (past : List Event) (m : Machine) : Machine :=
  { m with journal := m.journal.withPast past }

/-- A new machine with the same breakpoints and the same switch for tracing. -/
def renewed (m : Machine) : Machine :=
  { initial with breakpoints := m.breakpoints, tracing := m.tracing }

end Machine

/-- Asks the guard about a machine with these entries in front of its journal. -/
def Guard.withPast (past : List Event) (guard : Guard) : Guard :=
  ⟨guard.patience, fun k m => guard.holds k (m.withPast past)⟩

/-- The guard does not look at the journal. -/
def Guard.IgnoresJournal (guard : Guard) : Prop :=
  ∀ k m journal, guard.holds k { m with journal } = guard.holds k m

namespace Action

/-- The action takes the journal away. -/
def drains : Action → Bool
  | drainJournal => true
  | _ => false

/-- The action, with its guard asked about machines with these entries in front of their journals. -/
def withPast (past : List Event) : Action → Action
  | runGuarded guard => runGuarded (guard.withPast past)
  | action => action

/-- The history, with the entries in front of the journals that its guards look at, for as long as the
journal is not taken away. -/
def allWithPast (past : List Event) : List Action → List Action
  | [] => []
  | action :: rest =>
    if action.drains then action :: rest else action.withPast past :: allWithPast past rest

/-- What is left of these entries after the history. -/
def pastAfter (past : List Event) (actions : List Action) : List Event :=
  if actions.any drains then [] else past

end Action

/-- The reports, with these records in front of the first log that is handed over. -/
def Machine.Report.withPast (past : List Record) : List Machine.Report → List Machine.Report
  | [] => []
  | .drained log :: rest => .drained (past ++ log) :: rest
  | report :: rest => report :: Machine.Report.withPast past rest

namespace Machine

variable {m : Machine} {past : List Event} {action : Action}

theorem log_withPast (past : List Event) (m : Machine) :
    (m.withPast past).log = past.map Event.record ++ m.log := by
  simp [log, withPast]

/-- What is in front of the journal stays there, and has no part in what pulses and runs do. -/
theorem coupled_withPast (past : List Event) : Coupled fun m n => m = n.withPast past where
  alike := by
    rintro _ n rfl
    exact ⟨rfl, rfl, rfl⟩
  pulse := by
    rintro _ n rfl
    simp only [pulse, withPast, Journal.append_withPast]
    rfl
  pass := by
    rintro _ n rfl
    have hat : (n.withPast past).atBreakpoint = n.atBreakpoint := rfl
    rw [pass, pass, hat]
    split <;> rfl
  pause := by
    rintro _ n rfl
    simp only [pause, note, withPast, Journal.push_withPast]
  note := by
    rintro _ n event rfl
    simp only [note, withPast, Journal.push_withPast]

theorem perform_withPast (m : Machine) (past : List Event) (ha : action.drains = false) :
    (m.withPast past).report action = m.report (action.withPast past) ∧
      (m.withPast past).perform action = (m.perform (action.withPast past)).withPast past := by
  have hq := coupled_withPast past
  cases action with
  | drainJournal => cases ha
  | reset | trace | setBreakpoints | insertBreakpoint | eraseBreakpoint => exact ⟨rfl, rfl⟩
  | load image =>
      refine ⟨rfl, ?_⟩
      simp only [Action.withPast, Machine.perform, load, withPast, Journal.push_withPast]
  | typeText text =>
      refine ⟨rfl, ?_⟩
      simp only [Action.withPast, Machine.perform, typeText, withPast, Journal.append_withPast]
  | pulse => exact ⟨rfl, hq.pulse _ m rfl⟩
  | step =>
      obtain ⟨hnext, hr⟩ := hq.step (m := m.withPast past) (n := m) rfl
      exact ⟨congrArg Report.status hr, hnext⟩
  | run budget =>
      obtain ⟨hnext, hr⟩ := hq.run (m := m.withPast past) (n := m) rfl budget
      exact ⟨congrArg Report.stop hr, hnext⟩
  | runGuarded guard =>
      have hg : ∀ k x n, x = n.withPast past → guard.holds k x = (guard.withPast past).holds k n := by
        rintro k _ n rfl
        rfl
      obtain ⟨hnext, hpolls, hr⟩ :=
        hq.runOn hg (m := m.withPast past) (n := m) rfl guard.patience 0
      exact ⟨congrArg₂ Report.stopAfter hpolls hr, hnext⟩

theorem withPast_nil (m : Machine) : m.withPast [] = m := by
  rw [withPast, Journal.ext_toList (Journal.toList_withPast [] m.journal)]

/-- Only the hand-over of the journal reports a log. -/
theorem withPast_report_cons (ha : action.drains = false) (past : List Record)
    (rest : List Report) :
    Report.withPast past (m.report action :: rest) = m.report action :: Report.withPast past rest := by
  cases action with
  | drainJournal => cases ha
  | _ => rfl

theorem isSwitch_withPast (past : List Event) (action : Action) :
    (action.withPast past).isSwitch = action.isSwitch := by
  cases action <;> rfl

theorem drains_withPast (past : List Event) (action : Action) :
    (action.withPast past).drains = action.drains := by
  cases action <;> rfl

/-- What is in front of the journal has no part in a history, but for what is read from the log. -/
theorem history_withPast (m : Machine) (past : List Event) (actions : List Action) :
    (m.withPast past).transcript actions =
        Report.withPast (past.map Event.record) (m.transcript (Action.allWithPast past actions)) ∧
      (m.withPast past).performAll actions =
        (m.performAll (Action.allWithPast past actions)).withPast
          (Action.pastAfter past actions) := by
  induction actions generalizing m with
  | nil => exact ⟨rfl, rfl⟩
  | cons action rest ih =>
      cases ha : action.drains with
      | true =>
          obtain rfl : action = .drainJournal := by
            cases action with
            | drainJournal => rfl
            | _ => cases ha
          have hreport : (m.withPast past).report .drainJournal =
              .drained (past.map Event.record ++ m.log) :=
            congrArg Report.drained (log_withPast past m)
          have hafter : Action.pastAfter past (.drainJournal :: rest) = [] := rfl
          rw [Action.allWithPast, if_pos ha, hafter, withPast_nil]
          refine ⟨?_, rfl⟩
          rw [transcript, transcript, hreport]
          rfl
      | false =>
          obtain ⟨hreport, hnext⟩ := perform_withPast m past ha
          obtain ⟨hreports, hlast⟩ := ih (m.perform (action.withPast past))
          have hafter : Action.pastAfter past (action :: rest) = Action.pastAfter past rest := by
            simp [Action.pastAfter, ha]
          rw [Action.allWithPast, if_neg (by simp [ha]), hafter]
          refine ⟨?_, ?_⟩
          · rw [transcript, transcript, isSwitch_withPast, hreport, hnext, hreports]
            cases action.isSwitch with
            | true => rfl
            | false =>
                exact (withPast_report_cons ((drains_withPast past action).trans ha) _ _).symm
          · simp only [performAll, List.foldl_cons] at hlast ⊢
            rw [hnext, hlast]

/-- Guards that do not look at the journal can be asked as they are. -/
theorem allWithPast_of_ignores {actions : List Action}
    (h : ∀ guard, .runGuarded guard ∈ actions → guard.IgnoresJournal) :
    Action.allWithPast past actions = actions := by
  induction actions with
  | nil => rfl
  | cons action rest ih =>
      have hself : action.withPast past = action := by
        cases action with
        | runGuarded guard =>
            have hg := h guard List.mem_cons_self
            exact congrArg Action.runGuarded
              (congrArg (Guard.mk guard.patience) (funext₂ fun k m => hg k m _))
        | _ => rfl
      rw [Action.allWithPast, hself, ih fun guard hguard => h guard (List.mem_cons_of_mem _ hguard)]
      exact ite_self _

/-! ## Loading -/

theorem load_eq_withPast (m : Machine) (image : Image) :
    m.load image = (m.renewed.load image).withPast m.journal.toList := by
  have hjournal : m.journal = Journal.withPast m.journal.toList .empty :=
    Journal.ext_toList (by simp)
  rw [load, load, withPast, ← Journal.push_withPast]
  exact congrArg (Machine.mk _ · m.tracing m.breakpoints none)
    (congrArg (Journal.push · _) hjournal)

/-- Once an image is loaded every cell holds the last word for it, or else 0, the program counter holds the
entry, and nothing but the log, the breakpoints and the switch for tracing is other than in a new machine.
Whatever is done then has the reports and the end that it has with a new machine that has the same
breakpoints and the same switch: the past only stands in front of the log, where a guard may look at it and
the first reading of the log shows it. In an assembled image just the cells that were filled have a span,
which is that of the word in the cell. -/
theorem loading_forgets (m : Machine) (image : Image) :
    (∀ a, (∃ w, image.LastFor a w ∧ (m.load image).computer.memory.read a = w.word) ∨
        (∀ x ∈ image.words, ¬x.IsFor a) ∧ (m.load image).computer.memory.read a = 0) ∧
      (m.load image).computer.pc.toNat = image.entry.toNat % 4096 ∧
      m.load image =
        { initial with
          computer := { Computer.initial with
            memory := (m.load image).computer.memory
            pc := (m.load image).computer.pc }
          journal := (m.load image).journal
          breakpoints := m.breakpoints
          tracing := m.tracing } ∧
      (∀ actions,
        (m.load image).transcript actions =
            Report.withPast m.log ((m.renewed.load image).transcript
              (Action.allWithPast m.journal.toList actions)) ∧
          (m.load image).performAll actions =
            ((m.renewed.load image).performAll
              (Action.allWithPast m.journal.toList actions)).withPast
                (Action.pastAfter m.journal.toList actions) ∧
          ((∀ guard, .runGuarded guard ∈ actions → guard.IgnoresJournal) →
            Action.allWithPast m.journal.toList actions = actions)) ∧
      ∀ source, assemble source = .ok image → ∀ b : Word,
        ((image.spanOf? b).isSome ↔ b.toNat < 4096 ∧ ∃ x ∈ image.words, x.IsFor b.address) ∧
          ∀ span, image.spanOf? b = some span →
            ∃ w, image.LastFor b.address w ∧ w.span = span ∧
              (m.load image).computer.memory.read b.address = w.word := by
  refine ⟨fun a => ?_, Word.toNat_address _, rfl, fun actions => ?_, fun source hsource b => ?_⟩
  · by_cases h : ∃ x ∈ image.words, x.IsFor a
    · obtain ⟨w, hw⟩ := exists_lastFor h
      exact .inl ⟨w, hw, hw.read_memory⟩
    · have hnone : ∀ x ∈ image.words, ¬x.IsFor a := by simpa using h
      exact .inr ⟨hnone, read_memory_of_forall_not hnone⟩
  · obtain ⟨hreports, hlast⟩ := history_withPast (m.renewed.load image) m.journal.toList actions
    rw [← load_eq_withPast] at hreports hlast
    exact ⟨hreports, hlast, allWithPast_of_ignores⟩
  · have haddress := toNat_address_lt_of_assemble hsource
    by_cases hb : b.toNat < 4096
    · rw [spanOf?_eq_of_lt haddress hb]
      refine ⟨by simp [hb], fun span hspan => ?_⟩
      obtain ⟨w, hw, rfl⟩ := Option.map_eq_some_iff.mp hspan
      have hlast := lastFor_iff_find?.mpr hw
      exact ⟨w, hlast, rfl, hlast.read_memory⟩
    · rw [spanOf?_eq_none_of_le haddress (Nat.le_of_not_lt hb)]
      simp [hb]

/-- The word of the second line is overwritten by the word of the fourth. -/
def overwritten : Image := ⟨5, [⟨5, 1, ⟨6, 11⟩⟩, ⟨5, 2, ⟨18, 23⟩⟩]⟩

theorem loading_forgets_overwritten :
    let m := (initial.load strayWord).typeText ['Ł']
    let actions : List Action := [.runGuarded clearGuard, .drainJournal]
    assemble "ORG 5\nHEX 1\nORG 5\nHEX 2" = .ok overwritten ∧
      overwritten.spanOf? 5 = some ⟨18, 23⟩ ∧
      (∃ w, overwritten.LastFor 5 w ∧ w.span = ⟨18, 23⟩ ∧
        (m.load overwritten).computer.memory.read 5 = w.word) ∧
      (∀ guard, .runGuarded guard ∈ actions → guard.IgnoresJournal) ∧
      (m.load overwritten).transcript actions =
        Report.withPast m.log ((m.renewed.load overwritten).transcript actions) := by
  intro m actions
  have hassemble : assemble "ORG 5\nHEX 1\nORG 5\nHEX 2" = .ok overwritten := by decide +kernel
  have hguards : ∀ guard, .runGuarded guard ∈ actions → guard.IgnoresJournal := by
    intro guard hguard k n journal
    obtain rfl : guard = clearGuard := by simpa [actions] using hguard
    rfl
  have hspan : overwritten.spanOf? 5 = some ⟨18, 23⟩ := by decide
  obtain ⟨-, -, -, hhistory, hspans⟩ := loading_forgets m overwritten
  obtain ⟨hreports, -, hsame⟩ := hhistory actions
  rw [hsame hguards] at hreports
  exact ⟨hassemble, hspan, (hspans _ hassemble 5).2 _ hspan, hguards, hreports⟩

end Machine

end BasicComputer
