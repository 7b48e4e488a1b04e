import BasicComputer.Command.Session
import BasicComputer.Proofs.Console.Streams
import BasicComputer.Proofs.Machine.OutputDevice

/-! # What a run writes to standard output

Whatever the program has printed is written between the line that announces the run and the one that tells
how it has ended. Where a word cannot be decoded, nothing at all is written behind the announcement. -/

namespace BasicComputer

namespace Session

variable {console : Console} {path text : String} {image : Image} {stop : Stop}

/-! ## Lines of the command's own -/

/-- The line that announces what is being done. -/
def statusLine (colored : Bool) (color : Color) (verb text : String) : String :=
  color.style.paint colored (Column.alignRight 12 verb) ++ " " ++ text ++ "\n"

theorem text_status (console : Console) (color : Color) (verb text : String) :
    (status console color verb text).text .output =
      console.text .output ++ statusLine console.colored color verb text :=
  Console.text_announce ..

/-- The lines in front of a run. -/
def opening (colored : Bool) (path : String) (image : Image) : String :=
  statusLine colored .green "Assembling" (target path) ++
    statusLine colored .green "Running" ("from " ++ hexAddress image.entry.toNat)

/-- The line behind a run, if there is one. -/
def closing (colored : Bool) (path text : String) (image : Image) : Stop → String
  | .halted => statusLine colored .green "Completed" (target path)
  | .breakpoint address =>
    let line :=
      match image.spanOf? address.word with
      | some span => sourceLine text span
      | none => ""
    statusLine colored .cyan "Paused" ("at " ++ hexAddress address.toNat ++ "  " ++ line)
  | .budgetExhausted | .cancelled => ""

theorem text_conclude (console : Console) (path text : String) (image : Image) (budget : Nat)
    (m : Machine) (stop : Stop) :
    (conclude console path text image budget m stop).console.text .output =
      console.text .output ++ closing console.colored path text image stop := by
  cases stop with
  | halted =>
      let steps := "Halted after " ++ toString m.computer.cycles ++ " steps."
      have haside : console.Aside (console.printLine .sometimes steps) :=
        Console.aside_print (by decide) console _
      change (status (console.printLine .sometimes steps) .green "Completed" (target path)).text .output = _
      rw [text_status, haside.output_eq, haside.colored_eq]
      rfl
  | breakpoint address => exact text_status ..
  | budgetExhausted | cancelled => exact String.append_empty.symm

/-! ## The program's output -/

/-- What has been printed may stand between newlines. -/
theorem exists_text_printOutput (console : Console) (m : Machine) :
    ∃ lead trail, (lead = "" ∨ lead = "\n") ∧ (trail = "" ∨ trail = "\n") ∧
      (printOutput console m).text .output = console.text .output ++ (lead ++ m.outputText ++ trail) := by
  unfold printOutput
  split
  next hempty =>
    have hnone : m.outputText = "" := by
      rw [Machine.outputText, Array.isEmpty_iff.mp hempty]
      rfl
    obtain ⟨trail, htrail, htext⟩ := console.exists_text_startLine
    exact ⟨"", trail, .inl rfl, htrail, by simpa [hnone] using htext⟩
  next =>
    obtain ⟨lead, hlead, hfirst⟩ := console.exists_text_startLine
    obtain ⟨trail, htrail, htext⟩ :=
      ((console.startLine .program).print .program m.outputText).exists_text_startLine
    refine ⟨lead, trail, hlead, htrail, ?_⟩
    rw [htext, Console.text_print_program, hfirst]
    simp only [String.append_assoc]

theorem colored_printOutput (console : Console) (m : Machine) :
    (printOutput console m).colored = console.colored := by
  unfold printOutput
  split <;> simp

theorem assembled_eq_ok (hpath : Path.extension? path = some "asm") (himage : assemble text = .ok image) :
    assembled path (.ok text) = .ok (text, image) := by
  have hsource : source path (.ok text) = .ok text := by
    unfold source
    rw [hpath]
    rfl
  simp only [assembled, hsource, bind, Except.bind, himage]
  rfl

theorem timing_prepare (settings : Settings) (options : RunRequest) (image : Image) :
    (prepare settings options image).computer.Timing :=
  .of_boundary (Nat.zero_le _) rfl

/-- A machine that has been made ready has printed nothing yet. -/
theorem outputText_of_clocked {settings : Settings} {options : RunRequest} {train : List Machine}
    {m : Machine} (h : (prepare settings options image).Clocked train m) :
    m.outputText = String.ofList ((Machine.printedBy train).map Byte.char) := by
  rw [Machine.outputText, h.output (timing_prepare settings options image)]
  rfl

/-! ## The run -/

/-- The console when a run is over and its journal has been told. -/
def told (console : Console) (path : String) (options : RunRequest) (image : Image) (m : Machine) :
    Console :=
  let console := status { console with minimal := options.minimal } .green "Assembling" (target path)
  let console := status console .green "Running" ("from " ++ hexAddress image.entry.toNat)
  console.showRecords .always (m.journal.toList.map Event.record)

theorem told_spec (console : Console) (path : String) (options : RunRequest) (image : Image) (m : Machine) :
    (told console path options image m).text .output =
        console.text .output ++ opening console.colored path image ∧
      (told console path options image m).colored = console.colored := by
  have hne : Destination.always ≠ .program := by decide
  obtain ⟨htext, hcolored⟩ := Console.aside_showRecords hne
    (status (status { console with minimal := options.minimal } .green "Assembling" (target path))
      .green "Running" ("from " ++ hexAddress image.entry.toNat))
    (m.journal.toList.map Event.record)
  refine ⟨htext.trans ?_, hcolored⟩
  rw [text_status, text_status, String.append_assoc]
  rfl

theorem run_of_assembled (console : Console) {settings : Settings} {options : RunRequest} {budget : Nat}
    {r : Machine × Except DecodeFault Stop} (h : assembled path (.ok text) = .ok (text, image))
    (hbudget : options.maxSteps.getD settings.maxSteps = budget)
    (hr : (prepare settings options image).run budget = r) :
    run console settings path options (.ok text) =
      match r.2 with
      | .error fault => fail (told console path options image r.1) fault.message none
      | .ok stop =>
        let printed := printOutput (told console path options image r.1) r.1
        conclude (printed.showRegisters .always r.1.computer) path text image budget r.1 stop := by
  subst hbudget hr
  unfold run
  rw [h]
  rfl

/-- What the program has printed is written, unless the run ends at a word that cannot be decoded. -/
theorem text_run (console : Console) (settings : Settings) (options : RunRequest)
    (h : assembled path (.ok text) = .ok (text, image)) :
    let r := (prepare settings options image).run (options.maxSteps.getD settings.maxSteps)
    let written := (run console settings path options (.ok text)).console.text .output
    let before := console.text .output ++ opening console.colored path image
    (∀ fault, r.2 = .error fault → written = before) ∧
      ∀ stop, r.2 = .ok stop → ∃ lead trail, (lead = "" ∨ lead = "\n") ∧ (trail = "" ∨ trail = "\n") ∧
        written = before ++ (lead ++ r.1.outputText ++ trail) ++
          closing console.colored path text image stop := by
  intro r written before
  have hrun := run_of_assembled console (r := r) h rfl rfl
  obtain ⟨htold, hcolored⟩ := told_spec console path options image r.1
  refine ⟨fun fault hfault => ?_, fun stop hstop => ?_⟩
  · rw [hfault] at hrun
    exact (congrArg (·.console.text .output) hrun).trans htold
  · rw [hstop] at hrun
    obtain ⟨lead, trail, hlead, htrail, hprinted⟩ :=
      exists_text_printOutput (told console path options image r.1) r.1
    let printed := printOutput (told console path options image r.1) r.1
    have haside : printed.Aside (printed.showRegisters .always r.1.computer) :=
      Console.aside_showRegisters (by decide) _ _
    refine ⟨lead, trail, hlead, htrail, ?_⟩
    refine (congrArg (·.console.text .output) hrun).trans ?_
    change (conclude (printed.showRegisters .always r.1.computer) path text image _ r.1 stop).console.text
      .output = _
    rw [text_conclude, haside.output_eq, haside.colored_eq, hprinted, colored_printOutput, htold, hcolored]

end Session

section

variable {environment : Environment} {options : RunRequest} {path text : String} {image : Image}

/-- For every program and all choices of input, budget and breakpoints: where the run stops, the characters
that its pulses have printed are in standard output, all of them and in order, behind the announcement and
in front of the line that tells how it has ended. Where a word cannot be decoded they are left out. -/
theorem run_output (hpath : Path.extension? path = some "asm") (himage : assemble text = .ok image) :
    let m := Session.prepare environment.settings options image
    let budget := options.maxSteps.getD environment.settings.maxSteps
    let written := ((Invocation.run path options).session environment (.ok text)).console.text .output
    let before := Session.opening environment.colorsSession path image
    (∃ train, m.CallTrain (.run budget) train) ∧ ∀ train, m.CallTrain (.run budget) train →
      let printed := String.ofList ((Machine.printedBy train).map Byte.char)
      (∀ stop, (m.run budget).2 = .ok stop →
        ∃ lead trail, (lead = "" ∨ lead = "\n") ∧ (trail = "" ∨ trail = "\n") ∧
          written = before ++ (lead ++ printed ++ trail) ++
            Session.closing environment.colorsSession path text image stop) ∧
      ∀ fault, (m.run budget).2 = .error fault → written = before := by
  intro m budget written before
  refine ⟨Machine.exists_callTrain m (.run budget), fun train htrain => ?_⟩
  intro printed
  have hprinted : (m.run budget).1.outputText = printed := Session.outputText_of_clocked htrain.clocked
  have hbefore : (Console.initial environment.colorsSession).text .output ++ before = before :=
    String.empty_append
  obtain ⟨hfault, hstop⟩ := Session.text_run (Console.initial environment.colorsSession)
    environment.settings options (Session.assembled_eq_ok hpath himage)
  refine ⟨fun stop hr => ?_, fun fault hr => ?_⟩
  · obtain ⟨lead, trail, hlead, htrail, hwritten⟩ := hstop stop hr
    refine ⟨lead, trail, hlead, htrail, ?_⟩
    rw [← hprinted, ← hbefore]
    exact hwritten
  · rw [← hbefore]
    exact hfault fault hr

end

/-! ## A letter -/

/-- A program that prints the letter A and goes on into a word that is no instruction. -/
def strayLetter : String := "LDA A\nOUT\nA, HEX 7041\n"

def strayLetterImage : Image :=
  ⟨0, [⟨0, 0x2002, ⟨0, 5⟩⟩, ⟨1, 0xF400, ⟨6, 9⟩⟩, ⟨2, 0x7041, ⟨10, 21⟩⟩]⟩

theorem assemble_strayLetter : assemble strayLetter = .ok strayLetterImage := by decide +kernel

/-- None of the five characters is a slash. -/
theorem splitOn_sourceFile : "p.asm".splitOn "/" = ["p.asm"] := by
  unfold String.splitOn
  rw [if_neg (by decide)]
  iterate 5 rw [String.splitOnAux, if_neg (by decide +kernel), if_neg (by decide +kernel)]
  rw [String.splitOnAux, if_pos (by decide +kernel)]
  decide +kernel

theorem extension?_sourceFile : Path.extension? "p.asm" = some "asm" := by
  simp only [Path.extension?, Path.fileName?, Path.parts, splitOn_sourceFile]
  rfl

namespace Machine

/-- The machine that is made ready for the program where there are neither variables nor options. -/
def readyLetter : Machine := Session.prepare (Environment.settings ⟨[], false⟩) .default strayLetterImage

def loadedLetter : Machine := readyLetter.pass.afterPulses 6

def printedLetter : Machine := loadedLetter.pass.afterPulses 4

/-- A step from the beginning of a cycle, told by its pulses. -/
theorem step_eq_afterPulses {m : Machine} {k : Nat} {result : Except DecodeFault Status}
    (h : m.computer.s = false ∧ m.computer.sc = 0 ∧ m.computer.cyclePulses = k + 1 ∧
      (m.afterPulses k).pulse.2 = result) : m.step = (m.afterPulses (k + 1), result) := by
  obtain ⟨hs, hb, hk, rfl⟩ := h
  rw [step_eq_pulse hs hb hk, afterPulses_succ]

/-- Two steps print the letter. -/
theorem course_printedLetter {budget : Nat} {steps : List Machine} {run : Run}
    (h : Course (Guard.ofBudget 0 (budget + 2)).holds printedLetter budget 2 steps run) :
    Course (Guard.ofBudget 0 (budget + 2)).holds readyLetter (budget + 2) 0
      (readyLetter.pass :: loadedLetter.pass :: steps) run := by
  have hload : readyLetter.pass.step = (loadedLetter, .ok .running) :=
    step_eq_afterPulses (k := 5) (by decide +kernel)
  have hprint : loadedLetter.pass.step = (printedLetter, .ok .running) :=
    step_eq_afterPulses (k := 3) (by decide +kernel)
  have hholds (n : Nat) (hn : n < 2) (polls : Nat) (m : Machine) (hm : m.computer.cycles = n) :
      (Guard.ofBudget 0 (budget + 2)).holds polls m = true := by
    simp [Guard.ofBudget, hm]
    omega
  exact .stepped ⟨rfl, by decide +kernel⟩ (hholds 0 (by decide) _ _ (by decide +kernel)) hload
    (.stepped ⟨by decide +kernel, by decide +kernel⟩ (hholds 1 (by decide) _ _ (by decide +kernel)) hprint h)

theorem mayGoOn_printedLetter : printedLetter.MayGoOn := ⟨by decide +kernel, by decide +kernel⟩

/-- With a budget of two cycles the run ends in front of the stray word. -/
theorem run_readyLetter_two :
    (readyLetter.run 2).1.outputText = "A" ∧ (readyLetter.run 2).2 = .ok .budgetExhausted := by
  have hrun : readyLetter.run 2 = _ :=
    congrArg (finishRun 2) (course_printedLetter (.impatient mayGoOn_printedLetter)).run_eq
  rw [hrun]
  exact ⟨by decide +kernel, rfl⟩

/-- With a larger budget the run ends at the stray word. -/
theorem run_readyLetter :
    (readyLetter.run 100000).1.outputText = "A" ∧ (readyLetter.run 100000).2 = .error ⟨0x7041, 2⟩ := by
  have hfault : printedLetter.pass.step = (printedLetter.pass.afterPulses 4, .error ⟨0x7041, 2⟩) :=
    step_eq_afterPulses (k := 3) (by decide +kernel)
  have hrun : readyLetter.run 100000 = _ := congrArg (finishRun 100000)
    (course_printedLetter (.failed mayGoOn_printedLetter (by decide +kernel) hfault)).run_eq
  rw [hrun]
  exact ⟨by decide +kernel, rfl⟩

end Machine

/-- With a budget of two cycles the letter is in standard output. -/
theorem run_output_strayLetter :
    let options : RunRequest := { RunRequest.default with maxSteps := some 2 }
    let session := (Invocation.run "p.asm" options).session ⟨[], false⟩ (.ok strayLetter)
    Path.extension? "p.asm" = some "asm" ∧ assemble strayLetter = .ok strayLetterImage ∧
      (∃ train, Machine.readyLetter.CallTrain (.run 2) train ∧
        String.ofList ((Machine.printedBy train).map Byte.char) = "A") ∧
      ∃ lead trail, (lead = "" ∨ lead = "\n") ∧ (trail = "" ∨ trail = "\n") ∧
        session.console.text .output =
          "  Assembling target p.asm\n     Running from 0x000\n" ++ (lead ++ "A" ++ trail) := by
  intro options session
  obtain ⟨⟨train, htrain⟩, houtput⟩ :=
    @run_output ⟨[], false⟩ options _ _ _ extension?_sourceFile assemble_strayLetter
  have hprinted : String.ofList ((Machine.printedBy train).map Byte.char) = "A" := by
    rw [← Session.outputText_of_clocked htrain.clocked]
    exact Machine.run_readyLetter_two.1
  obtain ⟨lead, trail, hlead, htrail, hwritten⟩ :=
    (houtput train htrain).1 .budgetExhausted Machine.run_readyLetter_two.2
  refine ⟨extension?_sourceFile, assemble_strayLetter, ⟨train, htrain, hprinted⟩, lead, trail, hlead,
    htrail, ?_⟩
  rw [hprinted] at hwritten
  exact hwritten.trans String.append_empty

/-- With a larger budget the run goes on to the stray word, and the letter is not in standard output. -/
theorem output_withheld_at_fault :
    let session := (Invocation.run "p.asm" .default).session ⟨[], false⟩ (.ok strayLetter)
    assemble strayLetter = .ok strayLetterImage ∧
      (∃ train, Machine.readyLetter.CallTrain (.run 100000) train ∧
        String.ofList ((Machine.printedBy train).map Byte.char) = "A") ∧
      session.console.text .output = "  Assembling target p.asm\n     Running from 0x000\n" := by
  intro session
  obtain ⟨train, htrain⟩ := Machine.readyLetter.exists_callTrain (.run 100000)
  have hassembled := Session.assembled_eq_ok extension?_sourceFile assemble_strayLetter
  have hwritten := (Session.text_run (.initial false) (Environment.settings ⟨[], false⟩) .default
    hassembled).1 _ Machine.run_readyLetter.2
  refine ⟨assemble_strayLetter, ⟨train, htrain, ?_⟩, hwritten⟩
  rw [← Session.outputText_of_clocked htrain.clocked]
  exact Machine.run_readyLetter.1

end BasicComputer
