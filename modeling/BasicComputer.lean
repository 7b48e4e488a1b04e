import BasicComputer.Word
import BasicComputer.Text.Numeral
import BasicComputer.Text.Hex
import BasicComputer.Text.Blank
import BasicComputer.Text.Case
import BasicComputer.Text.Escape
import BasicComputer.Text.Column
import BasicComputer.Text.Path
import BasicComputer.Text.Similarity
import BasicComputer.Span
import BasicComputer.Instruction.Mnemonic
import BasicComputer.Instruction.Basic
import BasicComputer.Source.Error
import BasicComputer.Source.Token
import BasicComputer.Source.Scan
import BasicComputer.Source.Scanner
import BasicComputer.Source.Literal
import BasicComputer.Source.Line
import BasicComputer.Symbols
import BasicComputer.Assembly.Layout
import BasicComputer.Assembly.Image
import BasicComputer.Journal
import BasicComputer.Machine.Memory
import BasicComputer.Machine.Computer
import BasicComputer.Machine.Transfer
import BasicComputer.Machine.Control
import BasicComputer.Machine.Event
import BasicComputer.Machine.Pulse
import BasicComputer.Machine.Breakpoints
import BasicComputer.Machine.BreakpointVector
import BasicComputer.Machine.Basic
import BasicComputer.Machine.Step
import BasicComputer.Machine.Run
import BasicComputer.Console.Plain
import BasicComputer.Console.Visible
import BasicComputer.Console.Style
import BasicComputer.Console.Basic
import BasicComputer.Console.Panel
import BasicComputer.Settings
import BasicComputer.Command.Environment
import BasicComputer.Command.Refusal
import BasicComputer.Command.Directory
import BasicComputer.Command.Arguments
import BasicComputer.Command.Banner
import BasicComputer.Command.Session
import BasicComputer.Main
import BasicComputer.Proofs.Machine.Reachable
import BasicComputer.Proofs.Machine.Pulse
import BasicComputer.Proofs.Machine.Cycle
import BasicComputer.Proofs.Machine.Timing
import BasicComputer.Proofs.Machine.Architecture
import BasicComputer.Proofs.Machine.InstructionCycle
import BasicComputer.Proofs.Machine.Interrupt
import BasicComputer.Proofs.Except
import BasicComputer.Proofs.Source.Literals
import BasicComputer.Proofs.Source.Lines
import BasicComputer.Proofs.Source.Grammar
import BasicComputer.Proofs.Assembly.Program
import BasicComputer.Proofs.Assembly.Layout
import BasicComputer.Proofs.Assembly.Encoding
import BasicComputer.Proofs.Assembly.Correctness
import BasicComputer.Proofs.Machine.Granularity
import BasicComputer.Proofs.Machine.Course
import BasicComputer.Proofs.Machine.Breakpoints
import BasicComputer.Proofs.Machine.Resumption
import BasicComputer.Proofs.Machine.ServiceReturn
import BasicComputer.Proofs.Machine.Likeness
import BasicComputer.Proofs.Machine.Pausing
import BasicComputer.Proofs.Machine.Budget
import BasicComputer.Proofs.Machine.Train
import BasicComputer.Proofs.Machine.InputDevice
import BasicComputer.Proofs.Machine.Tracing
import BasicComputer.Proofs.Machine.Faults
import BasicComputer.Proofs.Assembly.Decoding
import BasicComputer.Proofs.Source.Places
import BasicComputer.Proofs.Assembly.Errors
import BasicComputer.Proofs.Assembly.FailFast
import BasicComputer.Proofs.Source.Runs
import BasicComputer.Proofs.Source.Printing
import BasicComputer.Proofs.Assembly.Listing
import BasicComputer.Proofs.Text.Case
import BasicComputer.Proofs.Source.Extent
import BasicComputer.Proofs.Source.Alike
import BasicComputer.Proofs.Assembly.Parallel
import BasicComputer.Proofs.Assembly.Diagnostics
import BasicComputer.Proofs.Assembly.Spacing
import BasicComputer.Proofs.Assembly.LetterCase
import BasicComputer.Proofs.Assembly.Relocation
import BasicComputer.Proofs.Machine.Loading
import BasicComputer.Proofs.Machine.Typing
import BasicComputer.Proofs.Assembly.Reading
import BasicComputer.Proofs.Programs.Execution
import BasicComputer.Proofs.Programs.Echo
import BasicComputer.Proofs.Programs.Multiplication
import BasicComputer.Proofs.Source.Cut
import BasicComputer.Proofs.Source.Boundary
import BasicComputer.Proofs.Source.Tiling
import BasicComputer.Proofs.Source.Language
import BasicComputer.Proofs.Source.Writing
import BasicComputer.Proofs.Symbols
import BasicComputer.Proofs.Machine.AddressSet
import BasicComputer.Proofs.Machine.OutputDevice
import BasicComputer.Proofs.Command.Addresses
import BasicComputer.Proofs.Console.Plain
import BasicComputer.Proofs.Console.Streams
import BasicComputer.Proofs.Command.Output
import BasicComputer.Proofs.Console.Pieces
import BasicComputer.Proofs.Console.LineStart
import BasicComputer.Proofs.Source.Notation
import BasicComputer.Proofs.Console.Minimal
import BasicComputer.Proofs.Console.Table
