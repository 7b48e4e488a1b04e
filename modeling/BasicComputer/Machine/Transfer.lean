import BasicComputer.Machine.Computer

/-!
# Register transfers

What one clock pulse can do to the registers, as the control unit names it. A transfer that ends its
cycle clears SC.
-/

namespace BasicComputer

inductive Transfer
  -- every instruction cycle
  | arFromPc
  | fetch
  | decode
  | arFromMemory
  | idle
  -- memory-reference instructions
  | drFromMemory
  | acAndDr
  | acAddDr
  | acFromDr
  | memoryFromAc
  | pcFromAr
  | memoryFromPc
  | incrementDr
  | memoryFromDr
  | memoryFromDrSkip
  -- register-reference instructions
  | clearAc
  | clearE
  | complementAc
  | complementE
  | rotateRight
  | rotateLeft
  | incrementAc
  | halt
  -- skips of either kind
  | skip
  | noSkip
  -- input-output instructions
  | acFromInpr
  | outrFromAc
  | enableInterrupt
  | disableInterrupt
  -- interrupt cycles
  | trFromPc
  | memoryFromTr
  | enterService
  deriving DecidableEq, Repr

namespace Transfer

/-- In register-transfer notation. -/
def text : Transfer → String
  | arFromPc => "AR ← PC"
  | fetch => "IR ← M[AR], PC ← PC + 1"
  | decode => "D0..D7 ← decode IR(12-14), AR ← IR(0-11), I ← IR(15)"
  | arFromMemory => "AR ← M[AR]"
  | idle => "nothing (direct address)"
  | drFromMemory => "DR ← M[AR]"
  | acAndDr => "AC ← AC ∧ DR, SC ← 0"
  | acAddDr => "AC ← AC + DR, E ← Cout, SC ← 0"
  | acFromDr => "AC ← DR, SC ← 0"
  | memoryFromAc => "M[AR] ← AC, SC ← 0"
  | pcFromAr => "PC ← AR, SC ← 0"
  | memoryFromPc => "M[AR] ← PC, AR ← AR + 1"
  | incrementDr => "DR ← DR + 1"
  | memoryFromDr => "M[AR] ← DR, SC ← 0"
  | memoryFromDrSkip => "M[AR] ← DR, DR = 0 so PC ← PC + 1, SC ← 0"
  | clearAc => "AC ← 0, SC ← 0"
  | clearE => "E ← 0, SC ← 0"
  | complementAc => "AC ← AC', SC ← 0"
  | complementE => "E ← E', SC ← 0"
  | rotateRight => "AC ← shr AC, AC(15) ← E, E ← AC(0), SC ← 0"
  | rotateLeft => "AC ← shl AC, AC(0) ← E, E ← AC(15), SC ← 0"
  | incrementAc => "AC ← AC + 1, SC ← 0"
  | halt => "S ← 1, SC ← 0"
  | skip => "PC ← PC + 1, SC ← 0"
  | noSkip => "no skip, SC ← 0"
  | acFromInpr => "AC(0-7) ← INPR, FGI ← 0, SC ← 0"
  | outrFromAc => "OUTR ← AC(0-7), FGO ← 0, SC ← 0"
  | enableInterrupt => "IEN ← 1, SC ← 0"
  | disableInterrupt => "IEN ← 0, SC ← 0"
  | trFromPc => "AR ← 0, TR ← PC"
  | memoryFromTr => "M[AR] ← TR, PC ← 0"
  | enterService => "PC ← PC + 1, IEN ← 0, R ← 0, SC ← 0"

/-- Whether the transfer clears SC. -/
def endsCycle : Transfer → Bool
  | arFromPc | fetch | decode | arFromMemory | idle | drFromMemory | memoryFromPc | incrementDr
  | trFromPc | memoryFromTr => false
  | _ => true

/-- The effect on everything but SC. -/
def apply (t : Transfer) (c : Computer) : Computer :=
  match t with
  | arFromPc => { c with ar := c.pc, origin := c.pc }
  | fetch => { c with ir := c.memory.read c.ar, pc := c.pc + 1 }
  | decode => { c with opcode := c.ir.opcode, i := c.ir.indirect, ar := c.ir.address }
  | arFromMemory => { c with ar := (c.memory.read c.ar).address }
  | idle => c
  | drFromMemory => { c with dr := c.memory.read c.ar }
  | acAndDr => { c with ac := c.ac &&& c.dr }
  | acAddDr => { c with ac := c.ac + c.dr, e := c.ac.uaddOverflow c.dr }
  | acFromDr => { c with ac := c.dr }
  | memoryFromAc => { c with memory := c.memory.write c.ar c.ac }
  | pcFromAr => { c with pc := c.ar }
  | memoryFromPc => { c with memory := c.memory.write c.ar c.pc.word, ar := c.ar + 1 }
  | incrementDr => { c with dr := c.dr + 1 }
  | memoryFromDr => { c with memory := c.memory.write c.ar c.dr }
  | memoryFromDrSkip => { c with memory := c.memory.write c.ar c.dr, pc := c.pc + 1 }
  | clearAc => { c with ac := 0 }
  | clearE => { c with e := false }
  | complementAc => { c with ac := ~~~c.ac }
  | complementE => { c with e := !c.e }
  | rotateRight => { c with ac := BitVec.cons c.e (c.ac.extractLsb' 1 15), e := c.ac.getLsbD 0 }
  | rotateLeft => { c with ac := BitVec.concat (c.ac.setWidth 15) c.e, e := c.ac.msb }
  | incrementAc => { c with ac := c.ac + 1 }
  | halt => { c with s := true }
  | skip => { c with pc := c.pc + 1 }
  | noSkip => c
  | acFromInpr => { c with ac := c.ac.extractLsb' 8 8 ++ c.inpr, fgi := false }
  | outrFromAc => { c with outr := c.ac.byte, fgo := false, output := c.output.push c.ac.byte }
  | enableInterrupt => { c with ien := true }
  | disableInterrupt => { c with ien := false }
  | trFromPc => { c with ar := 0, tr := c.pc.word }
  | memoryFromTr => { c with memory := c.memory.write c.ar c.tr, pc := 0 }
  | enterService => { c with pc := c.pc + 1, ien := false, r := false }

@[simp] theorem sc_apply (t : Transfer) (c : Computer) : (t.apply c).sc = c.sc := by
  cases t <;> rfl

end Transfer

end BasicComputer
