import BasicComputer.Word

/-!
# Memory

4096 cells of one word each, one for every address.
-/

namespace BasicComputer

structure Memory where
  cells : Vector Word 4096
  deriving DecidableEq, Repr

namespace Memory

/-- All cells hold 0. -/
def blank : Memory := ⟨Vector.replicate _ 0⟩

def read (m : Memory) (a : Address) : Word := m.cells.get a.toFin

def write (m : Memory) (a : Address) (w : Word) : Memory := ⟨m.cells.set a.toNat w a.isLt⟩

theorem read_eq_getElem (m : Memory) (a : Address) :
    m.read a = getElem m.cells a.toNat a.isLt := rfl

@[simp] theorem read_blank (a : Address) : blank.read a = 0 := by
  simp [read_eq_getElem, blank]

theorem read_write (m : Memory) (a b : Address) (w : Word) :
    (m.write a w).read b = if a = b then w else m.read b := by
  simp [read_eq_getElem, write, Vector.getElem_set, BitVec.toNat_inj]

@[simp] theorem read_write_self (m : Memory) (a : Address) (w : Word) :
    (m.write a w).read a = w := by
  simp [read_write]

theorem read_write_of_ne (m : Memory) {a b : Address} (h : a ≠ b) (w : Word) :
    (m.write a w).read b = m.read b := by
  simp [read_write, h]

/-- Memories that read alike everywhere are equal. -/
theorem ext_read {m n : Memory} (h : ∀ a, m.read a = n.read a) : m = n := by
  cases m with
  | mk cells =>
    cases n with
    | mk cells' => exact congrArg Memory.mk (Vector.ext fun i hi => h (BitVec.ofFin ⟨i, hi⟩))

end Memory

end BasicComputer
