import BasicComputer.Word

/-!
# Breakpoints

A set of addresses, kept in ascending order. Numbers of cells count modulo 4096.
-/

namespace BasicComputer

structure Breakpoints where
  addresses : List Address
  deriving DecidableEq, Repr

namespace Breakpoints

def empty : Breakpoints := ⟨[]⟩

def size (b : Breakpoints) : Nat := b.addresses.length

def isEmpty (b : Breakpoints) : Bool := b.addresses.isEmpty

def contains (b : Breakpoints) (a : Word) : Bool := b.addresses.elem a.address

/-- Puts an address in its place among ascending ones, if it is not there already. -/
def insertSorted (a : Address) : List Address → List Address
  | [] => [a]
  | b :: rest =>
    if a < b then a :: b :: rest
    else if a = b then b :: rest
    else b :: insertSorted a rest

/-- Also tells whether the address is new. -/
def insert (b : Breakpoints) (a : Word) : Breakpoints × Bool :=
  (⟨insertSorted a.address b.addresses⟩, !b.contains a)

/-- Also tells whether the address was there. -/
def erase (b : Breakpoints) (a : Word) : Breakpoints × Bool :=
  (⟨b.addresses.erase a.address⟩, b.contains a)

def ofList (addresses : List Word) : Breakpoints :=
  addresses.foldl (fun b a => (b.insert a).1) empty

/-! ### Ascending order -/

theorem mem_insertSorted {a b : Address} {addresses : List Address} :
    b ∈ insertSorted a addresses ↔ b = a ∨ b ∈ addresses := by
  induction addresses with
  | nil => simp [insertSorted]
  | cons c rest ih =>
    unfold insertSorted
    split
    · simp
    · split
      next h => simp [h]
      next => simp [ih, or_left_comm]

theorem pairwise_insertSorted {a : Address} {addresses : List Address}
    (h : addresses.Pairwise (· < ·)) : (insertSorted a addresses).Pairwise (· < ·) := by
  induction addresses with
  | nil => simp [insertSorted]
  | cons c rest ih =>
    rw [List.pairwise_cons] at h
    unfold insertSorted
    split
    next hac =>
      refine List.pairwise_cons.2 ⟨fun b hb => ?_, List.pairwise_cons.2 h⟩
      rcases List.mem_cons.1 hb with rfl | hb
      · exact hac
      · exact BitVec.lt_trans hac (h.1 b hb)
    next hac =>
      split
      next => exact List.pairwise_cons.2 h
      next hne =>
        refine List.pairwise_cons.2 ⟨fun b hb => ?_, ih h.2⟩
        rcases mem_insertSorted.1 hb with rfl | hb
        · exact BitVec.lt_of_le_ne (BitVec.not_lt.1 hac) (Ne.symm hne)
        · exact h.1 b hb

end Breakpoints

end BasicComputer
