/-!
# Journals

A journal keeps entries in the order in which they were made. Records are entries as they are shown.
-/

namespace BasicComputer

structure Journal (α : Type) where
  entries : Array α
  deriving DecidableEq, Repr

namespace Journal

variable {α : Type}

def empty : Journal α := ⟨#[]⟩

def push (j : Journal α) (entry : α) : Journal α := ⟨j.entries.push entry⟩

def append (j : Journal α) (entries : List α) : Journal α := entries.foldl push j

/-- Hands over all entries and begins anew. -/
def take (j : Journal α) : List α × Journal α := (j.entries.toList, empty)

def size (j : Journal α) : Nat := j.entries.size

def isEmpty (j : Journal α) : Bool := j.entries.isEmpty

def toList (j : Journal α) : List α := j.entries.toList

@[simp] theorem toList_empty : (empty : Journal α).toList = [] := rfl

@[simp] theorem toList_push (j : Journal α) (entry : α) :
    (j.push entry).toList = j.toList ++ [entry] := by
  simp [push, toList]

@[simp] theorem toList_append (j : Journal α) (entries : List α) :
    (j.append entries).toList = j.toList ++ entries := by
  induction entries generalizing j with
  | nil => simp [append]
  | cons entry rest ih =>
    have h := ih (j.push entry)
    simpa [append] using h

end Journal

/-- What is shown of an entry. -/
inductive Record
  /-- A transfer between registers. -/
  | step (text : String)
  /-- The phase that the following transfers belong to, and its time. -/
  | context (title : String) (time : Nat)
  | info (text : String)
  | warning (text : String)
  | error (text : String)
  deriving DecidableEq, Repr

end BasicComputer
