import BasicComputer.Word
import BasicComputer.Span
import BasicComputer.Text.Case

/-!
# Symbols

Labels are bound to addresses once, in order of definition, and found in any spelling of their letters'
case.
-/

namespace BasicComputer

/-- The address of a label and the span of its definition. -/
structure Binding where
  address : Address
  span : Span
  deriving DecidableEq, Repr

/-- Bindings under upper-case labels, in order of definition. -/
structure SymbolTable where
  bindings : List (String × Binding)
  deriving DecidableEq, Repr

namespace SymbolTable

def empty : SymbolTable := ⟨[]⟩

def size (t : SymbolTable) : Nat := t.bindings.length

def isEmpty (t : SymbolTable) : Bool := t.bindings.isEmpty

def get? (t : SymbolTable) (label : String) : Option Binding :=
  t.bindings.lookup (upperCase label.toList)

def address? (t : SymbolTable) (label : String) : Option Address :=
  (t.get? label).map (·.address)

/-- Binds a label to the address modulo 4096, or returns the binding that it has already. -/
def insert (t : SymbolTable) (label : String) (address : Word) (span : Span) :
    Except Binding SymbolTable :=
  match t.get? label with
  | some binding => .error binding
  | none => .ok ⟨t.bindings ++ [(upperCase label.toList, ⟨address.address, span⟩)]⟩

end SymbolTable

end BasicComputer
