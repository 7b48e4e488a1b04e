import BasicComputer.Proofs.Text.Case
import BasicComputer.Symbols
import Mathlib.Data.Finset.Card

/-! # A table of symbols is what was defined first

A table is told labels and asked for them, in any order and in any spelling. What it answers depends on the
definitions so far alone: under each label, the first of them counts. -/

namespace BasicComputer

namespace SymbolTable

/-- A label that is to be bound to an address. -/
structure Definition where
  label : String
  address : Word
  span : Span

inductive Request
  | insert (d : Definition)
  | get (label : String)
  | address (label : String)
  | iter
  | size

inductive Answer
  /-- The earlier binding of a label that had one. -/
  | inserted (earlier : Option Binding)
  | found (binding : Option Binding)
  | located (address : Option Address)
  | listed (bindings : List (String × Binding))
  | counted (n : Nat)
  deriving DecidableEq, Repr

/-- Answers a request, with the table that is left. -/
def handle (t : SymbolTable) : Request → Answer × SymbolTable
  | .insert d =>
    match t.insert d.label d.address d.span with
    | .ok t' => (.inserted none, t')
    | .error earlier => (.inserted (some earlier), t)
  | .get label => (.found (t.get? label), t)
  | .address label => (.located (t.address? label), t)
  | .iter => (.listed t.bindings, t)
  | .size => (.counted t.size, t)

/-- The table that is left when a new one has handled the requests. -/
def after (requests : List Request) : SymbolTable :=
  requests.foldl (fun t request => (t.handle request).2) .empty

/-! ## What was defined -/

namespace Definition

/-- The label as it is listed. -/
def key (d : Definition) : String := upperCase d.label.toList

def binding (d : Definition) : Binding := ⟨BitVec.ofNat 12 (d.address.toNat % 4096), d.span⟩

end Definition

/-- The first binding of a label, which may have been spelled in another case. -/
def first? (past : List Definition) (label : String) : Option Binding :=
  (past.find? fun d => EqualUpToCase d.label.toList label.toList).map (·.binding)

/-- The labels in upper case, each once and in the order of their first definitions, with the first binding
of each. -/
def listing (past : List Definition) : List (String × Binding) :=
  (past.map (·.key)).eraseDups.filterMap fun key => (first? past key).map (key, ·)

namespace Request

/-- The definitions among some requests. -/
def definitions (requests : List Request) : List Definition :=
  requests.filterMap fun
    | .insert d => some d
    | _ => none

/-- What a table answers that was told the definitions. -/
def expected (past : List Definition) : Request → Answer
  | .insert d => .inserted (first? past d.label)
  | .get label => .found (first? past label)
  | .address label => .located ((first? past label).map (·.address))
  | .iter => .listed (listing past)
  | .size => .counted (past.map (·.key)).toFinset.card

/-- What a request adds to a table that was told the definitions: a binding, if the label has none. -/
def added (past : List Definition) : Request → List (String × Binding)
  | .insert d => if first? past d.label = none then [(d.key, d.binding)] else []
  | _ => []

end Request

/-! ## The first definition of each label -/

theorem Definition.upperCase_key (d : Definition) : upperCase d.key.toList = d.key :=
  upperCase_upperCase d.label.toList

/-- Labels that are equal up to case have the same key. -/
theorem first?_eq (past : List Definition) (label : String) :
    first? past label = (past.find? (·.key == upperCase label.toList)).map (·.binding) := by
  have hkey : (fun d : Definition => decide (EqualUpToCase d.label.toList label.toList)) =
      (·.key == upperCase label.toList) := by
    funext d
    rw [beq_eq_decide]
    exact decide_eq_decide.mpr upperCase_eq_iff.symm
  rw [first?, hkey]

theorem first?_key (past : List Definition) (d : Definition) : first? past d.key = first? past d.label := by
  rw [first?_eq, first?_eq, d.upperCase_key]
  rfl

theorem first?_eq_none_iff {past : List Definition} {label : String} :
    first? past label = none ↔ upperCase label.toList ∉ past.map (·.key) := by
  simp [first?_eq, List.find?_eq_none]

theorem first?_concat (past : List Definition) (d : Definition) (label : String) :
    first? (past ++ [d]) label =
      (first? past label).or (if d.key = upperCase label.toList then some d.binding else none) := by
  rw [first?_eq, first?_eq, List.find?_append, Option.map_or]
  by_cases h : d.key = upperCase label.toList <;> simp [h]

theorem eraseDups_concat (keys : List String) (key : String) :
    (keys ++ [key]).eraseDups = keys.eraseDups ++ if key ∈ keys then [] else [key] := by
  rw [List.eraseDups_append]
  by_cases h : key ∈ keys <;> simp [List.removeAll, h, List.eraseDups_cons]

/-- A definition adds its label unless there is an earlier one. -/
theorem listing_concat (past : List Definition) (d : Definition) :
    listing (past ++ [d]) =
      listing past ++ if first? past d.label = none then [(d.key, d.binding)] else [] := by
  have hold : (past.map (·.key)).eraseDups.filterMap
      (fun key => (first? (past ++ [d]) key).map (key, ·)) = listing past := by
    refine List.filterMap_congr fun key hkey => ?_
    obtain ⟨earlier, hearlier, rfl⟩ := List.mem_map.mp (List.mem_eraseDups.mp hkey)
    have hsome : first? past earlier.key ≠ none := by
      rw [ne_eq, first?_eq_none_iff, not_not, earlier.upperCase_key]
      exact List.mem_map.mpr ⟨earlier, hearlier, rfl⟩
    obtain ⟨binding, hbinding⟩ := Option.ne_none_iff_exists'.mp hsome
    rw [first?_concat, hbinding, Option.some_or]
  rw [listing, List.map_append, List.map_singleton, eraseDups_concat, List.filterMap_append, hold]
  by_cases h : d.key ∈ past.map (·.key)
  · have hsome : ¬first? past d.label = none := first?_eq_none_iff.not.mpr (not_not.mpr h)
    rw [if_pos h, if_neg hsome, List.filterMap_nil]
  · have hnone : first? past d.label = none := first?_eq_none_iff.mpr h
    have hnew : first? (past ++ [d]) d.key = some d.binding := by
      rw [first?_key, first?_concat, hnone, Option.none_or]
      exact if_pos rfl
    rw [if_neg h, if_pos hnone]
    simp [hnew]

theorem listing_append_definitions (past : List Definition) (request : Request) :
    listing (past ++ Request.definitions [request]) = listing past ++ request.added past := by
  cases request with
  | insert d => exact listing_concat past d
  | get | address | iter | size => simp [Request.definitions, Request.added]

theorem lookup_listing (past : List Definition) (label : String) :
    (listing past).lookup (upperCase label.toList) = first? past label := by
  induction past using List.reverseRecOn with
  | nil => rfl
  | append_singleton past d ih =>
      rw [listing_concat, List.lookup_append, ih, first?_concat]
      by_cases hkey : d.key = upperCase label.toList
      · have hfirst : first? past d.label = first? past label := by
          rw [first?_eq, first?_eq, ← hkey]
          rfl
        rw [hfirst]
        cases first? past label with
        | none => simp [hkey]
        | some binding => simp
      · have hne : (upperCase label.toList == d.key) = false := beq_false_of_ne (Ne.symm hkey)
        rw [if_neg hkey]
        split <;> simp [List.lookup_cons, hne]

theorem length_listing (past : List Definition) :
    (listing past).length = (past.map (·.key)).toFinset.card := by
  induction past using List.reverseRecOn with
  | nil => rfl
  | append_singleton past d ih =>
      have hset : ((past ++ [d]).map (·.key)).toFinset = Insert.insert d.key (past.map (·.key)).toFinset := by
        rw [List.map_append, List.toFinset_append, List.map_singleton]
        simp
      rw [listing_concat, List.length_append, ih, hset]
      by_cases h : d.key ∈ past.map (·.key)
      · rw [if_neg (by rwa [first?_eq_none_iff, not_not]),
          Finset.card_insert_of_mem (List.mem_toFinset.mpr h)]
        rfl
      · rw [if_pos (first?_eq_none_iff.mpr h), Finset.card_insert_of_notMem (by rwa [List.mem_toFinset])]
        rfl

/-! ## What a table holds -/

/-- The table holds the first definition of each label. -/
def Holds (past : List Definition) (t : SymbolTable) : Prop := t.bindings = listing past

namespace Holds

variable {past : List Definition} {t : SymbolTable}

theorem get? (h : Holds past t) (label : String) : t.get? label = first? past label := by
  rw [SymbolTable.get?, h, lookup_listing]

theorem insert (h : Holds past t) (d : Definition) :
    t.insert d.label d.address d.span =
      match first? past d.label with
      | some binding => .error binding
      | none => .ok ⟨t.bindings ++ [(d.key, d.binding)]⟩ := by
  have hbinding : (⟨d.address.address, d.span⟩ : Binding) = d.binding := by
    rw [Definition.binding, ← Word.toNat_address, BitVec.ofNat_toNat, BitVec.setWidth_eq]
  rw [SymbolTable.insert, h.get?, hbinding]
  rfl

/-- A request is answered out of the definitions so far. -/
theorem answer (h : Holds past t) (request : Request) :
    (t.handle request).1 = request.expected past := by
  cases request with
  | insert d =>
      rw [SymbolTable.handle, h.insert, Request.expected]
      cases first? past d.label <;> rfl
  | get label => exact congrArg Answer.found (h.get? label)
  | address label => exact congrArg (fun binding => Answer.located (binding.map (·.address))) (h.get? label)
  | iter => exact congrArg Answer.listed h
  | size => exact congrArg Answer.counted ((congrArg List.length h).trans (length_listing past))

/-- Only a definition adds to the bindings, and what is there already stays as it is. -/
theorem bindings_handle (h : Holds past t) (request : Request) :
    (t.handle request).2.bindings = t.bindings ++ request.added past := by
  cases request with
  | insert d =>
      rw [SymbolTable.handle, h.insert, Request.added]
      cases first? past d.label with
      | none => rfl
      | some binding => exact (List.append_nil _).symm
  | get | address | iter | size => exact (List.append_nil _).symm

theorem handle (h : Holds past t) (request : Request) :
    Holds (past ++ Request.definitions [request]) (t.handle request).2 := by
  rw [Holds, h.bindings_handle, listing_append_definitions, h]

end Holds

theorem after_concat (requests : List Request) (request : Request) :
    after (requests ++ [request]) = ((after requests).handle request).2 := by
  rw [after, List.foldl_append]
  rfl

theorem holds_after (requests : List Request) : Holds (Request.definitions requests) (after requests) := by
  induction requests using List.reverseRecOn with
  | nil => rfl
  | append_singleton requests request ih =>
      have hdefinitions : Request.definitions (requests ++ [request]) =
          Request.definitions requests ++ Request.definitions [request] := List.filterMap_append
      rw [hdefinitions, after_concat]
      exact ih.handle request

/-- After any requests to a new table, the next is answered out of the definitions so far, and adds a binding if
it is the first definition of its label, and nothing else. Labels are listed in upper case, and are the same
label exactly if they are equal up to case. -/
theorem handle_after (requests : List Request) (request : Request) :
    ((after requests).handle request).1 = request.expected (Request.definitions requests) ∧
      ((after requests).handle request).2.bindings =
        (after requests).bindings ++ request.added (Request.definitions requests) ∧
      ∀ d d' : Definition, IsUpperCase d.key.toList d.label.toList ∧
        (d.key = d'.key ↔ EqualUpToCase d.label.toList d'.label.toList) := by
  refine ⟨(holds_after requests).answer request, (holds_after requests).bindings_handle request, ?_⟩
  intro d d'
  exact ⟨isUpperCase_iff.mpr rfl, upperCase_eq_iff⟩

example : (after [.insert ⟨"Lop", 0x1010, ⟨0, 3⟩⟩, .insert ⟨"A", 5, ⟨8, 9⟩⟩, .insert ⟨"lOP", 7, ⟨12, 15⟩⟩]).bindings =
    [("LOP", ⟨0x010, ⟨0, 3⟩⟩), ("A", ⟨0x005, ⟨8, 9⟩⟩)] := by decide

end SymbolTable

end BasicComputer
