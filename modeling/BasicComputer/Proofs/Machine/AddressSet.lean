import Mathlib.Data.Finset.Card
import Mathlib.Data.List.Sort
import BasicComputer.Machine.Breakpoints
import BasicComputer.Machine.BreakpointVector

/-! # Breakpoints are a set of addresses

Whatever is inserted and erased, the vector of breakpoints stays in ascending order, so looking an address up by
halving finds it. What the vector holds, and what it answers, is told by the set of addresses that the same
requests make. The list of breakpoints that machines have holds and answers the same. -/

namespace BasicComputer

@[simp] theorem Word.toNat_cellNumber (w : Word) : w.cellNumber.toNat = w.toNat % 4096 := by
  rw [Word.cellNumber, BitVec.toNat_and]
  exact Nat.and_two_pow_sub_one_eq_mod w.toNat 12

namespace BreakpointVector

/-! ## Looking up -/

/-- Each word is less than the next. -/
def Ascending (words : Array Word) : Prop := words.toList.Pairwise (· < ·)

/-- If the word is in the vector at all, it is at one of the places from `start` up to `stop`. -/
structure Encloses (words : Array Word) (w : Word) (start stop : Nat) : Prop where
  lt_of_lt : ∀ j, ∀ h : j < words.size, j < start → words[j] < w
  lt_of_le : ∀ j, ∀ h : j < words.size, stop ≤ j → w < words[j]

/-- The slot is where the word is, or where it keeps the order. -/
def Fits (words : Array Word) (w : Word) : Slot words.size → Prop
  | .taken ⟨i, hi⟩ => words[i] = w
  | .free i => Encloses words w i i

section

variable {words : Array Word} {w : Word}

theorem Ascending.getElem_lt (h : Ascending words) {i j : Nat} (hij : i < j) (hj : j < words.size) :
    words[i] < words[j] :=
  List.pairwise_iff_getElem.mp h i j (by simp; omega) hj hij

theorem Ascending.encloses_narrow (h : Ascending words) {start length : Nat} (hlength : 0 < length)
    (hstop : start + length ≤ words.size) (he : Encloses words w start (start + length)) :
    Encloses words w (narrow words w start length hlength hstop)
      (narrow words w start length hlength hstop + 1) := by
  fun_induction narrow words w start length hlength hstop with
  | case1 start length hlength hstop hlong half hlt ih =>
      refine ih ⟨he.lt_of_lt, fun j hj hle => ?_⟩
      rcases Nat.lt_or_eq_of_le (show start + half ≤ j by omega) with hbehind | rfl
      · exact BitVec.lt_trans hlt (h.getElem_lt hbehind hj)
      · exact hlt
  | case2 start length hlength hstop hlong half hge ih =>
      refine ih ⟨fun j hj hfront => ?_, fun j hj hle => he.lt_of_le j hj (by omega)⟩
      have hless := h.getElem_lt hfront (by omega)
      bv_omega
  | case3 start length hlength hstop hlong =>
      obtain rfl : length = 1 := by omega
      exact he

theorem Encloses.fits_slotAt {i : Fin words.size} (h : Encloses words w i (i + 1)) :
    Fits words w (slotAt words w i) := by
  unfold slotAt
  split
  next heq => exact heq
  next hne =>
    split
    next hlt =>
      refine ⟨fun j hj hfront => ?_, h.lt_of_le⟩
      rcases Nat.lt_or_eq_of_le (Nat.le_of_lt_succ hfront) with hfront | rfl
      · exact h.lt_of_lt j hj hfront
      · exact hlt
    next hge =>
      refine ⟨h.lt_of_lt, fun j hj hle => ?_⟩
      rcases Nat.lt_or_eq_of_le hle with hbehind | rfl
      · exact h.lt_of_le j hj hbehind
      · exact BitVec.lt_of_le_ne (BitVec.not_lt.mp hge) (Ne.symm hne)

theorem Ascending.fits_search (h : Ascending words) (w : Word) : Fits words w (search words w) := by
  unfold search
  split
  next hsize =>
    refine Encloses.fits_slotAt (h.encloses_narrow hsize _ ⟨?_, ?_⟩)
    · intro j hj hfront
      omega
    · intro j hj hle
      omega
  next hsize => exact ⟨fun j hj _ => by omega, fun j hj _ => by omega⟩

/-! ## Changing the vector -/

theorem Encloses.not_mem {i : Nat} (h : Encloses words w i i) : w ∉ words := by
  intro hw
  obtain ⟨j, hj, rfl⟩ := Array.mem_iff_getElem.mp hw
  rcases Nat.lt_or_ge j i with hlt | hge
  · exact BitVec.lt_irrefl _ (h.lt_of_lt j hj hlt)
  · exact BitVec.lt_irrefl _ (h.lt_of_le j hj hge)

theorem Ascending.insertIdx (h : Ascending words) {i : Nat} (hi : i ≤ words.size) (he : Encloses words w i i) :
    Ascending (words.insertIdx i w hi) := by
  rw [Ascending, List.pairwise_iff_getElem]
  intro j k hj hk hjk
  have hsize : k < words.size + 1 := by simpa only [Array.length_toList, Array.size_insertIdx] using hk
  simp only [Array.getElem_toList]
  rcases Nat.lt_trichotomy k i with hki | rfl | hki
  · rw [Array.getElem_insertIdx_of_lt hi (hjk.trans hki), Array.getElem_insertIdx_of_lt hi hki]
    exact h.getElem_lt hjk (by omega)
  · rw [Array.getElem_insertIdx_of_lt hi hjk, Array.getElem_insertIdx_self hi]
    exact he.lt_of_lt j (by omega) hjk
  · have hafter : w < words[k - 1] := he.lt_of_le (k - 1) (by omega) (by omega)
    rw [Array.getElem_insertIdx_of_gt (by omega) hki]
    rcases Nat.lt_trichotomy j i with hji | rfl | hji
    · rw [Array.getElem_insertIdx_of_lt hi hji]
      exact h.getElem_lt (by omega) (by omega)
    · rw [Array.getElem_insertIdx_self hi]
      exact hafter
    · rw [Array.getElem_insertIdx_of_gt (by omega) hji]
      exact h.getElem_lt (by omega) (by omega)

theorem Ascending.eraseIdx (h : Ascending words) {i : Nat} (hi : i < words.size) :
    Ascending (words.eraseIdx i hi) := by
  rw [Ascending, Array.toList_eraseIdx]
  exact List.Pairwise.eraseIdx i h

theorem Ascending.mem_eraseIdx (h : Ascending words) {i : Nat} (hi : i < words.size) :
    w ∈ words.eraseIdx i hi ↔ w ≠ words[i] ∧ w ∈ words := by
  have hne {j : Nat} (hj : j < words.size) (hij : j ≠ i) : words[j] ≠ words[i] := by
    intro heq
    rcases Nat.lt_or_gt_of_ne hij with hlt | hlt
    · exact BitVec.lt_irrefl _ (heq ▸ h.getElem_lt hlt hi)
    · exact BitVec.lt_irrefl _ (heq ▸ h.getElem_lt hlt hj)
  rw [Array.mem_eraseIdx_iff_getElem, Array.mem_iff_getElem]
  constructor
  · rintro ⟨j, hj, hij, rfl⟩
    exact ⟨hne hj hij, j, hj, rfl⟩
  · rintro ⟨hw, j, hj, rfl⟩
    exact ⟨j, hj, fun hij => hw (by simp only [hij]), rfl⟩

end

variable {b : BreakpointVector}

theorem contains_iff (h : Ascending b.words) (a : Word) : b.contains a = true ↔ a.cellNumber ∈ b.words := by
  have hfits := h.fits_search a.cellNumber
  unfold contains
  split
  next i hi =>
    rw [hi] at hfits
    exact iff_of_true rfl (hfits ▸ Array.getElem_mem i.isLt)
  next i hi =>
    rw [hi] at hfits
    exact iff_of_false Bool.false_ne_true hfits.not_mem

/-- An address is new unless it is there already. -/
theorem snd_insert (b : BreakpointVector) (a : Word) : (b.insert a).2 = !b.contains a := by
  unfold insert contains
  cases search b.words a.cellNumber <;> rfl

theorem snd_erase (b : BreakpointVector) (a : Word) : (b.erase a).2 = b.contains a := by
  unfold erase contains
  cases search b.words a.cellNumber <;> rfl

theorem ascending_insert (h : Ascending b.words) (a : Word) : Ascending (b.insert a).1.words := by
  have hfits := h.fits_search a.cellNumber
  unfold insert
  split
  next => exact h
  next i hi =>
    rw [hi] at hfits
    exact h.insertIdx (Nat.le_of_lt_succ i.isLt) hfits

theorem mem_insert (h : Ascending b.words) {a w : Word} :
    w ∈ (b.insert a).1.words ↔ w = a.cellNumber ∨ w ∈ b.words := by
  have hfits := h.fits_search a.cellNumber
  unfold insert
  split
  next i hi =>
    rw [hi] at hfits
    refine ⟨.inr, ?_⟩
    rintro (rfl | hw)
    · exact hfits ▸ Array.getElem_mem i.isLt
    · exact hw
  next i hi => exact Array.mem_insertIdx (h := Nat.le_of_lt_succ i.isLt)

theorem ascending_erase (h : Ascending b.words) (a : Word) : Ascending (b.erase a).1.words := by
  unfold erase
  split
  next => exact h.eraseIdx _
  next => exact h

theorem mem_erase (h : Ascending b.words) {a w : Word} :
    w ∈ (b.erase a).1.words ↔ w ≠ a.cellNumber ∧ w ∈ b.words := by
  have hfits := h.fits_search a.cellNumber
  unfold erase
  split
  next i hi =>
    rw [hi] at hfits
    rw [h.mem_eraseIdx]
    exact hfits ▸ Iff.rfl
  next i hi =>
    rw [hi] at hfits
    refine ⟨fun hw => ⟨?_, hw⟩, And.right⟩
    rintro rfl
    exact hfits.not_mem hw

end BreakpointVector

/-! ## Sets of addresses -/

namespace Breakpoints

/-- What is asked of breakpoints that changes them. -/
inductive Request
  | insert (a : Word)
  | erase (a : Word)
  | clear
  /-- Breakpoints at these addresses take the place of those that there are. -/
  | collect (addresses : List Word)
  deriving DecidableEq, Repr

namespace Request

/-- What the request does to a set of addresses. -/
def update (set : Finset Nat) : Request → Finset Nat
  | insert a => Insert.insert (a.toNat % 4096) set
  | erase a => set.erase (a.toNat % 4096)
  | clear => ∅
  | collect addresses => (addresses.map (·.toNat % 4096)).toFinset

/-- The set that the requests make, from the empty one. -/
def set (requests : List Request) : Finset Nat := requests.foldl update ∅

theorem foldl_insert (addresses : List Word) (set : Finset Nat) :
    addresses.foldl (fun set a => (insert a).update set) set =
      set ∪ (addresses.map (·.toNat % 4096)).toFinset := by
  induction addresses generalizing set with
  | nil => simp
  | cons a rest ih =>
      rw [List.foldl_cons, ih, List.map_cons, List.toFinset_cons, update, Finset.insert_union,
        Finset.union_insert]

theorem set_concat (requests : List Request) (request : Request) :
    set (requests ++ [request]) = request.update (set requests) := by
  rw [set, List.foldl_append]
  rfl

theorem le_of_mem_update {set : Finset Nat} (h : ∀ n ∈ set, n ≤ 0xFFF) (request : Request) :
    ∀ n ∈ request.update set, n ≤ 0xFFF := by
  intro n hn
  cases request with
  | insert a =>
      rcases Finset.mem_insert.mp hn with rfl | hn
      · omega
      · exact h n hn
  | erase a => exact h n (Finset.mem_of_mem_erase hn)
  | clear => simp [update] at hn
  | collect addresses =>
      obtain ⟨a, -, rfl⟩ := List.mem_map.mp (List.mem_toFinset.mp hn)
      omega

theorem le_of_mem_set (requests : List Request) : ∀ n ∈ set requests, n ≤ 0xFFF := by
  induction requests using List.reverseRecOn with
  | nil => simp [set]
  | append_singleton requests request ih =>
      rw [set_concat]
      exact le_of_mem_update ih request

end Request

end Breakpoints

open Breakpoints (Request)

/-- The numbers are those of the set, in ascending order and each once. -/
structure Lists (numbers : List Nat) (set : Finset Nat) : Prop where
  ascending : numbers.Pairwise (· < ·)
  mem_iff : ∀ n, n ∈ numbers ↔ n ∈ set

namespace Lists

variable {numbers numbers' : List Nat} {set set' : Finset Nat}

theorem numbers_eq_iff (h : Lists numbers set) (h' : Lists numbers' set') : numbers = numbers' ↔ set = set' := by
  constructor
  · rintro rfl
    ext n
    rw [← h.mem_iff, h'.mem_iff]
  · rintro rfl
    exact h.ascending.eq_of_mem_iff h'.ascending fun n => (h.mem_iff n).trans (h'.mem_iff n).symm

theorem length_eq (h : Lists numbers set) : numbers.length = set.card := by
  have hset : numbers.toFinset = set := by
    ext n
    rw [List.mem_toFinset, h.mem_iff]
  rw [← hset, List.toFinset_card_of_nodup (h.ascending.imp Nat.ne_of_lt)]

end Lists

/-- What can be done to a container of addresses, and the addresses that it holds, in its own order. -/
structure AddressContainer (α : Type) where
  empty : α
  insert : α → Word → α
  erase : α → Word → α
  numbers : α → List Nat

namespace AddressContainer

variable {α : Type} (c : AddressContainer α)

def ofList (addresses : List Word) : α := addresses.foldl c.insert c.empty

def perform (b : α) : Request → α
  | .insert a => c.insert b a
  | .erase a => c.erase b a
  | .clear => c.empty
  | .collect addresses => c.ofList addresses

/-- What is in the container after the requests, which find it empty. -/
def after (requests : List Request) : α := requests.foldl c.perform c.empty

/-- The container holds sets in ascending order. -/
structure Lawful : Prop where
  empty : Lists (c.numbers c.empty) ∅
  insert : ∀ b set a, Lists (c.numbers b) set → Lists (c.numbers (c.insert b a)) ((Request.insert a).update set)
  erase : ∀ b set a, Lists (c.numbers b) set → Lists (c.numbers (c.erase b a)) ((Request.erase a).update set)

namespace Lawful

variable {c}

theorem ofList (h : c.Lawful) (addresses : List Word) :
    Lists (c.numbers (c.ofList addresses)) ((Request.collect addresses).update ∅) := by
  have hfold (b : α) (set : Finset Nat) (hb : Lists (c.numbers b) set) :
      Lists (c.numbers (addresses.foldl c.insert b))
        (addresses.foldl (fun set a => (Request.insert a).update set) set) := by
    induction addresses generalizing b set with
    | nil => exact hb
    | cons a rest ih => exact ih _ _ (h.insert b set a hb)
  have hlist := hfold c.empty ∅ h.empty
  rwa [Request.foldl_insert, Finset.empty_union] at hlist

theorem perform (h : c.Lawful) {b : α} {set : Finset Nat} (hb : Lists (c.numbers b) set) (request : Request) :
    Lists (c.numbers (c.perform b request)) (request.update set) := by
  cases request with
  | insert a => exact h.insert b set a hb
  | erase a => exact h.erase b set a hb
  | clear => exact h.empty
  | collect addresses => exact h.ofList addresses

/-- After any requests the container holds the set that they make. -/
theorem after (h : c.Lawful) (requests : List Request) :
    Lists (c.numbers (c.after requests)) (Request.set requests) := by
  induction requests using List.reverseRecOn with
  | nil => exact h.empty
  | append_singleton requests request ih =>
      rw [Request.set_concat, AddressContainer.after, List.foldl_append]
      exact h.perform ih request

end Lawful

end AddressContainer

/-! ## What the vector holds -/

namespace BreakpointVector

/-- The addresses in the order in which they are held. -/
def numbers (b : BreakpointVector) : List Nat := b.words.toList.map BitVec.toNat

def container : AddressContainer BreakpointVector where
  empty := empty
  insert b a := (b.insert a).1
  erase b a := (b.erase a).1
  numbers := numbers

def after (requests : List Request) : BreakpointVector := container.after requests

variable {b b' : BreakpointVector} {set : Finset Nat} {n : Nat}

theorem mem_numbers : n ∈ b.numbers ↔ ∃ w ∈ b.words, w.toNat = n := by
  simp [numbers]

theorem ascending_numbers : b.numbers.Pairwise (· < ·) ↔ Ascending b.words :=
  List.pairwise_map

theorem ext_numbers (h : b.numbers = b'.numbers) : b = b' := by
  have hwords : b.words.toList = b'.words.toList :=
    List.map_injective_iff.mpr (fun _ _ => BitVec.eq_of_toNat_eq) h
  cases b
  cases b'
  exact congrArg mk (Array.toList_inj.mp hwords)

theorem mem_numbers_iff (a : Word) : a.toNat % 4096 ∈ b.numbers ↔ a.cellNumber ∈ b.words := by
  rw [mem_numbers]
  constructor
  · rintro ⟨w, hw, hn⟩
    rw [← Word.toNat_cellNumber, BitVec.toNat_inj] at hn
    exact hn ▸ hw
  · intro h
    exact ⟨_, h, a.toNat_cellNumber⟩

theorem mem_numbers_insert (h : Ascending b.words) (a : Word) :
    n ∈ (b.insert a).1.numbers ↔ n = a.toNat % 4096 ∨ n ∈ b.numbers := by
  rw [mem_numbers, mem_numbers]
  simp only [mem_insert h, or_and_right, exists_or, exists_eq_left, Word.toNat_cellNumber, eq_comm]

theorem mem_numbers_erase (h : Ascending b.words) (a : Word) :
    n ∈ (b.erase a).1.numbers ↔ n ≠ a.toNat % 4096 ∧ n ∈ b.numbers := by
  rw [mem_numbers, mem_numbers]
  constructor
  · rintro ⟨w, hw, rfl⟩
    obtain ⟨hne, hw⟩ := (mem_erase h).mp hw
    rw [← Word.toNat_cellNumber, ne_eq, BitVec.toNat_inj]
    exact ⟨hne, w, hw, rfl⟩
  · rintro ⟨hne, w, hw, rfl⟩
    rw [← Word.toNat_cellNumber, ne_eq, BitVec.toNat_inj] at hne
    exact ⟨w, (mem_erase h).mpr ⟨hne, hw⟩, rfl⟩

theorem lawful : container.Lawful where
  empty := ⟨.nil, by simp [container, numbers, empty]⟩
  insert b set a h := by
    have hb := ascending_numbers.mp h.ascending
    refine ⟨ascending_numbers.mpr (ascending_insert hb a), fun n => ?_⟩
    rw [Request.update, Finset.mem_insert, ← h.mem_iff]
    exact mem_numbers_insert hb a
  erase b set a h := by
    have hb := ascending_numbers.mp h.ascending
    refine ⟨ascending_numbers.mpr (ascending_erase hb a), fun n => ?_⟩
    rw [Request.update, Finset.mem_erase, ← h.mem_iff]
    exact mem_numbers_erase hb a

theorem contains_iff_mem (h : Lists b.numbers set) (a : Word) : b.contains a = true ↔ a.toNat % 4096 ∈ set := by
  rw [contains_iff (ascending_numbers.mp h.ascending), ← mem_numbers_iff, h.mem_iff]

theorem snd_insert_iff (h : Lists b.numbers set) (a : Word) :
    (b.insert a).2 = true ↔ (Request.insert a).update set ≠ set := by
  rw [snd_insert, Bool.not_eq_true', ← Bool.not_eq_true, contains_iff_mem h, Request.update,
    ne_eq, Finset.insert_eq_self]

theorem snd_erase_iff (h : Lists b.numbers set) (a : Word) :
    (b.erase a).2 = true ↔ (Request.erase a).update set ≠ set := by
  rw [snd_erase, contains_iff_mem h, Request.update, ne_eq, Finset.erase_eq_self, not_not]

theorem size_eq (h : Lists b.numbers set) : b.size = set.card := by
  rw [← h.length_eq, numbers, List.length_map, Array.length_toList, size]

theorem ofList_eq_iff (xs ys : List Word) :
    ofList xs = ofList ys ↔ ∀ n, n ∈ xs.map (·.toNat % 4096) ↔ n ∈ ys.map (·.toNat % 4096) := by
  have hx : Lists (ofList xs).numbers _ := lawful.ofList xs
  have hy : Lists (ofList ys).numbers _ := lawful.ofList ys
  have hnumbers : ofList xs = ofList ys ↔ (ofList xs).numbers = (ofList ys).numbers :=
    ⟨congrArg numbers, ext_numbers⟩
  rw [hnumbers, hx.numbers_eq_iff hy, Request.update, Request.update, Finset.ext_iff]
  simp only [List.mem_toFinset]

end BreakpointVector

/-! ## What the list holds -/

namespace Breakpoints

/-- The addresses in the order in which they are held. -/
def numbers (b : Breakpoints) : List Nat := b.addresses.map BitVec.toNat

def container : AddressContainer Breakpoints where
  empty := empty
  insert b a := (b.insert a).1
  erase b a := (b.erase a).1
  numbers := numbers

def after (requests : List Request) : Breakpoints := container.after requests

variable {b : Breakpoints} {set : Finset Nat} {n : Nat}

theorem mem_numbers : n ∈ b.numbers ↔ ∃ a ∈ b.addresses, a.toNat = n := List.mem_map

theorem ascending_numbers : b.numbers.Pairwise (· < ·) ↔ b.addresses.Pairwise (· < ·) := List.pairwise_map

theorem mem_numbers_iff (a : Word) : a.toNat % 4096 ∈ b.numbers ↔ a.address ∈ b.addresses := by
  rw [mem_numbers]
  constructor
  · rintro ⟨c, hc, hn⟩
    rw [← Word.toNat_address, BitVec.toNat_inj] at hn
    exact hn ▸ hc
  · intro h
    exact ⟨_, h, a.toNat_address⟩

theorem lawful : container.Lawful where
  empty := ⟨.nil, by simp [container, numbers, empty]⟩
  insert b set a h := by
    refine ⟨ascending_numbers.mpr (pairwise_insertSorted (ascending_numbers.mp h.ascending)), fun n => ?_⟩
    rw [Request.update, Finset.mem_insert, ← h.mem_iff]
    change n ∈ (b.insert a).1.numbers ↔ _ ∨ n ∈ b.numbers
    rw [mem_numbers, mem_numbers]
    simp only [insert, mem_insertSorted, or_and_right, exists_or, exists_eq_left, Word.toNat_address, eq_comm]
  erase b set a h := by
    have hb := ascending_numbers.mp h.ascending
    have hnodup : b.addresses.Nodup := hb.imp BitVec.ne_of_lt
    refine ⟨ascending_numbers.mpr (hb.sublist List.erase_sublist), fun n => ?_⟩
    rw [Request.update, Finset.mem_erase, ← h.mem_iff]
    change n ∈ (b.erase a).1.numbers ↔ _ ∧ n ∈ b.numbers
    rw [mem_numbers, mem_numbers]
    constructor
    · rintro ⟨c, hc, rfl⟩
      obtain ⟨hne, hc⟩ := hnodup.mem_erase_iff.mp hc
      rw [← Word.toNat_address, ne_eq, BitVec.toNat_inj]
      exact ⟨hne, c, hc, rfl⟩
    · rintro ⟨hne, c, hc, rfl⟩
      rw [← Word.toNat_address, ne_eq, BitVec.toNat_inj] at hne
      exact ⟨c, hnodup.mem_erase_iff.mpr ⟨hne, hc⟩, rfl⟩

theorem contains_iff_mem (h : Lists b.numbers set) (a : Word) : b.contains a = true ↔ a.toNat % 4096 ∈ set := by
  rw [contains, List.elem_iff, ← mem_numbers_iff, h.mem_iff]

theorem size_eq (h : Lists b.numbers set) : b.size = set.card := by
  rw [← h.length_eq, numbers, List.length_map, size]

/-- After any requests the vector holds the set that they make, in ascending order, and the next answer is about
that set. The list of breakpoints holds and answers the same. -/
theorem held_as_set (requests : List Request) :
    let v := BreakpointVector.after requests
    let b := after requests
    let set := Request.set requests
    (v.numbers.Pairwise (· < ·) ∧ (∀ n ∈ v.numbers, n ≤ 0xFFF) ∧ (∀ n, n ∈ v.numbers ↔ n ∈ set) ∧
        v.size = set.card ∧ (v.isEmpty = true ↔ set = ∅)) ∧
      (∀ a : Word,
        (v.contains a = true ↔ a.toNat % 4096 ∈ set) ∧
        ((v.insert a).2 = true ↔ (Request.insert a).update set ≠ set) ∧
        ((v.erase a).2 = true ↔ (Request.erase a).update set ≠ set) ∧
        (∀ n, n ∈ (v.insert a).1.numbers ↔ n = a.toNat % 4096 ∨ n ∈ v.numbers) ∧
        ∀ n, n ∈ (v.erase a).1.numbers ↔ n ≠ a.toNat % 4096 ∧ n ∈ v.numbers) ∧
      (∀ xs ys, BreakpointVector.ofList xs = BreakpointVector.ofList ys ↔
        ∀ n, n ∈ xs.map (·.toNat % 4096) ↔ n ∈ ys.map (·.toNat % 4096)) ∧
      b.numbers = v.numbers ∧ b.size = v.size ∧ b.isEmpty = v.isEmpty ∧
        ∀ a : Word, b.contains a = v.contains a ∧ (b.insert a).2 = (v.insert a).2 ∧
          (b.erase a).2 = (v.erase a).2 := by
  intro v b set
  have hv : Lists v.numbers set := BreakpointVector.lawful.after requests
  have hb : Lists b.numbers set := lawful.after requests
  have hwords := BreakpointVector.ascending_numbers.mp hv.ascending
  have hsize := BreakpointVector.size_eq hv
  have hlength : b.size = v.size := (size_eq hb).trans hsize.symm
  have hcontains (a : Word) : b.contains a = v.contains a := by
    rw [Bool.eq_iff_iff, contains_iff_mem hb, BreakpointVector.contains_iff_mem hv]
  refine ⟨⟨hv.ascending, ?_, hv.mem_iff, hsize, ?_⟩, fun a => ⟨?_, ?_, ?_, ?_, ?_⟩, BreakpointVector.ofList_eq_iff,
    (hb.numbers_eq_iff hv).mpr rfl, hlength, ?_, fun a => ⟨hcontains a, ?_, ?_⟩⟩
  · intro n hn
    exact Request.le_of_mem_set requests n ((hv.mem_iff n).mp hn)
  · rw [BreakpointVector.isEmpty, hsize, beq_iff_eq, Finset.card_eq_zero]
  · exact BreakpointVector.contains_iff_mem hv a
  · exact BreakpointVector.snd_insert_iff hv a
  · exact BreakpointVector.snd_erase_iff hv a
  · exact fun n => BreakpointVector.mem_numbers_insert hwords a
  · exact fun n => BreakpointVector.mem_numbers_erase hwords a
  · rw [isEmpty, BreakpointVector.isEmpty, ← hlength, size, Bool.eq_iff_iff]
    simp
  · rw [BreakpointVector.snd_insert, ← hcontains]
    rfl
  · rw [BreakpointVector.snd_erase, ← hcontains]
    rfl

example :
    (BreakpointVector.after [.collect [0x20, 0x1005, 0x10, 0x20], .erase 0x20, .insert 1]).numbers =
      [0x001, 0x005, 0x010] := by decide +kernel

end Breakpoints

end BasicComputer
