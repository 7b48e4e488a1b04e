import BasicComputer.Proofs.Except
import BasicComputer.Span
import BasicComputer.Text.Case
import BasicComputer.Text.Numeral

/-! # Letters in upper case

Only the letters from `a` to `z` have another upper case, which is 32 code points in front. It is a letter of
the same size, and as a digit it counts for the same. So texts are the same in upper case exactly if they are
equal up to the case of these letters. -/

namespace BasicComputer

variable {c d : Char}

/-! ## Characters by their code points -/

theorem isDigit_iff : c.isDigit = true ↔ 48 ≤ c.toNat ∧ c.toNat ≤ 57 :=
  (Bool.and_eq_true_iff.trans (and_congr decide_eq_true_iff decide_eq_true_iff)).trans
    (and_congr UInt32.le_iff_toNat_le UInt32.le_iff_toNat_le)

theorem isLower_iff : c.isLower = true ↔ 97 ≤ c.toNat ∧ c.toNat ≤ 122 :=
  (Bool.and_eq_true_iff.trans (and_congr decide_eq_true_iff decide_eq_true_iff)).trans
    (and_congr UInt32.le_iff_toNat_le UInt32.le_iff_toNat_le)

theorem isUpper_iff : c.isUpper = true ↔ 65 ≤ c.toNat ∧ c.toNat ≤ 90 :=
  decide_eq_true_iff.trans (and_congr UInt32.le_iff_toNat_le UInt32.le_iff_toNat_le)

theorem isAlpha_iff :
    c.isAlpha = true ↔ (65 ≤ c.toNat ∧ c.toNat ≤ 90) ∨ (97 ≤ c.toNat ∧ c.toNat ≤ 122) :=
  Bool.or_eq_true_iff.trans (or_congr isUpper_iff isLower_iff)

theorem isAlphanum_iff :
    c.isAlphanum = true ↔
      ((65 ≤ c.toNat ∧ c.toNat ≤ 90) ∨ (97 ≤ c.toNat ∧ c.toNat ≤ 122)) ∨
        (48 ≤ c.toNat ∧ c.toNat ≤ 57) :=
  Bool.or_eq_true_iff.trans (or_congr isAlpha_iff isDigit_iff)

theorem toNat_toUpper (c : Char) :
    c.toUpper.toNat = if 97 ≤ c.toNat ∧ c.toNat ≤ 122 then c.toNat - 32 else c.toNat := by
  have hlow : 'a'.val ≤ c.val ↔ 97 ≤ c.toNat := UInt32.le_iff_toNat_le
  have hhigh : c.val ≤ 'z'.val ↔ c.toNat ≤ 122 := UInt32.le_iff_toNat_le
  by_cases h : 'a'.val ≤ c.val ∧ c.val ≤ 'z'.val
  · have hupper : c.toUpper = ⟨c.val + ('A'.val - 'a'.val), _⟩ := dif_pos h
    have hbounds : 97 ≤ c.toNat ∧ c.toNat ≤ 122 := ⟨hlow.mp h.1, hhigh.mp h.2⟩
    have hback : ('A'.val - 'a'.val).toNat = 2 ^ 32 - 32 := by decide
    have hsum : c.toUpper.toNat = (c.toNat + ('A'.val - 'a'.val).toNat) % 2 ^ 32 := by
      rw [hupper]
      exact UInt32.toNat_add c.val _
    rw [if_pos hbounds, hsum, hback]
    omega
  · have hsame : c.toUpper = c := dif_neg h
    rw [hlow, hhigh] at h
    rw [if_neg h, hsame]

theorem toUpper_eq_self (h : ¬c.isLower = true) : c.toUpper = c := by
  rw [← Char.toNat_inj, toNat_toUpper, if_neg (isLower_iff.not.mp h)]

theorem toUpper_toUpper (c : Char) : c.toUpper.toUpper = c.toUpper := by
  apply toUpper_eq_self
  rw [isLower_iff, toNat_toUpper]
  split <;> omega

theorem isAlpha_toUpper (c : Char) : c.toUpper.isAlpha = c.isAlpha := by
  rw [Bool.eq_iff_iff, isAlpha_iff, isAlpha_iff, toNat_toUpper]
  split <;> omega

theorem isDigit_toUpper (c : Char) : c.toUpper.isDigit = c.isDigit := by
  rw [Bool.eq_iff_iff, isDigit_iff, isDigit_iff, toNat_toUpper]
  split <;> omega

theorem isAlphanum_toUpper (c : Char) : c.toUpper.isAlphanum = c.isAlphanum := by
  rw [Bool.eq_iff_iff, isAlphanum_iff, isAlphanum_iff, toNat_toUpper]
  split <;> omega

/-- No letter becomes what is no letter. -/
theorem toUpper_eq_iff (hd : d.isAlpha = false) : c.toUpper = d ↔ c = d := by
  have hletter : ¬((65 ≤ d.toNat ∧ d.toNat ≤ 90) ∨ (97 ≤ d.toNat ∧ d.toNat ≤ 122)) :=
    isAlpha_iff.not.mp (Bool.eq_false_iff.mp hd)
  rw [← Char.toNat_inj, ← Char.toNat_inj, toNat_toUpper]
  split <;> omega

theorem toUpper_beq (hd : d.isAlpha = false) : (c.toUpper == d) = (c == d) := by
  rw [Bool.eq_iff_iff, beq_iff_eq, beq_iff_eq, toUpper_eq_iff hd]

theorem isAlpha_eq_false_of_isDigit (h : c.isDigit = true) : c.isAlpha = false := by
  rw [isDigit_iff] at h
  rw [Bool.eq_false_iff, ne_eq, isAlpha_iff]
  omega

theorem toNat_lt_of_isAlphanum (h : c.isAlphanum = true) : c.toNat < 128 := by
  rw [isAlphanum_iff] at h
  omega

theorem utf8Size_eq_one (h : c.toNat < 128) : c.utf8Size = 1 :=
  Char.utf8Size_eq_one_iff.mpr (UInt32.le_iff_toNat_le.mpr (Nat.lt_succ_iff.mp h))

theorem utf8Size_toUpper (c : Char) : c.toUpper.utf8Size = c.utf8Size := by
  by_cases h : c.isLower = true
  · have hbounds := isLower_iff.mp h
    have hupper : c.toUpper.toNat < 128 := by
      rw [toNat_toUpper, if_pos hbounds]
      omega
    rw [utf8Size_eq_one hupper, utf8Size_eq_one (by omega)]
  · rw [toUpper_eq_self h]

/-! ## Texts -/

theorem byteLength_map_toUpper (text : List Char) :
    byteLength (text.map Char.toUpper) = byteLength text := by
  induction text with
  | nil => rfl
  | cons c text ih => rw [List.map_cons, byteLength, byteLength, utf8Size_toUpper, ih]

/-- The letter `capital` is the upper case of the letter `small` from `a` to `z`. -/
def IsCapital (capital small : Char) : Prop :=
  97 ≤ small.toNat ∧ small.toNat ≤ 122 ∧ capital.toNat = small.toNat - 32

/-- The same character, or a letter from `a` to `z` and its capital. -/
def SameButCase (c d : Char) : Prop := c = d ∨ IsCapital c d ∨ IsCapital d c

/-- The texts differ at most in the case of letters from `a` to `z`. -/
def EqualUpToCase (text other : List Char) : Prop := List.Forall₂ SameButCase text other

/-- The text in upper case: the same up to case, without a letter from `a` to `z`. -/
structure IsUpperCase (upper text : List Char) : Prop where
  equal : EqualUpToCase upper text
  not_small : ∀ c ∈ upper, ¬(97 ≤ c.toNat ∧ c.toNat ≤ 122)

theorem toUpper_eq_toUpper_iff : c.toUpper = d.toUpper ↔ SameButCase c d := by
  unfold SameButCase IsCapital
  rw [← Char.toNat_inj, ← Char.toNat_inj, toNat_toUpper, toNat_toUpper]
  split <;> split <;> omega

theorem upperCase_eq_iff {text other : List Char} :
    upperCase text = upperCase other ↔ EqualUpToCase text other := by
  have hchars : upperCase text = upperCase other ↔ text.map Char.toUpper = other.map Char.toUpper :=
    ⟨fun h => String.ofList_injective h, congrArg String.ofList⟩
  have hsame : SameButCase = fun c d => c.toUpper = d.toUpper :=
    funext₂ fun c d => propext toUpper_eq_toUpper_iff.symm
  rw [hchars, EqualUpToCase, hsame, forall₂_iff_map_eq]

instance (text other : List Char) : Decidable (EqualUpToCase text other) :=
  decidable_of_iff _ upperCase_eq_iff

theorem upperCase_map_toUpper (text : List Char) :
    upperCase (text.map Char.toUpper) = upperCase text := by
  have htwice : Char.toUpper ∘ Char.toUpper = Char.toUpper := funext toUpper_toUpper
  rw [upperCase, upperCase, List.map_map, htwice]

theorem upperCase_upperCase (text : List Char) : upperCase (upperCase text).toList = upperCase text := by
  have htext : (upperCase text).toList = text.map Char.toUpper := String.toList_ofList
  rw [htext, upperCase_map_toUpper]

theorem isUpperCase_iff {upper : String} {text : List Char} :
    IsUpperCase upper.toList text ↔ upper = upperCase text := by
  constructor
  · intro h
    have hself : upper.toList.map Char.toUpper = upper.toList := by
      refine (List.map_congr_left fun c hc => ?_).trans (List.map_id _)
      exact toUpper_eq_self (isLower_iff.not.mpr (h.not_small c hc))
    have hupper : upperCase upper.toList = upperCase text := upperCase_eq_iff.mpr h.equal
    rw [← hupper, upperCase, hself, String.ofList_toList]
  · rintro rfl
    refine ⟨upperCase_eq_iff.mp (upperCase_upperCase text), ?_⟩
    intro c hc
    rw [upperCase, String.toList_ofList, List.mem_map] at hc
    obtain ⟨d, -, rfl⟩ := hc
    rw [toNat_toUpper]
    split <;> omega

/-! ## Digits -/

namespace Numeral

/-- The rank by the code point. -/
theorem rank_eq (c : Char) :
    rank c =
      if 48 ≤ c.toNat ∧ c.toNat ≤ 57 then c.toNat - 48
      else if 97 ≤ c.toNat ∧ c.toNat ≤ 122 then c.toNat - 97 + 10
      else if 65 ≤ c.toNat ∧ c.toNat ≤ 90 then c.toNat - 65 + 10
      else 36 := by
  simp only [rank, isDigit_iff, isLower_iff, isUpper_iff]
  rfl

theorem rank_toUpper (c : Char) : rank c.toUpper = rank c := by
  rw [rank_eq, rank_eq, toNat_toUpper]
  split_ifs <;> omega

theorem isAlphanum_of_rank_lt (h : rank c < 36) : c.isAlphanum = true := by
  rw [rank_eq] at h
  rw [isAlphanum_iff]
  split_ifs at h <;> omega

end Numeral

end BasicComputer
