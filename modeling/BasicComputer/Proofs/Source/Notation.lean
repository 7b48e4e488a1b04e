import BasicComputer.Proofs.Source.Literals
import BasicComputer.Proofs.Text.Case

/-! # Decimal and hexadecimal notation

Which texts are literals, and the numbers that they are, in terms of their characters alone. A decimal
literal is a number with one sign at most that fits sixteen bits in either reading, a hexadecimal one has
up to four digits and keeps its limit. Whatever else is tried as a literal is malformed, and the blame
falls on its own span. -/

namespace BasicComputer

namespace Numeral

/-- The characters from `0` to `9`, and the letters from `a` to `f` in either case. -/
def isHexadecimal (c : Char) : Bool :=
  c.isDigit || ('a' ≤ c && c ≤ 'f') || ('A' ≤ c && c ≤ 'F')

/-- What such a character counts for. -/
def weight (c : Char) : Nat :=
  if c ≤ '9' then c.toNat - '0'.toNat
  else if c ≤ 'F' then 10 + (c.toNat - 'A'.toNat)
  else 10 + (c.toNat - 'a'.toNat)

/-- The number that digits are in positional notation. -/
def positional (base : Nat) (digits : List Char) : Nat := Nat.ofDigits base (digits.reverse.map weight)

/-- A sign, if there is one, then decimal digits and nothing else, and the integer that they are. -/
def IsDecimal (text : List Char) (v : Int) : Prop :=
  ∃ (sign : Option Char) (digits : List Char),
    text = sign.toList ++ digits ∧ (∀ c ∈ sign, c = '+' ∨ c = '-') ∧
      digits ≠ [] ∧ (∀ c ∈ digits, c.isDigit = true) ∧
      v = if sign = some '-' then -(positional 10 digits : Int) else positional 10 digits

/-! ## Single digits -/

variable {c : Char}

theorem isHexadecimal_iff :
    isHexadecimal c = true ↔
      (48 ≤ c.toNat ∧ c.toNat ≤ 57) ∨ (97 ≤ c.toNat ∧ c.toNat ≤ 102) ∨
        (65 ≤ c.toNat ∧ c.toNat ≤ 70) := by
  simp [isHexadecimal, isDigit_iff, Char.le_def, UInt32.le_iff_toNat_le, or_assoc]

theorem rank_lt_ten_iff : rank c < 10 ↔ c.isDigit = true := by
  rw [rank_eq, isDigit_iff]
  split_ifs <;> omega

theorem rank_lt_sixteen_iff : rank c < 16 ↔ isHexadecimal c = true := by
  rw [rank_eq, isHexadecimal_iff]
  split_ifs <;> omega

theorem isHexadecimal_of_isDigit (h : c.isDigit = true) : isHexadecimal c = true := by
  simp [isHexadecimal, h]

theorem rank_eq_weight (h : isHexadecimal c = true) : rank c = weight c := by
  have h9 : c ≤ '9' ↔ c.toNat ≤ 57 := UInt32.le_iff_toNat_le
  have hF : c ≤ 'F' ↔ c.toNat ≤ 70 := UInt32.le_iff_toNat_le
  rw [isHexadecimal_iff] at h
  rw [rank_eq, weight]
  simp only [h9, hF]
  rcases h with hdigit | hlower | hupper
  · rw [if_pos hdigit, if_pos hdigit.2]
    rfl
  · rw [if_neg (by omega), if_pos (by omega), if_neg (by omega), if_neg (by omega), Nat.add_comm]
    rfl
  · rw [if_neg (by omega), if_neg (by omega), if_pos (by omega), if_neg (by omega), if_pos hupper.2,
      Nat.add_comm]
    rfl

/-! ## Digits in a row -/

/-- The reader's numbers are those of positional notation, in a base whose digits are known. -/
theorem denotes_iff_positional {base n : Nat} {digits : List Char} {isDigit : Char → Bool}
    (hrank : ∀ c, rank c < base ↔ isDigit c = true)
    (hdigit : ∀ c, isDigit c = true → isHexadecimal c = true) :
    Denotes base digits n ↔
      digits ≠ [] ∧ (∀ c ∈ digits, isDigit c = true) ∧ n = positional base digits := by
  have hvalue (hall : ∀ c ∈ digits, isDigit c = true) :
      Nat.ofDigits base (digits.reverse.map rank) = positional base digits := by
    have hweights : digits.reverse.map rank = digits.reverse.map weight := by
      apply List.map_congr_left
      intro c hc
      exact rank_eq_weight (hdigit c (hall c (List.mem_reverse.mp hc)))
    rw [hweights, positional]
  constructor
  · intro h
    have hall : ∀ c ∈ digits, isDigit c = true := fun c hc => (hrank c).mp (h.rank_lt c hc)
    exact ⟨h.nonempty, hall, h.eq_ofDigits.trans (hvalue hall)⟩
  · intro h
    exact ⟨h.1, fun c hc => (hrank c).mpr (h.2.1 c hc), h.2.2.trans (hvalue h.2.1).symm⟩

theorem denotes_decimal_iff {digits : List Char} {n : Nat} :
    Denotes 10 digits n ↔
      digits ≠ [] ∧ (∀ c ∈ digits, c.isDigit = true) ∧ n = positional 10 digits :=
  denotes_iff_positional (fun _ => rank_lt_ten_iff) (fun _ => isHexadecimal_of_isDigit)

theorem denotes_hexadecimal_iff {digits : List Char} {n : Nat} :
    Denotes 16 digits n ↔
      digits ≠ [] ∧ (∀ c ∈ digits, isHexadecimal c = true) ∧ n = positional 16 digits :=
  denotes_iff_positional (fun _ => rank_lt_sixteen_iff) (fun _ => id)

theorem denotesSigned_iff {text : List Char} {v : Int} : DenotesSigned 10 text v ↔ IsDecimal text v := by
  constructor
  · intro h
    cases h with
    | unsigned h =>
        obtain ⟨hne, hall, rfl⟩ := denotes_decimal_iff.mp h
        exact ⟨none, text, rfl, by simp, hne, hall, rfl⟩
    | plus h =>
        obtain ⟨hne, hall, rfl⟩ := denotes_decimal_iff.mp h
        exact ⟨some '+', _, rfl, by simp, hne, hall, rfl⟩
    | minus h =>
        obtain ⟨hne, hall, rfl⟩ := denotes_decimal_iff.mp h
        exact ⟨some '-', _, rfl, by simp, hne, hall, rfl⟩
  · intro h
    obtain ⟨sign, digits, rfl, hsign, hne, hall, rfl⟩ := h
    have hdigits := denotes_decimal_iff.mpr ⟨hne, hall, rfl⟩
    cases sign with
    | none => exact .unsigned hdigits
    | some c =>
        rcases hsign c rfl with rfl | rfl
        · exact .plus hdigits
        · exact .minus hdigits

end Numeral

namespace Token

theorem decimal_ok_or_malformed (t : Token) :
    (∃ w, t.decimal = .ok w) ∨ ∃ reason, t.decimal = .error ⟨.malformedLiteral reason, t.span⟩ := by
  cases h : t.decimal with
  | ok w => exact .inl ⟨w, rfl⟩
  | error e =>
      obtain ⟨fault, rfl⟩ := exists_fault_of_decimal h
      exact .inr ⟨fault.reason, rfl⟩

theorem hexadecimal_ok_or_malformed (t : Token) (limit : Nat) :
    (∃ n, t.hexadecimal limit = .ok n) ∨
      ∃ reason, t.hexadecimal limit = .error ⟨.malformedLiteral reason, t.span⟩ := by
  cases h : t.hexadecimal limit with
  | ok n => exact .inl ⟨n, rfl⟩
  | error e =>
      obtain ⟨fault, rfl⟩ := exists_fault_of_hexadecimal h
      exact .inr ⟨fault.reason, rfl⟩

/-- A word holds an integer modulo its size. -/
theorem eq_ofInt_iff {w : Word} {v : Int} : w = BitVec.ofInt 16 v ↔ (w.toNat : Int) = v % 2 ^ 16 := by
  rw [← BitVec.toNat_inj, BitVec.toNat_ofInt]
  have hpos : 0 ≤ v % 2 ^ 16 := Int.emod_nonneg v (by decide)
  omega

/-- Decimal and hexadecimal literals are read exactly if they are well formed and keep their bounds, and for
the numbers that they are; any other token is a malformed literal at its own span. -/
theorem literals_exact (t : Token) :
    (∀ w : Word, t.decimal = .ok w ↔
      t.kind = .number ∧ ∃ v, Numeral.IsDecimal t.lexeme.toList v ∧ -32768 ≤ v ∧ v ≤ 65535 ∧
        (w.toNat : Int) = v % 2 ^ 16) ∧
    (∀ limit n, t.hexadecimal limit = .ok n ↔
      1 ≤ t.lexeme.toList.length ∧ t.lexeme.toList.length ≤ 4 ∧
        (∀ c ∈ t.lexeme.toList, Numeral.isHexadecimal c = true) ∧
        n = Numeral.positional 16 t.lexeme.toList ∧ n ≤ limit) ∧
    ((∃ w, t.decimal = .ok w) ∨ ∃ reason, t.decimal = .error ⟨.malformedLiteral reason, t.span⟩) ∧
    ∀ limit, (∃ n, t.hexadecimal limit = .ok n) ∨
      ∃ reason, t.hexadecimal limit = .error ⟨.malformedLiteral reason, t.span⟩ := by
  refine ⟨?_, ?_, t.decimal_ok_or_malformed, t.hexadecimal_ok_or_malformed⟩
  · intro w
    simp only [decimal_eq_ok_iff, DenotesDecimal, Numeral.denotesSigned_iff, eq_ofInt_iff]
    constructor
    · intro h
      obtain ⟨v, ⟨hkind, hdecimal, hlow, hhigh⟩, hw⟩ := h
      exact ⟨hkind, v, hdecimal, hlow, hhigh, hw⟩
    · intro h
      obtain ⟨hkind, v, hdecimal, hlow, hhigh, hw⟩ := h
      exact ⟨v, ⟨hkind, hdecimal, hlow, hhigh⟩, hw⟩
  · intro limit n
    have hne : t.lexeme.toList ≠ [] ↔ 1 ≤ t.lexeme.toList.length := List.length_pos_iff.symm
    rw [hexadecimal_eq_ok_iff, DenotesHexadecimal, Numeral.denotes_hexadecimal_iff, hne]
    constructor
    · intro h
      obtain ⟨⟨hlength, hpos, hall, hn⟩, hlimit⟩ := h
      exact ⟨hpos, hlength, hall, hn, hlimit⟩
    · intro h
      obtain ⟨hpos, hlength, hall, hn, hlimit⟩ := h
      exact ⟨⟨hlength, hpos, hall, hn⟩, hlimit⟩

end Token

end BasicComputer
