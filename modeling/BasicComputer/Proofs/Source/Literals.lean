import BasicComputer.Proofs.Except
import BasicComputer.Source.Literal
import Mathlib.Data.Nat.Digits.Defs

/-! # The numbers that literals denote

Reading digits from the left within bounds gives the number that positional notation gives them, exactly
when that number is within the bounds. -/

namespace BasicComputer

namespace Numeral

/-- At least one digit of the base, and the number that they denote together. -/
structure Denotes (base : Nat) (digits : List Char) (n : Nat) : Prop where
  nonempty : digits ≠ []
  rank_lt : ∀ c ∈ digits, rank c < base
  eq_ofDigits : n = Nat.ofDigits base (digits.reverse.map rank)

inductive DenotesSigned (base : Nat) : List Char → Int → Prop
  | unsigned {digits : List Char} {n : Nat} (h : Denotes base digits n) :
      DenotesSigned base digits n
  | plus {digits : List Char} {n : Nat} (h : Denotes base digits n) :
      DenotesSigned base ('+' :: digits) n
  | minus {digits : List Char} {n : Nat} (h : Denotes base digits n) :
      DenotesSigned base ('-' :: digits) (-n)

/-! ## Digits -/

theorem foldl_eq_ofDigits (base : Nat) (digits : List Char) (n : Nat) :
    digits.foldl (fun n c => n * base + rank c) n =
      Nat.ofDigits base (digits.reverse.map rank ++ [n]) := by
  induction digits generalizing n with
  | nil => simp
  | cons c digits ih =>
      rw [List.foldl_cons, ih, List.reverse_cons, List.map_append, Nat.ofDigits_append,
        Nat.ofDigits_append, Nat.ofDigits_append]
      simp
      ring

theorem value_eq_ofDigits (base : Nat) (digits : List Char) :
    value base digits = Nat.ofDigits base (digits.reverse.map rank) := by
  rw [value, foldl_eq_ofDigits, Nat.ofDigits_append]
  simp

theorem le_foldl {base : Nat} (h : 1 ≤ base) (digits : List Char) (n : Nat) :
    n ≤ digits.foldl (fun n c => n * base + rank c) n := by
  induction digits generalizing n with
  | nil => exact Nat.le_refl n
  | cons c digits ih =>
      have hstep : n ≤ n * base + rank c := by
        have := Nat.le_mul_of_pos_right n h
        omega
      exact Nat.le_trans hstep (ih _)

theorem digit?_eq_some_iff {base d : Nat} {c : Char} :
    digit? base c = some d ↔ rank c < base ∧ rank c = d := by
  unfold digit?
  split <;> simp [*]

/-- The digits are read to their end exactly if all are digits and the bound is kept at the end. -/
theorem readDigits_eq_ok_iff {base bound : Nat} {overflow : NumeralFault} (hb : 1 ≤ base)
    {digits : List Char} {start n : Nat} (hs : start ≤ bound) :
    readDigits base bound overflow start digits = .ok n ↔
      (∀ c ∈ digits, rank c < base) ∧
        digits.foldl (fun n c => n * base + rank c) start = n ∧ n ≤ bound := by
  induction digits generalizing start with
  | nil =>
      rw [readDigits, Except.ok.injEq, List.foldl_nil]
      refine ⟨?_, ?_⟩
      · rintro rfl
        exact ⟨by simp, rfl, hs⟩
      · exact fun h => h.2.1
  | cons c digits ih =>
      rw [readDigits]
      cases hd : digit? base c with
      | none =>
          have hc : ¬rank c < base := by simpa [digit?] using hd
          simp [hc]
      | some d =>
          obtain ⟨hc, rfl⟩ := digit?_eq_some_iff.mp hd
          simp only [List.mem_cons, forall_eq_or_imp, hc, true_and, List.foldl_cons]
          by_cases hle : start * base + rank c ≤ bound
          · rw [if_pos hle]
            exact ih hle
          · rw [if_neg hle]
            have hmono := le_foldl hb digits (start * base + rank c)
            refine ⟨?_, ?_⟩
            · intro h
              cases h
            · intro hx
              rcases hx with ⟨-, rfl, hn⟩
              exact (hle (Nat.le_trans hmono hn)).elim

theorem readDigits_zero_eq_ok_iff {base bound : Nat} {overflow : NumeralFault} (hb : 1 ≤ base)
    {digits : List Char} (hne : digits ≠ []) {n : Nat} :
    readDigits base bound overflow 0 digits = .ok n ↔ Denotes base digits n ∧ n ≤ bound := by
  have hvalue : digits.foldl (fun n c => n * base + rank c) 0 = value base digits := rfl
  rw [readDigits_eq_ok_iff hb (Nat.zero_le bound), hvalue, value_eq_ofDigits]
  refine ⟨?_, ?_⟩
  · intro hx
    rcases hx with ⟨hrank, hn, hle⟩
    exact ⟨⟨hne, hrank, hn.symm⟩, hle⟩
  · intro hx
    rcases hx with ⟨h, hle⟩
    exact ⟨h.rank_lt, h.eq_ofDigits.symm, hle⟩

/-! ## Signs -/

theorem not_denotes_of_sign {base n : Nat} (hb : base ≤ 36) {c : Char} (hc : rank c = 36)
    {digits : List Char} : ¬Denotes base (c :: digits) n := by
  intro h
  have := h.rank_lt c List.mem_cons_self
  omega

theorem readNat_eq_ok_iff {base bound : Nat} (hb : 1 ≤ base) (hb' : base ≤ 36) {text : List Char}
    {n : Nat} :
    readNat base bound text = .ok n ↔
      (Denotes base text n ∨ ∃ digits, text = '+' :: digits ∧ Denotes base digits n) ∧
        n ≤ bound := by
  have hplus {digits : List Char} : ¬Denotes base ('+' :: digits) n :=
    not_denotes_of_sign hb' (by decide)
  unfold readNat
  split
  next =>
    refine ⟨?_, ?_⟩
    · intro h
      cases h
    · intro hx
      rcases hx with ⟨h | ⟨digits, hdigits, -⟩, -⟩
      · exact absurd rfl h.nonempty
      · cases hdigits
  next =>
    refine ⟨?_, ?_⟩
    · intro h
      cases h
    · intro hx
      rcases hx with ⟨h | ⟨digits, hdigits, h⟩, -⟩
      · exact absurd h hplus
      · cases hdigits
        exact absurd rfl h.nonempty
  next digits hne =>
    rw [readDigits_zero_eq_ok_iff hb (by simpa using hne)]
    simp [hplus]
  next hnil _ hsign =>
    rw [readDigits_zero_eq_ok_iff hb hnil]
    have hnone (digits : List Char) : text ≠ '+' :: digits := fun h => hsign digits h
    simp [hnone]

theorem denotesSigned_minus {base : Nat} (hb : base ≤ 36) {digits : List Char} {v : Int} :
    DenotesSigned base ('-' :: digits) v ↔ ∃ n : Nat, Denotes base digits n ∧ v = -n := by
  refine ⟨?_, ?_⟩
  · intro h
    cases h with
    | unsigned h => exact absurd h (not_denotes_of_sign hb (by decide))
    | minus h => exact ⟨_, h, rfl⟩
  · intro hx
    rcases hx with ⟨n, h, rfl⟩
    exact .minus h

theorem denotesSigned_of_not_minus {base : Nat} {text : List Char} {v : Int}
    (h : ∀ digits, text ≠ '-' :: digits) :
    DenotesSigned base text v ↔
      ∃ n : Nat, (Denotes base text n ∨ ∃ digits, text = '+' :: digits ∧ Denotes base digits n) ∧
        v = n := by
  refine ⟨?_, ?_⟩
  · intro hv
    cases hv with
    | unsigned hn => exact ⟨_, .inl hn, rfl⟩
    | plus hn => exact ⟨_, .inr ⟨_, rfl, hn⟩, rfl⟩
    | minus => exact absurd rfl (h _)
  · intro hx
    rcases hx with ⟨n, hn | ⟨digits, rfl, hn⟩, rfl⟩
    · exact .unsigned hn
    · exact .plus hn

/-- Signed numbers are read exactly if they are within the bounds. -/
theorem readInt_eq_ok_iff {base depth bound : Nat} (hb : 1 ≤ base) (hb' : base ≤ 36)
    {text : List Char} {v : Int} :
    readInt base depth bound text = .ok v ↔
      DenotesSigned base text v ∧ -(depth : Int) ≤ v ∧ v ≤ bound := by
  unfold readInt
  split
  next =>
    rw [denotesSigned_minus hb']
    refine ⟨?_, ?_⟩
    · intro h
      cases h
    · intro hx
      rcases hx with ⟨⟨n, hn, -⟩, -⟩
      exact absurd rfl hn.nonempty
  next digits hne =>
    have hneg (x : Except NumeralFault Nat) :
        (do let n ← x; pure (n : Int)).map (fun n => -n) = .ok v ↔ ∃ n : Nat, x = .ok n ∧ v = -n := by
      cases x <;> simp [Except.map, eq_comm]
    rw [denotesSigned_minus hb', hneg]
    refine ⟨?_, ?_⟩
    · intro hx
      rcases hx with ⟨n, hn, rfl⟩
      obtain ⟨hn, hle⟩ := (readDigits_zero_eq_ok_iff hb (by simpa using hne)).mp hn
      exact ⟨⟨n, hn, rfl⟩, by omega, by omega⟩
    · intro hx
      rcases hx with ⟨⟨n, hn, rfl⟩, hle, -⟩
      exact ⟨n, (readDigits_zero_eq_ok_iff hb (by simpa using hne)).mpr ⟨hn, by omega⟩, rfl⟩
  next _ hsign =>
    rw [denotesSigned_of_not_minus hsign, map_eq_ok_iff]
    refine ⟨?_, ?_⟩
    · intro hx
      rcases hx with ⟨n, hn, rfl⟩
      obtain ⟨hn, hle⟩ := (readNat_eq_ok_iff hb hb').mp hn
      exact ⟨⟨n, hn, rfl⟩, by simp, by simpa using hle⟩
    · intro hx
      rcases hx with ⟨⟨n, hn, rfl⟩, -, hle⟩
      exact ⟨n, (readNat_eq_ok_iff hb hb').mpr ⟨hn, by omega⟩, rfl⟩

end Numeral

namespace Token

/-! ## Literals -/

/-- One to four hexadecimal digits denote the number. -/
def DenotesHexadecimal (t : Token) (n : Nat) : Prop :=
  t.lexeme.toList.length ≤ 4 ∧ Numeral.Denotes 16 t.lexeme.toList n

/-- A number token denotes a signed number that fits sixteen bits in either reading. -/
def DenotesDecimal (t : Token) (v : Int) : Prop :=
  t.kind = .number ∧ Numeral.DenotesSigned 10 t.lexeme.toList v ∧ -32768 ≤ v ∧ v ≤ 65535

theorem denotesHexadecimal_iff {t : Token} {n : Nat} :
    t.DenotesHexadecimal n ↔
      (t.lexeme.toList ≠ [] ∧ t.lexeme.toList.length ≤ 4 ∧
        ∀ c ∈ t.lexeme.toList, Numeral.rank c < 16) ∧
      n = Numeral.value 16 t.lexeme.toList := by
  rw [Numeral.value_eq_ofDigits]
  refine ⟨?_, ?_⟩
  · intro h
    rcases h with ⟨hlength, hne, hrank, hn⟩
    exact ⟨⟨hne, hlength, hrank⟩, hn⟩
  · intro h
    rcases h with ⟨⟨hne, hlength, hrank⟩, hn⟩
    exact ⟨hlength, hne, hrank, hn⟩

theorem hexadecimal_eq_ok_iff {limit n : Nat} {t : Token} :
    t.hexadecimal limit = .ok n ↔ t.DenotesHexadecimal n ∧ n ≤ limit := by
  have hdigit (c : Char) : (Numeral.digit? 16 c).isSome = decide (Numeral.rank c < 16) := by
    unfold Numeral.digit?
    split <;> simp [*]
  rw [denotesHexadecimal_iff]
  simp only [hexadecimal]
  split
  next h =>
    have hmalformed : ¬(t.lexeme.toList ≠ [] ∧ t.lexeme.toList.length ≤ 4 ∧
        ∀ c ∈ t.lexeme.toList, Numeral.rank c < 16) := by
      intro hx
      rcases hx with ⟨hne, hlength, hrank⟩
      simp only [Bool.or_eq_true, List.isEmpty_iff, hne, decide_eq_true_eq, hdigit,
        Bool.not_eq_true', List.all_eq_false, false_or] at h
      obtain hlong | ⟨c, hc, hbad⟩ := h
      · omega
      · exact hbad (hrank c hc)
    refine ⟨?_, ?_⟩
    · intro hn
      cases hn
    · exact fun hn => absurd hn.1.1 hmalformed
  next h =>
    have hwell : t.lexeme.toList ≠ [] ∧ t.lexeme.toList.length ≤ 4 ∧
        ∀ c ∈ t.lexeme.toList, Numeral.rank c < 16 := by
      simp only [hdigit, Bool.not_eq_true, Bool.or_eq_false_iff] at h
      simpa [and_assoc] using h
    rw [and_iff_right hwell]
    split
    next hle =>
      refine ⟨?_, ?_⟩
      · intro hn
        cases hn
        exact ⟨rfl, hle⟩
      · intro hx
        rcases hx with ⟨rfl, -⟩
        rfl
    next hle =>
      refine ⟨?_, ?_⟩
      · intro hn
        cases hn
      · intro hx
        rcases hx with ⟨rfl, hn⟩
        exact absurd hn hle

theorem decimal_eq_ok_iff {t : Token} {w : Word} :
    t.decimal = .ok w ↔ ∃ v, t.DenotesDecimal v ∧ w = BitVec.ofInt 16 v := by
  by_cases hk : t.kind = .number
  · have hread {v : Int} (hv : -32768 ≤ v ∧ v ≤ 65535) :
        Numeral.readInt 10 2147483648 2147483647 t.lexeme.toList = .ok v ↔
          Numeral.DenotesSigned 10 t.lexeme.toList v := by
      rw [Numeral.readInt_eq_ok_iff (by decide) (by decide)]
      exact and_iff_left ⟨by omega, by omega⟩
    rw [decimal, if_neg (not_not_intro hk)]
    cases hvalue : Numeral.readInt 10 2147483648 2147483647 t.lexeme.toList with
    | error fault =>
        refine ⟨?_, ?_⟩
        · intro h
          cases h
        · intro hx
          rcases hx with ⟨v, ⟨-, hv, hrange⟩, -⟩
          rw [(hread hrange).mpr hv] at hvalue
          cases hvalue
    | ok value =>
        by_cases hrange : -32768 ≤ value ∧ value ≤ 65535
        · have hv := (hread hrange).mp hvalue
          simp only [if_pos hrange]
          refine ⟨?_, ?_⟩
          · intro h
            cases h
            exact ⟨value, ⟨hk, hv, hrange⟩, rfl⟩
          · intro hx
            rcases hx with ⟨v, ⟨-, hv', hrange'⟩, rfl⟩
            rw [(hread hrange').mpr hv'] at hvalue
            cases hvalue
            rfl
        · simp only [if_neg hrange]
          refine ⟨?_, ?_⟩
          · intro h
            cases h
          · intro hx
            rcases hx with ⟨v, ⟨-, hv', hrange'⟩, rfl⟩
            rw [(hread hrange').mpr hv'] at hvalue
            cases hvalue
            exact absurd hrange' hrange
  · simp [decimal, DenotesDecimal, hk]

theorem address_eq_ok_iff {t : Token} {a : Address} :
    t.address = .ok a ↔ ∃ n, t.DenotesHexadecimal n ∧ n ≤ 0xFFF ∧ a = BitVec.ofNat 12 n := by
  simp only [address, map_eq_ok_iff, hexadecimal_eq_ok_iff, and_assoc]

/-! ## Malformed literals -/

variable {t : Token} {e : SourceError}

theorem exists_fault_of_hexadecimal {limit : Nat} (h : t.hexadecimal limit = .error e) :
    ∃ fault : LiteralFault, e = fault.errorAt t.span := by
  simp only [hexadecimal] at h
  split at h
  · cases h
    exact ⟨_, rfl⟩
  · split at h
    · cases h
    · cases h
      exact ⟨_, rfl⟩

theorem exists_fault_of_address (h : t.address = .error e) :
    ∃ fault : LiteralFault, e = fault.errorAt t.span :=
  exists_fault_of_hexadecimal (map_eq_error_iff.mp h)

theorem exists_fault_of_decimal (h : t.decimal = .error e) :
    ∃ fault : LiteralFault, e = fault.errorAt t.span := by
  unfold decimal at h
  split at h
  · cases h
    exact ⟨_, rfl⟩
  · split at h
    · cases h
      exact ⟨_, rfl⟩
    · split at h
      · cases h
      · cases h
        exact ⟨_, rfl⟩

end Token

end BasicComputer
