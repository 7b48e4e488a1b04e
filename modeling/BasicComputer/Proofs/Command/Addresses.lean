import BasicComputer.Command.Arguments
import BasicComputer.Proofs.Assembly.Relocation

/-! # Addresses of breakpoints and of origins

The address of a breakpoint is read from the command line much as the operand of ORG is read from a source. The
one may have a plus sign and any number of zeros in front, the other has four digits at most. Where there is
neither a sign nor a fifth digit, both are read alike. -/

namespace BasicComputer

namespace Numeral

variable {base n : Nat} {digits : List Char}

/-! ## Zeros in front -/

theorem eq_zero_of_rank_eq_zero {c : Char} (h : rank c = 0) : c = '0' := by
  have hzero : '0'.toNat = 48 := rfl
  unfold rank at h
  split at h
  next hdigit =>
    have hlow : 48 ≤ c.toNat := by
      simp only [Char.isDigit, Bool.and_eq_true, decide_eq_true_eq, UInt32.le_iff_toNat_le] at hdigit
      exact hdigit.1
    exact Char.toNat_inj.mp (by omega)
  next =>
    split at h
    · omega
    · split at h <;> omega

theorem ofDigits_reverse_cons (c : Char) (digits : List Char) :
    Nat.ofDigits base ((c :: digits).reverse.map rank) =
      Nat.ofDigits base (digits.reverse.map rank) + base ^ digits.length * rank c := by
  rw [List.reverse_cons, List.map_append, Nat.ofDigits_append, List.length_map, List.length_reverse,
    List.map_singleton, Nat.ofDigits_singleton]

theorem denotes_zero_cons (hbase : 0 < base) (hne : digits ≠ []) :
    Denotes base ('0' :: digits) n ↔ Denotes base digits n := by
  have hrank : rank '0' = 0 := rfl
  constructor
  · intro h
    refine ⟨hne, fun c hc => h.rank_lt c (List.mem_cons_of_mem _ hc), ?_⟩
    rw [h.eq_ofDigits, ofDigits_reverse_cons, hrank, Nat.mul_zero, Nat.add_zero]
  · intro h
    refine ⟨List.cons_ne_nil _ _, ?_, ?_⟩
    · intro c hc
      rcases List.mem_cons.mp hc with rfl | hc
      · exact hbase
      · exact h.rank_lt c hc
    · rw [ofDigits_reverse_cons, hrank, Nat.mul_zero, Nat.add_zero]
      exact h.eq_ofDigits

theorem denotes_zeros_append (hbase : 0 < base) (hne : digits ≠ []) (zeros : Nat) :
    Denotes base (List.replicate zeros '0' ++ digits) n ↔ Denotes base digits n := by
  induction zeros with
  | zero => rfl
  | succ zeros ih =>
      rw [List.replicate_succ, List.cons_append, denotes_zero_cons hbase (by simp [hne]), ih]

/-- A number that so many digits can hold has only zeros in front of these. -/
theorem Denotes.exists_zeros {width : Nat} (h : Denotes base digits n) (hwidth : 0 < width)
    (hn : n < base ^ width) :
    ∃ zeros rest, digits = List.replicate zeros '0' ++ rest ∧ rest.length ≤ width ∧ Denotes base rest n := by
  induction digits with
  | nil => exact absurd rfl h.nonempty
  | cons c digits ih =>
      by_cases hlength : (c :: digits).length ≤ width
      · exact ⟨0, c :: digits, rfl, hlength, h⟩
      · rw [List.length_cons] at hlength
        have hbehind : width ≤ digits.length := by omega
        have hne : digits ≠ [] := List.ne_nil_of_length_pos (by omega)
        have hbase : 0 < base := Nat.lt_of_le_of_lt (Nat.zero_le _) (h.rank_lt c List.mem_cons_self)
        have hrank : rank c = 0 := by
          have hvalue := h.eq_ofDigits
          rw [ofDigits_reverse_cons] at hvalue
          by_contra hpos
          have hpower : base ^ width ≤ base ^ digits.length := Nat.pow_le_pow_right hbase hbehind
          have hterm : base ^ digits.length ≤ base ^ digits.length * rank c :=
            Nat.le_mul_of_pos_right _ (Nat.pos_of_ne_zero hpos)
          omega
        obtain rfl := eq_zero_of_rank_eq_zero hrank
        obtain ⟨zeros, rest, rfl, hrest, hdenotes⟩ := ih ((denotes_zero_cons hbase hne).mp h)
        exact ⟨zeros + 1, rest, rfl, hrest, hdenotes⟩

end Numeral

/-! ## The two readers -/

/-- A breakpoint's address may have a plus sign, and as many digits as it likes. -/
theorem readBreakpoint_eq_ok_iff {text : String} {a : Word} :
    readBreakpoint text = .ok a ↔
      (Numeral.Denotes 16 (withoutHexMark text.toList) a.toNat ∨
        ∃ digits, withoutHexMark text.toList = '+' :: digits ∧ Numeral.Denotes 16 digits a.toNat) ∧
      a.toNat ≤ 0xFFF := by
  have hread (bound n : Nat) : Numeral.readNat 16 bound (withoutHexMark text.toList) = .ok n ↔ _ :=
    Numeral.readNat_eq_ok_iff (by decide) (by decide)
  have hshort : Numeral.readNat 16 0xFFF (withoutHexMark text.toList) = .ok a.toNat ↔
      Numeral.readNat 16 0xFFFF (withoutHexMark text.toList) = .ok a.toNat ∧ a.toNat ≤ 0xFFF := by
    rw [hread, hread]
    constructor
    · rintro ⟨h, hn⟩
      exact ⟨⟨h, by omega⟩, hn⟩
    · rintro ⟨⟨h, -⟩, hn⟩
      exact ⟨h, hn⟩
  rw [← hread 0xFFF, hshort, readBreakpoint]
  cases Numeral.readNat 16 0xFFFF (withoutHexMark text.toList) with
  | error fault => exact iff_of_false nofun nofun
  | ok value =>
      by_cases hvalue : value ≤ 0xFFF
      · have hword : BitVec.ofNat 16 value = a ↔ value = a.toNat := by
          rw [← BitVec.toNat_inj, BitVec.toNat_ofNat, Nat.mod_eq_of_lt (by omega)]
        simp only [if_pos hvalue, Except.ok.injEq, hword]
        omega
      · simp only [if_neg hvalue, Except.ok.injEq, reduceCtorEq, false_iff]
        omega

/-- The token that digits are in the source, where they are the operand of ORG. -/
def originOperand (kind : TokenKind) (digits : List Char) (span : Span) : Token :=
  ⟨kind, upperCase digits, span⟩

theorem originOperand_hexadecimal_eq_ok_iff {kind : TokenKind} {digits : List Char} {span : Span}
    {limit n : Nat} :
    (originOperand kind digits span).hexadecimal limit = .ok n ↔
      digits.length ≤ 4 ∧ Numeral.Denotes 16 digits n ∧ n ≤ limit := by
  rw [Token.hexadecimal_eq_ok_iff, denotesHexadecimal_iff_of_upperCase rfl, and_assoc]

theorem withoutSign_of_denotes {digits : List Char} {n : Nat} (h : Numeral.Denotes 16 digits n) :
    digits.head? ≠ some '+' := by
  intro hhead
  obtain ⟨rest, rfl⟩ := List.head?_eq_some_iff.mp hhead
  exact Numeral.not_denotes_of_sign (by decide) (by decide) h

/-- The address of a breakpoint is read as the operand of ORG is, but that it may have a plus sign and any
number of zeros in front. -/
theorem readBreakpoint_as_origin (text : String) (a : Word) (kind : TokenKind) (span : Span) :
    (readBreakpoint text = .ok a ↔
      ∃ zeros digits,
        (withoutHexMark text.toList = List.replicate zeros '0' ++ digits ∨
          withoutHexMark text.toList = '+' :: (List.replicate zeros '0' ++ digits)) ∧
        (originOperand kind digits span).hexadecimal 0xFFF = .ok a.toNat) ∧
    ((originOperand kind (withoutHexMark text.toList) span).hexadecimal 0xFFF = .ok a.toNat ↔
      readBreakpoint text = .ok a ∧ (withoutHexMark text.toList).length ≤ 4 ∧
        (withoutHexMark text.toList).head? ≠ some '+') := by
  simp only [originOperand_hexadecimal_eq_ok_iff, readBreakpoint_eq_ok_iff]
  generalize withoutHexMark text.toList = operand
  refine ⟨⟨?_, ?_⟩, ⟨?_, ?_⟩⟩
  · have hbound : a.toNat < 16 ^ 4 := a.isLt
    rintro ⟨hdigits | ⟨digits, rfl, hdigits⟩, hlimit⟩
    · obtain ⟨zeros, rest, rfl, hlength, hrest⟩ := hdigits.exists_zeros (by decide) hbound
      exact ⟨zeros, rest, .inl rfl, hlength, hrest, hlimit⟩
    · obtain ⟨zeros, rest, rfl, hlength, hrest⟩ := hdigits.exists_zeros (by decide) hbound
      exact ⟨zeros, rest, .inr rfl, hlength, hrest, hlimit⟩
  · rintro ⟨zeros, digits, hoperand, -, hdigits, hlimit⟩
    have hall := (Numeral.denotes_zeros_append (by decide) hdigits.nonempty zeros).mpr hdigits
    refine ⟨?_, hlimit⟩
    rcases hoperand with rfl | rfl
    · exact .inl hall
    · exact .inr ⟨_, rfl, hall⟩
  · rintro ⟨hlength, hdigits, hlimit⟩
    exact ⟨⟨.inl hdigits, hlimit⟩, hlength, withoutSign_of_denotes hdigits⟩
  · rintro ⟨⟨hdigits | ⟨digits, rfl, -⟩, hlimit⟩, hlength, hsign⟩
    · exact ⟨hlength, hdigits, hlimit⟩
    · exact absurd rfl hsign

/-- A sign and a fifth digit are read in the address of a breakpoint, and not in the operand of ORG. -/
theorem readBreakpoint_signed_and_long :
    (readBreakpoint "+5" = .ok 5 ∧
      (originOperand .number "+5".toList ⟨4, 6⟩).hexadecimal 0xFFF =
        .error ((LiteralFault.notHexadecimal "+5").errorAt ⟨4, 6⟩)) ∧
    (readBreakpoint "00005" = .ok 5 ∧
      (originOperand .number "00005".toList ⟨4, 9⟩).hexadecimal 0xFFF =
        .error ((LiteralFault.notHexadecimal "00005").errorAt ⟨4, 9⟩)) :=
  ⟨⟨rfl, rfl⟩, rfl, rfl⟩

end BasicComputer
