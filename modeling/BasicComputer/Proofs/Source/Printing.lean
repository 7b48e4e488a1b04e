import BasicComputer.Instruction.Basic
import BasicComputer.Proofs.Source.Literals
import BasicComputer.Proofs.Source.Runs

/-! # Scanning what was printed

Mnemonics and addresses are printed without anything around them that the scanner could take for a part
of them. An address is printed with three digits, so whether it is a number for the scanner depends on
the first of them alone. -/

namespace BasicComputer

/-! ## Addresses in hexadecimal -/

namespace Hex

/-- The upper-case digit for a number below sixteen. -/
def digit (n : Nat) : Char := (Nat.digitChar n).toUpper

theorem rank_digit : ∀ n < 16, Numeral.rank (digit n) = n := by decide

theorem isAlphanum_digit : ∀ n < 16, (digit n).isAlphanum = true := by decide

theorem toUpper_digit : ∀ n < 16, (digit n).toUpper = digit n := by decide

theorem lead_digit : ∀ n < 16, Lead.of? (digit n) = some (if n < 10 then .number else .word) := by
  decide

/-- Three digits are enough for an address, and zeros stand in front of fewer. -/
theorem toList_upper {n : Nat} (h : n < 0x1000) :
    (Hex.upper 3 n).toList = [digit (n / 256), digit (n / 16 % 16), digit (n % 16)] := by
  rw [Hex.upper, String.toList_ofList]
  by_cases h1 : n < 16
  · have hhigh : n / 256 = 0 := by omega
    have hmiddle : n / 16 % 16 = 0 := by omega
    have hlow : n % 16 = n := by omega
    rw [Nat.toDigits_of_lt_base h1, hhigh, hmiddle, hlow]
    rfl
  · rw [Nat.toDigits_of_base_le (by decide) (by omega)]
    by_cases h2 : n < 256
    · have hhigh : n / 256 = 0 := by omega
      have hmiddle : n / 16 % 16 = n / 16 := by omega
      rw [Nat.toDigits_of_lt_base (by omega), hhigh, hmiddle]
      rfl
    · have hhigh : n / 16 / 16 = n / 256 := by omega
      rw [Nat.toDigits_of_base_le (by decide) (by omega), Nat.toDigits_of_lt_base (by omega), hhigh]
      rfl

theorem denotes_upper {n : Nat} (h : n < 0x1000) : Numeral.Denotes 16 (Hex.upper 3 n).toList n where
  nonempty := by simp [toList_upper h]
  rank_lt := by
    simp only [toList_upper h, List.mem_cons, forall_eq_or_imp, List.not_mem_nil, false_implies,
      implies_true, and_true]
    refine ⟨?_, ?_, ?_⟩ <;> rw [rank_digit _ (by omega)] <;> omega
  eq_ofDigits := by
    have hhigh := rank_digit (n / 256) (by omega)
    have hmiddle := rank_digit (n / 16 % 16) (by omega)
    have hlow := rank_digit (n % 16) (by omega)
    simp only [toList_upper h, List.reverse_cons, List.reverse_nil, List.nil_append,
      List.cons_append, List.map_cons, List.map_nil, hhigh, hmiddle, hlow, Nat.ofDigits_cons,
      Nat.ofDigits_nil]
    omega

end Hex

/-! ## Numbers as they are printed -/

namespace Numeral

theorem Denotes.concat {base n : Nat} {digits : List Char} (h : Denotes base digits n) {c : Char}
    (hc : rank c < base) : Denotes base (digits ++ [c]) (base * n + rank c) where
  nonempty := by simp
  rank_lt := by simpa [or_imp, forall_and, hc] using h.rank_lt
  eq_ofDigits := by
    rw [List.reverse_append, List.reverse_singleton, List.singleton_append, List.map_cons,
      Nat.ofDigits_cons, ← h.eq_ofDigits, Nat.add_comm]

theorem rank_digitChar : ∀ n < 16, rank (Nat.digitChar n) = n := by decide

theorem denotes_digitChar {base n : Nat} (hbase : base ≤ 16) (h : n < base) :
    Denotes base [Nat.digitChar n] n where
  nonempty := by simp
  rank_lt := by simpa [rank_digitChar n (by omega)] using h
  eq_ofDigits := by simp [rank_digitChar n (by omega)]

/-- A number denotes itself as it is printed. -/
theorem denotes_toDigits {base : Nat} (hpos : 1 < base) (hbase : base ≤ 16) (n : Nat) :
    Denotes base (Nat.toDigits base n) n := by
  induction n using Nat.strongRecOn with
  | ind n ih =>
      by_cases h : n < base
      · rw [Nat.toDigits_of_lt_base h]
        exact denotes_digitChar hbase h
      · have hmod := Nat.mod_lt n (Nat.lt_trans Nat.zero_lt_one hpos)
        have hlast := rank_digitChar (n % base) (Nat.lt_of_lt_of_le hmod hbase)
        have hfront := ih (n / base) (Nat.div_lt_self (by omega) hpos)
        have hconcat := hfront.concat (c := Nat.digitChar (n % base)) (hlast.trans_lt hmod)
        rwa [hlast, Nat.div_add_mod, ← Nat.toDigits_of_base_le hpos (by omega)] at hconcat

end Numeral

/-! ## Names and addresses as they are printed -/

theorem Mnemonic.covers_name (m : Mnemonic) : Lead.word.covers m.name.toList = true := by
  cases m with
  | memory op | register op | io op => cases op <;> decide

theorem Mnemonic.upperCase_name (m : Mnemonic) : upperCase m.name.toList = m.name := by
  cases m with
  | memory op | register op | io op => cases op <;> decide

/-- An address is a number if its first digit is one, and else a word. -/
def Lead.ofAddress (a : Address) : Lead := if a.toNat < 0xA00 then .number else .word

theorem Hex.covers_upper (a : Address) :
    (Lead.ofAddress a).covers (Hex.upper 3 a.toNat).toList = true := by
  have ha := a.isLt
  have hlead : (if a.toNat / 256 < 10 then Lead.number else .word) = Lead.ofAddress a := by
    unfold Lead.ofAddress
    by_cases h : a.toNat < 0xA00
    · rw [if_pos h, if_pos (by omega)]
    · rw [if_neg h, if_neg (by omega)]
  have hcontinues (c : Char) (hc : c.isAlphanum = true) : (Lead.ofAddress a).continues c = true := by
    unfold Lead.ofAddress
    split <;> exact hc
  rw [toList_upper ha, Lead.covers, lead_digit _ (by omega), hlead]
  simp [hcontinues _ (isAlphanum_digit _ (by omega : a.toNat / 16 % 16 < 16)),
    hcontinues _ (isAlphanum_digit _ (by omega : a.toNat % 16 < 16))]

theorem Hex.upperCase_upper (a : Address) :
    upperCase (Hex.upper 3 a.toNat).toList = Hex.upper 3 a.toNat := by
  have ha := a.isLt
  have hmap : (Hex.upper 3 a.toNat).toList.map Char.toUpper = (Hex.upper 3 a.toNat).toList := by
    simp only [toList_upper ha, List.map_cons, List.map_nil]
    rw [toUpper_digit _ (by omega), toUpper_digit _ (by omega), toUpper_digit _ (by omega)]
  rw [upperCase, hmap, String.ofList_toList]

/-! ## Scans without places -/

/-- Wherever it begins, the text is scanned to its end, into these kinds and lexemes and blanks. -/
def Scans (text : List Char) (words : List (TokenKind × String)) : Prop :=
  ∀ offset, ∃ tokens, Scan.scanFrom offset text = ⟨tokens, none⟩ ∧
    (tokens.filter (!·.kind.isTrivia)).map (fun t => (t.kind, t.lexeme)) = words

namespace Scans

theorem nil : Scans [] [] := fun offset => ⟨[], by rw [Scan.scanFrom], rfl⟩

/-- A run of characters at whose end its token ends. -/
theorem scanFrom_run {lead : Lead} {run rest : List Char} (h : lead.covers run = true)
    (hstop : ∀ c ∈ rest.head?, lead.continues c = false)
    (hlabel : ¬(lead = .word ∧ rest.head? = some ',')) (offset : Nat) :
    Scan.scanFrom offset (run ++ rest) =
      (Scan.scanFrom (offset + byteLength run) rest).cons
        ⟨lead.kind (upperCase run), upperCase run, ⟨offset, offset + byteLength run⟩⟩ := by
  obtain ⟨c, tail, rfl, hc, htail⟩ := Lead.exists_of_covers h
  rw [List.cons_append, Scan.scanFrom_cons hc, takeWhile_append_of_stop htail hstop,
    dropWhile_append_of_stop htail hstop]
  exact if_neg hlabel

theorem isTrivia_kind {lead : Lead} (h : lead = .word ∨ lead = .number) (lexeme : String) :
    (lead.kind lexeme).isTrivia = false := by
  rcases h with rfl | rfl
  · rw [Lead.kind, TokenKind.ofWord]
    split <;> rfl
  · rfl

/-- A run of characters that the rest does not go on with. -/
theorem token {lead : Lead} {run rest : List Char} (h : lead.covers run = true)
    (htrivia : (lead.kind (upperCase run)).isTrivia = false)
    (hstop : ∀ c ∈ rest.head?, lead.continues c = false)
    (hlabel : ¬(lead = .word ∧ rest.head? = some ',')) {words : List (TokenKind × String)}
    (hs : Scans rest words) :
    Scans (run ++ rest) ((lead.kind (upperCase run), upperCase run) :: words) := by
  intro offset
  obtain ⟨tokens, hscan, hwords⟩ := hs (offset + byteLength run)
  refine ⟨⟨lead.kind (upperCase run), upperCase run, ⟨offset, offset + byteLength run⟩⟩ :: tokens,
    ?_, ?_⟩
  · rw [scanFrom_run h hstop hlabel, hscan]
    rfl
  · rw [List.filter_cons_of_pos (by simp [htrivia]), List.map_cons, hwords]

/-- A word or a number before a blank or the end. -/
theorem run {lead : Lead} (hlead : lead = .word ∨ lead = .number) {run rest : List Char}
    (h : lead.covers run = true) (hrest : rest.head?.all (· == ' ') = true)
    {words : List (TokenKind × String)} (hs : Scans rest words) :
    Scans (run ++ rest) ((lead.kind (upperCase run), upperCase run) :: words) := by
  have hstop : ∀ c ∈ rest.head?, lead.continues c = false := by
    intro c hc
    rw [show rest.head? = some c from hc, Option.all_some, beq_iff_eq] at hrest
    subst hrest
    rcases hlead with rfl | rfl <;> rfl
  have hlabel : ¬(lead = .word ∧ rest.head? = some ',') := by
    rintro ⟨-, hcomma⟩
    rw [hcomma] at hrest
    cases hrest
  exact token h (isTrivia_kind hlead _) hstop hlabel hs

/-- A word and the comma that makes it a label. -/
theorem label {run rest : List Char} (h : Lead.word.covers run = true)
    {words : List (TokenKind × String)} (hs : Scans rest words) :
    Scans (run ++ ',' :: rest) ((.label, upperCase run) :: words) := by
  intro offset
  obtain ⟨c, tail, rfl, hc, htail⟩ := Lead.exists_of_covers h
  have hstop := Lead.stops_at_comma rest
  obtain ⟨tokens, hscan, hwords⟩ := hs (offset + byteLength (c :: tail) + 1)
  refine ⟨⟨.label, upperCase (c :: tail), ⟨offset, offset + byteLength (c :: tail)⟩⟩ :: tokens,
    ?_, ?_⟩
  · rw [List.cons_append, Scan.scanFrom_cons hc, takeWhile_append_of_stop htail hstop,
      dropWhile_append_of_stop htail hstop]
    exact (if_pos ⟨rfl, rfl⟩).trans (by rw [List.tail_cons, hscan]; rfl)
  · rw [List.filter_cons_of_pos rfl, List.map_cons, hwords]

theorem gap {rest : List Char} (hrest : rest.head?.all (!isGap ·) = true)
    {words : List (TokenKind × String)} (hs : Scans rest words) : Scans (' ' :: rest) words := by
  intro offset
  have hlabel : ¬(Lead.gap = .word ∧ rest.head? = some ',') := fun h => nomatch h.1
  have hcovers : Lead.gap.covers [' '] = true := by decide
  have hstop : ∀ c ∈ rest.head?, Lead.gap.continues c = false := by
    intro c hc
    rw [show rest.head? = some c from hc, Option.all_some, Bool.not_eq_true'] at hrest
    exact hrest
  obtain ⟨tokens, hscan, hwords⟩ := hs (offset + byteLength [' '])
  refine ⟨⟨.gap, " ", ⟨offset, offset + byteLength [' ']⟩⟩ :: tokens, ?_, hwords⟩
  rw [← List.singleton_append, scanFrom_run hcovers hstop hlabel, hscan]
  rfl

theorem name (m : Mnemonic) {rest : List Char} (hrest : rest.head?.all (· == ' ') = true)
    {words : List (TokenKind × String)} (hs : Scans rest words) :
    Scans (m.name.toList ++ rest) ((.mnemonic m, m.name) :: words) := by
  have hkind : TokenKind.ofWord m.name = .mnemonic m := by
    rw [TokenKind.ofWord, Mnemonic.ofName?_name]
  have hrun := run (.inl rfl) m.covers_name hrest hs
  rwa [m.upperCase_name, Lead.kind, hkind] at hrun

theorem address (a : Address) {rest : List Char} (hrest : rest.head?.all (· == ' ') = true)
    {words : List (TokenKind × String)} (hs : Scans rest words) :
    Scans ((Hex.upper 3 a.toNat).toList ++ rest)
      (((Lead.ofAddress a).kind (Hex.upper 3 a.toNat), Hex.upper 3 a.toNat) :: words) := by
  have hlead : Lead.ofAddress a = .word ∨ Lead.ofAddress a = .number := by
    unfold Lead.ofAddress
    split <;> simp
  have hrun := run hlead (Hex.covers_upper a) hrest hs
  rwa [Hex.upperCase_upper a] at hrun

theorem exists_tokens {text : List Char} {words : List (TokenKind × String)} (h : Scans text words)
    (offset : Nat) : ∃ tokens, TextLine.tokens ⟨offset, text⟩ = .ok tokens ∧
      tokens.map (fun t => (t.kind, t.lexeme)) = words := by
  obtain ⟨tokens, hscan, hwords⟩ := h offset
  exact ⟨_, by simp only [TextLine.tokens, hscan], hwords⟩

end Scans

/-! ## Instructions -/

namespace Instruction

/-- The kinds and lexemes in the text of an instruction. -/
def printed : Instruction → List (TokenKind × String)
  | memory op a indirect =>
    (.mnemonic (.memory op), op.name) ::
      ((Lead.ofAddress a).kind (Hex.upper 3 a.toNat), Hex.upper 3 a.toNat) ::
        if indirect then [(.identifier, "I")] else []
  | register op => [(.mnemonic (.register op), op.name)]
  | io op => [(.mnemonic (.io op), op.name)]

theorem head?_upper (a : Address) (rest : List Char) :
    ((Hex.upper 3 a.toNat).toList ++ rest).head?.all (!isGap ·) = true := by
  have hdigit : ∀ n < 16, isGap (Hex.digit n) = false := by decide
  have ha := a.isLt
  rw [Hex.toList_upper ha, List.cons_append, List.head?_cons, Option.all_some,
    hdigit _ (by omega)]
  rfl

theorem scans_text (i : Instruction) : Scans i.text.toList i.printed := by
  cases i with
  | memory op a indirect =>
      have hmark : Scans (if indirect then " I" else "").toList
          (if indirect then [(.identifier, "I")] else []) := by
        cases indirect with
        | false => exact .nil
        | true =>
            have hcovers : Lead.word.covers ['I'] = true := by decide
            exact .gap rfl (Scans.run (.inl rfl) hcovers rfl .nil)
      have hparted : (if indirect then " I" else "").toList.head?.all (· == ' ') = true := by
        cases indirect <;> rfl
      have htext : (memory op a indirect).text.toList = (Mnemonic.memory op).name.toList ++
          ' ' :: ((Hex.upper 3 a.toNat).toList ++ (if indirect then " I" else "").toList) := by
        simp [text, Mnemonic.name]
      rw [htext]
      exact .name _ rfl (.gap (head?_upper a _) (.address a hparted hmark))
  | register op =>
      have hname := Scans.name (.register op) rfl .nil
      rwa [List.append_nil] at hname
  | io op =>
      have hname := Scans.name (.io op) rfl .nil
      rwa [List.append_nil] at hname

end Instruction

/-- The text of an instruction is a single line. -/
theorem Instruction.newline_not_mem_text (i : Instruction) : '\n' ∉ i.text.toList := by
  have hname (m : Mnemonic) : '\n' ∉ m.name.toList :=
    Lead.newline_not_mem (by decide) m.covers_name
  cases i with
  | memory op a indirect =>
      have haddress : '\n' ∉ (Hex.upper 3 a.toNat).toList := by
        refine Lead.newline_not_mem ?_ (Hex.covers_upper a)
        unfold Lead.ofAddress
        split <;> decide
      have hop := hname (.memory op)
      cases indirect <;> simpa [text] using ⟨hop, haddress⟩
  | register op => exact hname (.register op)
  | io op => exact hname (.io op)

end BasicComputer
