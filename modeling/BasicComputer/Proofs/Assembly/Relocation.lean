import BasicComputer.Proofs.Assembly.Layout
import BasicComputer.Proofs.Assembly.Parallel
import BasicComputer.Proofs.Source.Printing
import BasicComputer.Proofs.Text.Case

/-! # Relocation

A program that begins with an origin and holds no other address of its own is assembled to the same words
wherever the origin lies, but that all addresses are moved with it. They wrap around at the end of
memory. -/

namespace BasicComputer

/-- The text is the address in three hexadecimal digits. -/
structure Address.WrittenAs (a : Address) (text : String) : Prop where
  length_eq : text.toList.length = 3
  denotes : Numeral.Denotes 16 text.toList a.toNat

/-- A line with an origin and nothing else. -/
def SourceLine.originLine (tokens : List Token) (a : Address) : SourceLine :=
  ⟨tokens, ⟨none, .origin a⟩⟩

/-- Where the line can be read, it holds no address of its own. -/
def TextLine.Relocatable (t : TextLine) : Prop :=
  ∀ x, Program.ReadsAs x t → x.line.Relocatable

/-- The images of two programs with these lines, the second placed further on by `d`: the same lines at
addresses that differ by `d`, and the same words but for the addresses of labels. -/
structure Image.Moves (p : List SourceLine) (d : Address) (image image' : Image) : Prop where
  words : Forall₃ (Statement.Moves Eq d) (p.filterMap (·.statement?)) image.words image'.words
  entry : (∃ x ∈ p, x.canEnter = true) → ∃ a : Address, image.entry = a.word ∧ image'.entry = (a + d).word
  entry_eq_zero : (∀ x ∈ p, x.canEnter = false) → image.entry = 0 ∧ image'.entry = 0

/-! ## Origins -/

section

variable {c : Char} (h : c.isAlphanum = true)

include h

theorem beq_eq_false_of_isAlphanum {d : Char} (hd : d.isAlphanum = false) : (c == d) = false := by
  rw [beq_eq_false_iff_ne]
  rintro rfl
  cases hd.symm.trans h

theorem isGap_of_isAlphanum : isGap c = false := by
  have hspace : (c == ' ') = false := beq_eq_false_of_isAlphanum h (by decide)
  have htab : (c == '\t') = false := beq_eq_false_of_isAlphanum h (by decide)
  have hreturn : (c == '\r') = false := beq_eq_false_of_isAlphanum h (by decide)
  rw [isGap, hspace, htab, hreturn]
  rfl

theorem Lead.of?_of_isAlphanum : of? c = some .number ∨ of? c = some .word := by
  have hslash : (c == '/') = false := beq_eq_false_of_isAlphanum h (by decide)
  have hnewline : (c == '\n') = false := beq_eq_false_of_isAlphanum h (by decide)
  have hplus : (c == '+') = false := beq_eq_false_of_isAlphanum h (by decide)
  have hminus : (c == '-') = false := beq_eq_false_of_isAlphanum h (by decide)
  rw [of?, hslash, hnewline, isGap_of_isAlphanum h, hplus, hminus]
  rw [Char.isAlphanum] at h
  cases hdigit : c.isDigit <;> simp_all

end

theorem byteLength_of_isAlphanum {text : List Char} (h : ∀ c ∈ text, c.isAlphanum = true) :
    byteLength text = text.length := by
  induction text with
  | nil => rfl
  | cons c text ih =>
      rw [List.forall_mem_cons] at h
      rw [byteLength, ih h.2, utf8Size_eq_one (toNat_lt_of_isAlphanum h.1), List.length_cons,
        Nat.add_comm]

theorem isOperand_of_lead {t : Token} {lead : Lead} (hlead : lead = .word ∨ lead = .number)
    {lexeme : String} (h : t.kind = lead.kind lexeme) : t.IsOperand := by
  rcases hlead with rfl | rfl
  · exact Token.isOperand_ofWord h
  · exact .number h

/-- The digits denote the same in upper case. -/
theorem Numeral.denotes_map_toUpper {base n : Nat} {digits : List Char} :
    Denotes base (digits.map Char.toUpper) n ↔ Denotes base digits n := by
  have hrank : Numeral.rank ∘ Char.toUpper = Numeral.rank := funext Numeral.rank_toUpper
  have hvalue : (digits.map Char.toUpper).reverse.map rank = digits.reverse.map rank := by
    rw [← List.map_reverse, List.map_map, hrank]
  constructor
  · intro h
    exact ⟨by simpa using h.nonempty, by simpa [Numeral.rank_toUpper] using h.rank_lt, hvalue ▸ h.eq_ofDigits⟩
  · intro h
    exact ⟨by simpa using h.nonempty, by simpa [Numeral.rank_toUpper] using h.rank_lt, hvalue ▸ h.eq_ofDigits⟩

theorem denotesHexadecimal_iff_of_upperCase {t : Token} {digits : List Char} {n : Nat}
    (ht : t.lexeme = upperCase digits) :
    t.DenotesHexadecimal n ↔ digits.length ≤ 4 ∧ Numeral.Denotes 16 digits n := by
  have hlexeme : t.lexeme.toList = digits.map Char.toUpper := by
    rw [ht, upperCase, String.toList_ofList]
  rw [Token.DenotesHexadecimal, hlexeme, List.length_map, Numeral.denotes_map_toUpper]

theorem isAlphanum_of_denotes {base n : Nat} {digits : List Char} (hb : base ≤ 36)
    (h : Numeral.Denotes base digits n) : ∀ c ∈ digits, c.isAlphanum = true := by
  intro c hc
  have hrank := h.rank_lt c hc
  exact Numeral.isAlphanum_of_rank_lt (by omega)

/-- Letters and digits are a single token, in front of which a blank ends. -/
theorem Scans.exists_of_isAlphanum {run : List Char} (hne : run ≠ [])
    (h : ∀ c ∈ run, c.isAlphanum = true) :
    ∃ lead : Lead, (lead = .word ∨ lead = .number) ∧ run.head?.all (!isGap ·) = true ∧
      Scans run [(lead.kind (upperCase run), upperCase run)] := by
  obtain ⟨c, rest, rfl⟩ := List.exists_cons_of_ne_nil hne
  obtain ⟨hc, hrest⟩ := List.forall_mem_cons.mp h
  have hgap : (c :: rest).head?.all (!isGap ·) = true := by simp [isGap_of_isAlphanum hc]
  have hrun {lead : Lead} (hlead : lead = .word ∨ lead = .number) (hcovers : lead.covers (c :: rest)) :
      Scans (c :: rest) [(lead.kind (upperCase (c :: rest)), upperCase (c :: rest))] := by
    have hscans := Scans.run hlead hcovers rfl .nil
    rwa [List.append_nil] at hscans
  rcases Lead.of?_of_isAlphanum hc with hlead | hlead
  · refine ⟨.number, .inr rfl, hgap, hrun (.inr rfl) ?_⟩
    simpa [Lead.covers, hlead, Lead.continues] using hrest
  · refine ⟨.word, .inl rfl, hgap, hrun (.inl rfl) ?_⟩
    simpa [Lead.covers, hlead, Lead.continues] using hrest

namespace Address.WrittenAs

variable {a : Address} {text : String} (h : a.WrittenAs text)

include h

theorem isAlphanum : ∀ c ∈ text.toList, c.isAlphanum = true :=
  isAlphanum_of_denotes (by decide) h.denotes

/-- A line with an origin moves the location counter there. -/
theorem exists_readsAs (offset : Nat) :
    ∃ tokens, Program.ReadsAs (.originLine tokens a) ⟨offset, ("ORG " ++ text).toList⟩ := by
  obtain ⟨lead, hlead, hgap, hdigits⟩ := Scans.exists_of_isAlphanum h.denotes.nonempty h.isAlphanum
  have horg : Lead.word.covers "ORG".toList = true := by decide
  have hscans := Scans.run (.inl rfl) horg rfl (.gap hgap hdigits)
  have htext : ("ORG " ++ text).toList = "ORG".toList ++ ' ' :: text.toList := by simp
  obtain ⟨tokens, htokens, hwords⟩ := hscans.exists_tokens offset
  obtain ⟨head, _, rfl, hhead, hwords⟩ := List.map_eq_cons_iff.mp hwords
  obtain ⟨operand, rfl, hoperand⟩ := List.map_eq_singleton_iff.mp hwords
  obtain ⟨hkind, hlexeme⟩ := Prod.mk.inj hoperand
  have ha := a.isLt
  have hdenotes : operand.DenotesHexadecimal a.toNat :=
    (denotesHexadecimal_iff_of_upperCase hlexeme).mpr ⟨h.length_eq ▸ by decide, h.denotes⟩
  have hform := Content.Form.origin (Prod.mk.inj hhead).1 (isOperand_of_lead hlead hkind) hdenotes
    (by omega)
  rw [BitVec.ofNat_toNat, BitVec.setWidth_eq] at hform
  exact ⟨_, htext ▸ htokens, (Line.Form.unlabeled hform).read⟩

end Address.WrittenAs

/-! ## The program behind the origin -/

namespace Program

variable {a d : Address} {text : String}

theorem layOut_origin (h : a.WrittenAs text) (body : String) :
    ∃ tokens, layOut ("ORG " ++ text ++ "\n" ++ body) =
      ((TextLine.ofText 8 body.toList).map TextLine.tokens).foldlM Layout.extend
        (layout [.originLine tokens a]) := by
  obtain ⟨tokens, hreads⟩ := h.exists_readsAs 0
  have hsplit : ("ORG " ++ text ++ "\n" ++ body).toList =
      ("ORG " ++ text).toList ++ '\n' :: body.toList := by simp
  have hnewline : '\n' ∉ ("ORG " ++ text).toList := by
    have hdigits : '\n' ∉ text.toList := fun hmem => by cases h.isAlphanum _ hmem
    simpa using hdigits
  have hlength : byteLength ("ORG " ++ text).toList = 7 := by
    have horg : byteLength "ORG ".toList = 4 := by decide
    rw [String.toList_append, byteLength_append, horg, byteLength_of_isAlphanum h.isAlphanum,
      h.length_eq]
  have hstep : Layout.empty.extend (TextLine.tokens ⟨0, ("ORG " ++ text).toList⟩) =
      .ok (layout [.originLine tokens a]) := by
    have hnone : (labels []).Nodup := List.nodup_nil
    rw [← layout_nil, extend_eq_ok_iff hnone rfl]
    exact ⟨_, hreads, List.nodup_nil, rfl⟩
  refine ⟨tokens, ?_⟩
  rw [layOut_eq_foldlM, hsplit, TextLine.ofText_append_cons hnewline, List.map_cons, List.foldlM_cons,
    hstep, hlength]
  rfl

theorem counter_origin (tokens : List Token) : counter [.originLine tokens a] = a :=
  counter_of_origin (p := []) rfl

theorem alike_layout_origin (tokens tokens' : List Token) :
    (layout [.originLine tokens a]).Alike Eq d (layout [.originLine tokens' (a + d)]) where
  bindings := .nil
  placements := .nil
  counter_eq := by simp only [layout, counter_origin]
  entry_eq := rfl
  ended_eq := rfl

theorem relocatable_of_readsAs {p : List SourceLine} {lines : List TextLine}
    (h : List.Forall₂ ReadsAs p lines) (hp : ∀ x ∈ p, x.line.Relocatable) :
    ∀ t ∈ lines, t.Relocatable := by
  induction h with
  | nil => simp
  | @cons x t p lines hx _ ih =>
      rw [List.forall_mem_cons] at hp ⊢
      refine ⟨?_, ih hp.2⟩
      intro y hy
      cases readsAs_unique hx hy
      exact hp.1

theorem lineAlike_tokens {t : TextLine} (h : t.Relocatable) : LineAlike Eq d t.tokens t.tokens where
  agree := .refl (fun _ => SourceError.alike_eq_iff.mpr rfl)
    (fun _ => List.forall₂_same.mpr fun t _ => t.alike_refl) _
  relocatable := .inr fun _ _ htokens hread => h ⟨_, _⟩ ⟨htokens, hread⟩

/-- Both texts are laid out, the second further on by the distance between the origins, or neither. -/
theorem agree_layOut_origin {b : Address} {text' body : String} (ha : a.WrittenAs text)
    (hb : b.WrittenAs text')
    (h : ∀ t ∈ TextLine.throughEnd (TextLine.ofText 8 body.toList), t.Relocatable) :
    Agree (SourceError.Alike Eq) (Layout.Alike Eq (b - a)) (layOut ("ORG " ++ text ++ "\n" ++ body))
      (layOut ("ORG " ++ text' ++ "\n" ++ body)) := by
  obtain ⟨tokens, hlayout⟩ := layOut_origin ha body
  obtain ⟨tokens', hlayout'⟩ := layOut_origin hb body
  have hfurther : a + (b - a) = b := by rw [BitVec.add_comm, BitVec.sub_add_cancel]
  have horigin : (layout [.originLine tokens a]).Alike Eq (b - a) (layout [.originLine tokens' b]) := by
    have halike := alike_layout_origin (a := a) (d := b - a) tokens tokens'
    rwa [hfurther] at halike
  have hlines : List.Forall₂ (LineAlike Eq (b - a))
      ((TextLine.throughEnd (TextLine.ofText 8 body.toList)).map TextLine.tokens)
      ((TextLine.throughEnd (TextLine.ofText 8 body.toList)).map TextLine.tokens) := by
    rw [List.forall₂_map_left_iff, List.forall₂_map_right_iff, List.forall₂_same]
    exact fun t ht => lineAlike_tokens (h t ht)
  -- The lines behind the end of the program need not be relocatable: they are not looked at.
  have hfold := horigin.foldlM joins_eq hlines
  rwa [foldlM_extend_throughEnd, foldlM_extend_throughEnd, ← hlayout, ← hlayout'] at hfold

/-- The images of two programs that have the same lines behind an origin. -/
theorem image_moves {tokens : List Token} {q : List SourceLine} {l' : Layout}
    (h : (layout (.originLine tokens a :: q)).Alike Eq d l') :
    Agree Eq (Image.Moves q d) (layout (.originLine tokens a :: q)).image l'.image := by
  refine (h.image.imp_error fun _ _ => SourceError.alike_eq_iff.mp).imp ?_
  rintro image image' ⟨⟨hentry, hentry'⟩, hwords⟩
  have hstart : start? (.originLine tokens a :: q) = none ↔ ∀ x ∈ q, x.canEnter = false := by
    rw [start?_eq_none_iff, List.forall_mem_cons]
    exact and_iff_right rfl
  have hstatements : Forall₃ (Statement.Moves Eq d) ((placements (.originLine tokens a :: q)).map
      Placement.statement) image.words image'.words := hwords.map_left
  rw [map_statement_placements] at hstatements
  refine ⟨hstatements, ?_, ?_⟩
  · rintro ⟨x, hx, henter⟩
    cases hs : start? (.originLine tokens a :: q) with
    | none => cases henter.symm.trans (hstart.mp hs x hx)
    | some first =>
        -- The origin has no word, so the entry is that of a line behind it.
        rw [layout, hs] at hentry hentry'
        exact ⟨first, hentry, hentry'⟩
  · intro hnone
    rw [layout, hstart.mpr hnone] at hentry hentry'
    exact ⟨hentry, hentry'⟩

end Program

/-- Behind an origin, lines without addresses of their own are assembled to the same image wherever the
origin lies, but for the distance between the origins, or are refused with the same error. -/
theorem assemble_origin {a b : Address} {text text' body : String} (ha : a.WrittenAs text)
    (hb : b.WrittenAs text')
    (h : ∀ t ∈ TextLine.throughEnd (TextLine.ofText 8 body.toList), t.Relocatable) :
    Agree Eq
      (fun image image' => ∃ p, List.Forall₂ Program.ReadsAs p
          (TextLine.throughEnd (TextLine.ofText 8 body.toList)) ∧ image.Moves p (b - a) image')
      (assemble ("ORG " ++ text ++ "\n" ++ body)) (assemble ("ORG " ++ text' ++ "\n" ++ body)) := by
  have hlayouts := Program.agree_layOut_origin ha hb h
  obtain ⟨tokens, hlayout⟩ := Program.layOut_origin ha body
  rw [assemble, assemble]
  generalize hl : layOut ("ORG " ++ text ++ "\n" ++ body) = l at hlayouts
  generalize layOut ("ORG " ++ text' ++ "\n" ++ body) = l' at hlayouts
  cases hlayouts with
  | error he => exact .error (SourceError.alike_eq_iff.mp he)
  | ok halike =>
      have hlabels : (Program.labels [.originLine tokens a]).Nodup := List.nodup_nil
      rw [hlayout, Program.foldlM_extend_eq_ok_iff hlabels rfl] at hl
      obtain ⟨q, hq, -, rfl⟩ := hl
      exact (Program.image_moves halike).imp fun _ _ hmoves => ⟨q, hq, hmoves⟩

/-- A loop and a number behind it. -/
def loopBody : String := "LOP, INC\nBUN LOP\nHEX 1F\nEND\nORG 5"

theorem assemble_origin_acrossEnd :
    Address.WrittenAs 0x0FE "0fE" ∧ Address.WrittenAs 0xFFE "FFe" ∧
      (∀ t ∈ TextLine.throughEnd (TextLine.ofText 8 loopBody.toList), t.Relocatable) ∧
      assemble ("ORG " ++ "0fE" ++ "\n" ++ loopBody) =
        .ok ⟨0x0FE, [⟨0x0FE, 0x7020, ⟨8, 16⟩⟩, ⟨0x0FF, 0x40FE, ⟨17, 24⟩⟩, ⟨0x100, 0x001F, ⟨25, 31⟩⟩]⟩ ∧
      assemble ("ORG " ++ "FFe" ++ "\n" ++ loopBody) =
        .ok ⟨0xFFE, [⟨0xFFE, 0x7020, ⟨8, 16⟩⟩, ⟨0xFFF, 0x4FFE, ⟨17, 24⟩⟩, ⟨0x000, 0x001F, ⟨25, 31⟩⟩]⟩ ∧
      ∃ p, Image.Moves p 0xF00
        ⟨0x0FE, [⟨0x0FE, 0x7020, ⟨8, 16⟩⟩, ⟨0x0FF, 0x40FE, ⟨17, 24⟩⟩, ⟨0x100, 0x001F, ⟨25, 31⟩⟩]⟩
        ⟨0xFFE, [⟨0xFFE, 0x7020, ⟨8, 16⟩⟩, ⟨0xFFF, 0x4FFE, ⟨17, 24⟩⟩, ⟨0x000, 0x001F, ⟨25, 31⟩⟩]⟩ := by
  have hlow : Address.WrittenAs 0x0FE "0fE" := ⟨rfl, by decide, by simp; decide, by decide +kernel⟩
  have hhigh : Address.WrittenAs 0xFFE "FFe" := ⟨rfl, by decide, by simp; decide, by decide +kernel⟩
  have hlines : TextLine.throughEnd (TextLine.ofText 8 loopBody.toList) =
      [⟨8, "LOP, INC".toList⟩, ⟨17, "BUN LOP".toList⟩, ⟨25, "HEX 1F".toList⟩, ⟨32, "END".toList⟩] := by
    decide +kernel
  let label : Token := ⟨.label, "LOP", ⟨8, 11⟩⟩
  let operand : Token := ⟨.identifier, "LOP", ⟨21, 24⟩⟩
  let literal : Token := ⟨.number, "1F", ⟨29, 31⟩⟩
  let inc : SourceLine :=
    ⟨[label, ⟨.mnemonic (.register .inc), "INC", ⟨13, 16⟩⟩], ⟨some label, .word (.register .inc none)⟩⟩
  let bun : SourceLine :=
    ⟨[⟨.mnemonic (.memory .bun), "BUN", ⟨17, 20⟩⟩, operand], ⟨none, .word (.memory .bun operand none)⟩⟩
  let hex : SourceLine :=
    ⟨[⟨.directive .hex, "HEX", ⟨25, 28⟩⟩, literal], ⟨none, .word (.hexadecimal literal)⟩⟩
  let stop : SourceLine := ⟨[⟨.directive .stop, "END", ⟨32, 35⟩⟩], ⟨none, .stop⟩⟩
  have hreads : List.Forall₂ Program.ReadsAs [inc, bun, hex, stop]
      (TextLine.throughEnd (TextLine.ofText 8 loopBody.toList)) := by
    rw [hlines]
    exact .cons ⟨by decide +kernel, rfl⟩ (.cons ⟨by decide +kernel, rfl⟩
      (.cons ⟨by decide +kernel, rfl⟩ (.cons ⟨by decide +kernel, rfl⟩ .nil)))
  have hlocal : ∀ x ∈ [inc, bun, hex, stop], x.line.Relocatable := by
    simp only [List.forall_mem_cons, List.not_mem_nil, false_implies, implies_true, and_true]
    refine ⟨⟨?_, ?_⟩, ⟨?_, ?_⟩, ⟨?_, ?_⟩, ⟨?_, ?_⟩⟩ <;> rintro _ ⟨⟩ <;>
      simp [Statement.Relocatable, operand]
  have hbody := Program.relocatable_of_readsAs hreads hlocal
  have hmoves := assemble_origin hlow hhigh hbody
  have hfirst : assemble ("ORG " ++ "0fE" ++ "\n" ++ loopBody) =
      .ok ⟨0x0FE, [⟨0x0FE, 0x7020, ⟨8, 16⟩⟩, ⟨0x0FF, 0x40FE, ⟨17, 24⟩⟩, ⟨0x100, 0x001F, ⟨25, 31⟩⟩]⟩ := by
    decide +kernel
  have hsecond : assemble ("ORG " ++ "FFe" ++ "\n" ++ loopBody) =
      .ok ⟨0xFFE, [⟨0xFFE, 0x7020, ⟨8, 16⟩⟩, ⟨0xFFF, 0x4FFE, ⟨17, 24⟩⟩, ⟨0x000, 0x001F, ⟨25, 31⟩⟩]⟩ := by
    decide +kernel
  rw [hfirst, hsecond] at hmoves
  cases hmoves with
  | ok h =>
      obtain ⟨p, -, hp⟩ := h
      exact ⟨hlow, hhigh, hbody, hfirst, hsecond, p, hp⟩

end BasicComputer
