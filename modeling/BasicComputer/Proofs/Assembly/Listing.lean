import BasicComputer.Proofs.Assembly.Decoding
import BasicComputer.Proofs.Assembly.Errors
import BasicComputer.Proofs.Source.Printing

/-! # Assembling a listing

The texts of instructions, one on a line, are a program. It is assembled to the words of the
instructions, unless one of them has an address that reads as a label. -/

namespace BasicComputer

/-! ## Lines of a listing -/

/-- The address of the instruction, if it has one, begins with a decimal digit. -/
def Instruction.Plain (i : Instruction) : Prop :=
  ∀ op a indirect, i = memory op a indirect → a.toNat < 0xA00

/-- The texts of the instructions, one on a line. -/
def listing (is : List Instruction) : String := "\n".intercalate (is.map Instruction.text)

namespace Program

/-- The line says what the instruction is, and nothing else. -/
inductive Shows (x : SourceLine) : Instruction → Prop
  | memory {op : MemoryOp} {operand : Token} {mark : Option Span} {a : Address} {indirect : Bool}
      (hx : x.line = ⟨none, .word (.memory op operand mark)⟩) (hi : mark.isSome = indirect)
      (ho : operand.lexeme = Hex.upper 3 a.toNat) (hk : operand.kind = .number ↔ a.toNat < 0xA00) :
      Shows x (.memory op a indirect)
  | register {op : RegisterOp} (hx : x.line = ⟨none, .word (.register op none)⟩) :
      Shows x (.register op)
  | io {op : IoOp} (hx : x.line = ⟨none, .word (.io op none)⟩) : Shows x (.io op)

theorem ofWord_ne_number (word : String) : TokenKind.ofWord word ≠ .number := by
  unfold TokenKind.ofWord
  split <;> simp

theorem kind_address_eq_number_iff (a : Address) (lexeme : String) :
    (Lead.ofAddress a).kind lexeme = .number ↔ a.toNat < 0xA00 := by
  unfold Lead.ofAddress
  split
  next h => simp [Lead.kind, h]
  next h => simp [Lead.kind, ofWord_ne_number, h]

theorem isOperand_address {t : Token} {a : Address} {lexeme : String}
    (h : t.kind = (Lead.ofAddress a).kind lexeme) : t.IsOperand := by
  unfold Lead.ofAddress at h
  split at h
  · exact .number h
  · exact Token.isOperand_ofWord h

/-- The text of an instruction reads as a line that shows it. -/
theorem exists_shows (i : Instruction) (offset : Nat) :
    ∃ x, ReadsAs x ⟨offset, i.text.toList⟩ ∧ Shows x i := by
  obtain ⟨tokens, htokens, hwords⟩ := i.scans_text.exists_tokens offset
  cases i with
  | memory op a indirect =>
      rw [Instruction.printed, List.map_eq_cons_iff] at hwords
      obtain ⟨head, _, rfl, hhead, hwords⟩ := hwords
      obtain ⟨operand, marks, rfl, hoperand, hmarks⟩ := List.map_eq_cons_iff.mp hwords
      obtain ⟨hk, hl⟩ := Prod.mk.inj hoperand
      have hoperand := isOperand_address hk
      have hnumber : operand.operand.kind = .number ↔ a.toNat < 0xA00 := by
        rw [kind_operand_eq_number_iff, hk, kind_address_eq_number_iff]
      cases indirect with
      | false =>
          obtain rfl := List.map_eq_nil_iff.mp hmarks
          have hform : Line.Form [head, operand] _ :=
            .unlabeled (.direct (Prod.mk.inj hhead).1 hoperand)
          exact ⟨⟨_, _⟩, ⟨htokens, hform.read⟩, .memory rfl rfl (by simpa using hl) hnumber⟩
      | true =>
          obtain ⟨mark, rfl, hmark⟩ := List.map_eq_singleton_iff.mp hmarks
          obtain ⟨hmark, hi⟩ := Prod.mk.inj hmark
          have hform : Line.Form [head, operand, mark] _ :=
            .unlabeled (.indirect (Prod.mk.inj hhead).1 hoperand (.identifier hmark) hi)
          exact ⟨⟨_, _⟩, ⟨htokens, hform.read⟩, .memory rfl rfl (by simpa using hl) hnumber⟩
  | register op =>
      obtain ⟨head, rfl, hhead⟩ := List.map_eq_singleton_iff.mp hwords
      have hform : Line.Form [head] _ := .unlabeled (.register (Prod.mk.inj hhead).1)
      exact ⟨⟨_, _⟩, ⟨htokens, hform.read⟩, .register rfl⟩
  | io op =>
      obtain ⟨head, rfl, hhead⟩ := List.map_eq_singleton_iff.mp hwords
      have hform : Line.Form [head] _ := .unlabeled (.io (Prod.mk.inj hhead).1)
      exact ⟨⟨_, _⟩, ⟨htokens, hform.read⟩, .io rfl⟩

variable {p : List SourceLine} {is : List Instruction} {x : SourceLine} {i : Instruction}

theorem exists_forall₂_shows (is : List Instruction) (offset : Nat) :
    ∃ p, List.Forall₂ ReadsAs p (TextLine.number offset (is.map (·.text.toList))) ∧
      List.Forall₂ Shows p is := by
  induction is generalizing offset with
  | nil => exact ⟨[], .nil, .nil⟩
  | cons i is ih =>
      obtain ⟨x, hx, hshows⟩ := exists_shows i offset
      obtain ⟨p, hp, hshows'⟩ := ih (offset + byteLength i.text.toList + 1)
      exact ⟨x :: p, .cons hx hp, .cons hshows hshows'⟩

/-! ## Lines with nothing but a statement -/

/-- The line has a statement and no label. -/
def Bare (x : SourceLine) : Prop := ∃ s, x.line = ⟨none, .word s⟩

theorem statement?_of_line {s : Statement} (h : x.line = ⟨none, .word s⟩) :
    x.statement? = some s :=
  SourceLine.statement?_eq_some_iff.mpr (congrArg Line.content h)

theorem Shows.bare (h : Shows x i) : Bare x := by
  cases h with
  | memory hx | register hx | io hx => exact ⟨_, hx⟩

theorem bare_of_shows (h : List.Forall₂ Shows p is) : ∀ x ∈ p, Bare x :=
  ((List.forall₂_and_left _ _).mp (h.imp fun _ _ hx => ⟨hx.bare, hx⟩)).1

theorem labels_of_bare (h : ∀ x ∈ p, Bare x) : labels p = [] := by
  rw [labels, List.filterMap_eq_nil_iff]
  intro x hx
  obtain ⟨s, hs⟩ := h x hx
  simp [SourceLine.label?, hs]

theorem nodup_labels_of_bare (h : ∀ x ∈ p, Bare x) : (labels p).Nodup := by
  rw [labels_of_bare h]
  exact List.nodup_nil

theorem countP_of_bare (h : ∀ x ∈ p, Bare x) : p.countP (·.statement?.isSome) = p.length := by
  rw [List.countP_eq_length]
  intro x hx
  obtain ⟨s, hs⟩ := h x hx
  rw [statement?_of_line hs]
  rfl

theorem counter_of_bare (h : ∀ x ∈ p, Bare x) : counter p = BitVec.ofNat 12 p.length := by
  induction p using List.reverseRecOn with
  | nil => rfl
  | append_singleton p x ih =>
      obtain ⟨s, hs⟩ := h x (by simp)
      rw [counter_of_word (by rw [hs]), ih fun y hy => h y (by simp [hy]), List.length_append,
        List.length_singleton, BitVec.ofNat_add]
      rfl

theorem start?_of_bare (h : ∀ x ∈ p, Bare x) : (start? p).getD 0 = 0 := by
  cases p with
  | nil => rfl
  | cons x p =>
      obtain ⟨s, hs⟩ := h x List.mem_cons_self
      have henter : x.canEnter = true := by simp [SourceLine.canEnter, hs]
      simp only [start?, linesFrom, List.find?_cons, henter]
      rfl

theorem throughEnd_of_bare {lines : List TextLine} (hp : List.Forall₂ ReadsAs p lines)
    (h : ∀ x ∈ p, Bare x) : TextLine.throughEnd lines = lines := by
  induction hp with
  | nil => rfl
  | @cons x t p lines hx hp ih =>
      rw [List.forall_mem_cons] at h
      obtain ⟨⟨s, hs⟩, h⟩ := h
      have hends : t.ends = false := by
        rw [Bool.eq_false_iff, ne_eq, ends_iff hx.1 hx.2, hs]
        exact Content.noConfusion
      rw [TextLine.throughEnd, hends, ih h]
      rfl

/-! ## Words of a listing -/

/-- The lines that a text was made of. -/
theorem ofText_intercalate {lines : List String} (hne : lines ≠ [])
    (hline : ∀ line ∈ lines, '\n' ∉ line.toList) :
    TextLine.ofText 0 ("\n".intercalate lines).toList =
      TextLine.number 0 (lines.map String.toList) := by
  have htoList : ("\n".intercalate lines).toList = ['\n'].intercalate (lines.map String.toList) :=
    String.toList_intercalate
  have hsplit : List.splitOn '\n' ("\n".intercalate lines).toList = lines.map String.toList := by
    rw [htoList]
    exact List.splitOn_intercalate '\n' (by simpa using hline) (by simpa using hne)
  rw [TextLine.ofText, hsplit]

theorem ofText_listing (h : is ≠ []) :
    TextLine.ofText 0 (listing is).toList = TextLine.number 0 (is.map (·.text.toList)) := by
  rw [listing, ofText_intercalate (by simpa using h) (by simpa using fun i _ => i.newline_not_mem_text),
    List.map_map]
  rfl

/-- A listing reads as lines that show its instructions, and the first reading succeeds. -/
theorem exists_reads_listing (h : is ≠ []) :
    ∃ p, List.Forall₂ ReadsAs p (TextLine.throughEnd (TextLine.ofText 0 (listing is).toList)) ∧
      layOut (listing is) = .ok (layout p) ∧ List.Forall₂ Shows p is := by
  obtain ⟨p, hlines, hshows⟩ := exists_forall₂_shows is 0
  have hbare := bare_of_shows hshows
  have hreads : List.Forall₂ ReadsAs p
      (TextLine.throughEnd (TextLine.ofText 0 (listing is).toList)) := by
    rw [ofText_listing h, throughEnd_of_bare hlines hbare]
    exact hlines
  exact ⟨p, hreads, layOut_eq_ok_iff.mpr ⟨p, hreads, nodup_labels_of_bare hbare, rfl⟩, hshows⟩

/-- The line's statement means the word of the instruction. -/
def Gives (p : List SourceLine) (x : SourceLine) (i : Instruction) : Prop :=
  ∃ s, x.statement? = some s ∧ Means p s i.encode

theorem Shows.gives (h : Shows x i) (hi : i.Plain) : Gives p x i := by
  cases h with
  | @memory op operand mark a indirect hx hmark ho hk =>
      have hlow := hi op a indirect rfl
      have hn : operand.DenotesHexadecimal a.toNat := by
        have ha := a.isLt
        refine ⟨?_, ?_⟩
        · rw [ho, Hex.toList_upper ha]
          simp
        · rw [ho]
          exact Hex.denotes_upper ha
      refine ⟨_, statement?_of_line hx, ?_⟩
      rw [encode_memory, ← hmark]
      exact .number (hk.mpr hlow) hn (by omega)
  | @register op hx =>
      refine ⟨_, statement?_of_line hx, ?_⟩
      rw [encode_register]
      exact .register op
  | @io op hx =>
      refine ⟨_, statement?_of_line hx, ?_⟩
      rw [encode_io]
      exact .io op

theorem gives_of_shows {q : List SourceLine} (h : List.Forall₂ Shows p is)
    (hplain : ∀ i ∈ is, i.Plain) : List.Forall₂ (Gives q) p is := by
  induction h with
  | nil => exact .nil
  | cons hx _ ih =>
      rw [List.forall_mem_cons] at hplain
      exact .cons (hx.gives hplain.1) (ih hplain.2)

/-- An address that begins with a letter reads as a label. -/
theorem Shows.faults {op : MemoryOp} {a : Address} {indirect : Bool}
    (h : Shows x (.memory op a indirect)) (hp : labels p = []) (ha : 0xA00 ≤ a.toNat) :
    ∃ s span, x.statement? = some s ∧
      Faults p s ⟨.undefinedLabel (Hex.upper 3 a.toNat), span⟩ := by
  cases h with
  | @memory _ operand mark _ _ hx hmark ho hk =>
      have hnumber : operand.kind ≠ .number := fun h => Nat.not_lt.mpr ha (hk.mp h)
      have hundefined : ∀ b, ¬Defines p operand.lexeme b := by
        rintro b ⟨before, l, after, rfl, hl, -⟩
        have hmem : upperCase operand.lexeme.toList ∈ labels (before ++ l :: after) :=
          List.mem_filterMap.mpr ⟨l, by simp, hl⟩
        rw [hp] at hmem
        cases hmem
      refine ⟨_, operand.span, statement?_of_line hx, ?_⟩
      rw [← ho]
      exact .undefined hnumber hundefined

/-- The partner of a member, between the partners of the others. -/
theorem exists_split_of_forall₂ {α β : Type} {R : α → β → Prop} {l : List α} {before after : List β}
    {b : β} (h : List.Forall₂ R l (before ++ b :: after)) :
    ∃ q a r, l = q ++ a :: r ∧ List.Forall₂ R q before ∧ R a b := by
  induction before generalizing l with
  | nil =>
      obtain ⟨a, r, ha, -, rfl⟩ := List.forall₂_cons_right_iff.mp h
      exact ⟨[], a, r, rfl, .nil, ha⟩
  | cons c before ih =>
      obtain ⟨y, l', hy, hl', rfl⟩ := List.forall₂_cons_right_iff.mp h
      obtain ⟨q, a, r, rfl, hq, ha⟩ := ih hl'
      exact ⟨y :: q, a, r, rfl, .cons hy hq, ha⟩

theorem exists_line_of_mem_placements {placement : Placement} (h : placement ∈ placements p) :
    ∃ x ∈ p, x.statement? = some placement.statement := by
  obtain ⟨⟨before, x⟩, hmem, hplacement⟩ := List.mem_filterMap.mp h
  obtain ⟨s, hs, rfl⟩ := Option.map_eq_some_iff.mp hplacement
  obtain ⟨between, after, rfl, -⟩ := mem_linesFrom.mp hmem
  exact ⟨x, by simp, hs⟩

theorem exists_assembles_of_gives (h : List.Forall₂ (Gives p) p is) :
    ∃ image, Assembles p image := by
  have hgives := exists_forall₂_iff.mp ⟨is, h⟩
  have hmeans : ∀ placement ∈ placements p, ∃ w, Means p placement.statement w := by
    intro placement hmem
    obtain ⟨x, hx, hs⟩ := exists_line_of_mem_placements hmem
    obtain ⟨i, s, hs', hw⟩ := hgives x hx
    cases hs.symm.trans hs'
    exact ⟨_, hw⟩
  obtain ⟨words, hwords⟩ := exists_words hmeans
  exact ⟨⟨((start? p).getD 0).word, words⟩, rfl, hwords⟩

theorem word_ofNat (k : Nat) : Address.word (BitVec.ofNat 12 k) = BitVec.ofNat 16 (k % 4096) := by
  apply BitVec.eq_of_toNat_eq
  rw [Address.toNat_word, BitVec.toNat_ofNat, BitVec.toNat_ofNat]
  omega

/-- The words of a listing stand one after another, and after the last cell comes the first. -/
theorem Assembles.words_of_gives {image : Image} (ha : Assembles p image) (hp : ∀ x ∈ p, Bare x)
    (h : List.Forall₂ (Gives p) p is) :
    image.words.map (fun w => (w.address, w.word)) =
      is.mapIdx fun k i => (BitVec.ofNat 16 (k % 4096), i.encode) := by
  rw [eq_comm, List.mapIdx_eq_iff]
  intro k
  rw [List.getElem?_map]
  cases hk : is[k]? with
  | none =>
      have hlength : image.words.length = is.length := by
        rw [← ha.words.length_eq, length_placements, countP_of_bare hp, h.length_eq]
      rw [List.getElem?_eq_none_iff] at hk
      rw [List.getElem?_eq_none (hlength ▸ hk)]
      rfl
  | some i =>
      obtain ⟨hlt, rfl⟩ := List.getElem?_eq_some_iff.mp hk
      have hsplit : is = is.take k ++ is[k] :: is.drop (k + 1) := by simp
      have hlines := h
      rw [hsplit] at hlines
      obtain ⟨q, x, r, rfl, hq, s, hs, hmeans⟩ := exists_split_of_forall₂ hlines
      have hbare : ∀ y ∈ q, Bare y := fun y hy => hp y (by simp [hy])
      have hlength : q.length = k := by
        rw [hq.length_eq, List.length_take]
        omega
      obtain ⟨w, hword, haddress, -, hmeans'⟩ := ha.getElem?_words hs
      have hnodup := nodup_labels_of_bare hp
      rw [countP_of_bare hbare, hlength] at hword
      rw [counter_of_bare hbare, hlength, word_ofNat] at haddress
      rw [hword, Option.map_some, Option.map_some, haddress, means_unique hnodup hmeans' hmeans]

end Program

/-! ## Listings -/

variable {is : List Instruction}

theorem assemble_listing_nil : assemble (listing []) = .ok ⟨0, []⟩ := by decide +kernel

/-- Instructions with plain addresses are assembled to their words. -/
theorem assemble_listing_of_plain (hplain : ∀ i ∈ is, i.Plain) :
    ∃ image, assemble (listing is) = .ok image ∧ image.entry = 0 ∧
      image.words.map (fun w => (w.address, w.word)) =
        is.mapIdx fun k i => (BitVec.ofNat 16 (k % 4096), i.encode) := by
  by_cases hne : is = []
  · subst hne
    exact ⟨_, assemble_listing_nil, rfl, rfl⟩
  · obtain ⟨p, -, hlayout, hshows⟩ := Program.exists_reads_listing hne
    have hbare := Program.bare_of_shows hshows
    have hnodup := Program.nodup_labels_of_bare hbare
    have hgives : List.Forall₂ (Program.Gives p) p is := Program.gives_of_shows hshows hplain
    obtain ⟨image, ha⟩ := Program.exists_assembles_of_gives hgives
    refine ⟨image, ?_, ?_, ha.words_of_gives hbare hgives⟩
    · exact bind_eq_ok_iff.mpr ⟨_, hlayout, (Program.image_eq_ok_iff hnodup).mpr ha⟩
    · rw [ha.entry_eq, Program.start?_of_bare hbare]
      rfl

/-- The first address that is not plain reads as a label, which nothing defines. -/
theorem assemble_listing_of_not_plain {before after : List Instruction} {op : MemoryOp} {a : Address}
    {indirect : Bool} (his : is = before ++ .memory op a indirect :: after)
    (hplain : ∀ i ∈ before, i.Plain) (ha : 0xA00 ≤ a.toNat) :
    ∃ span, assemble (listing is) = .error ⟨.undefinedLabel (Hex.upper 3 a.toNat), span⟩ := by
  have hne : is ≠ [] := by simp [his]
  obtain ⟨p, hreads, hlayout, hshows⟩ := Program.exists_reads_listing hne
  have hlabels := Program.labels_of_bare (Program.bare_of_shows hshows)
  rw [his] at hshows
  obtain ⟨q, x, r, hp, hq, hx⟩ := Program.exists_split_of_forall₂ hshows
  obtain ⟨s, span, hs, hfault⟩ := hx.faults hlabels ha
  have hbefore : ∀ y ∈ q, ∀ t, y.statement? = some t → ∃ w, Program.Means p t w := by
    intro y hy t ht
    obtain ⟨i, t', ht', hw⟩ :=
      Program.exists_forall₂_iff.mp ⟨_, Program.gives_of_shows hq hplain⟩ y hy
    cases ht.symm.trans ht'
    exact ⟨_, hw⟩
  exact ⟨span, assemble_eq_error_iff.mpr
    (.inr ⟨p, hreads, hlayout, q, x, r, s, hp, hs, hfault, hbefore⟩)⟩

theorem exists_first_not_plain (h : ¬∀ i ∈ is, i.Plain) :
    ∃ before op a indirect after, is = before ++ .memory op a indirect :: after ∧
      (∀ i ∈ before, i.Plain) ∧ 0xA00 ≤ a.toNat := by
  induction is with
  | nil => exact absurd (by simp) h
  | cons i is ih =>
      by_cases hi : i.Plain
      · rw [List.forall_mem_cons, not_and] at h
        obtain ⟨before, op, a, indirect, after, rfl, hplain, ha⟩ := ih (h hi)
        exact ⟨i :: before, op, a, indirect, after, rfl, List.forall_mem_cons.mpr ⟨hi, hplain⟩, ha⟩
      · unfold Instruction.Plain at hi
        push Not at hi
        obtain ⟨op, a, indirect, rfl, ha⟩ := hi
        exact ⟨[], op, a, indirect, is, rfl, by simp, ha⟩

theorem encode_of_map_decode? {ws : List Word} (h : ws.map Instruction.decode? = is.map some) :
    ws = is.map Instruction.encode := by
  rw [← List.forall₂_eq_eq_eq, List.forall₂_map_left_iff, List.forall₂_map_right_iff] at h
  rw [← List.forall₂_eq_eq_eq, List.forall₂_map_right_iff]
  exact h.imp fun w i hw => (Instruction.encode_of_decode?_eq_some hw).symm

/-- Words that are decoded to instructions can be had back from the texts of the instructions exactly if
every address in them is plain. Else the first that is not is taken for a label. -/
theorem assemble_listing {ws : List Word} {is : List Instruction}
    (h : ws.map Instruction.decode? = is.map some) :
    ((∃ image, assemble (listing is) = .ok image) ↔ ∀ i ∈ is, i.Plain) ∧
      (∀ image, assemble (listing is) = .ok image → image.entry = 0 ∧
        image.words.map (fun w => (w.address, w.word)) =
          ws.mapIdx fun k w => (BitVec.ofNat 16 (k % 4096), w)) ∧
      ((∃ i ∈ is, ¬i.Plain) → ∃ before op a indirect after span,
        is = before ++ .memory op a indirect :: after ∧ (∀ i ∈ before, i.Plain) ∧
          0xA00 ≤ a.toNat ∧
          assemble (listing is) = .error ⟨.undefinedLabel (Hex.upper 3 a.toNat), span⟩) := by
  have hfails (hnot : ¬∀ i ∈ is, i.Plain) : ∃ before op a indirect after span,
      is = before ++ .memory op a indirect :: after ∧ (∀ i ∈ before, i.Plain) ∧ 0xA00 ≤ a.toNat ∧
        assemble (listing is) = .error ⟨.undefinedLabel (Hex.upper 3 a.toNat), span⟩ := by
    obtain ⟨before, op, a, indirect, after, his, hplain, ha⟩ := exists_first_not_plain hnot
    obtain ⟨span, herror⟩ := assemble_listing_of_not_plain his hplain ha
    exact ⟨before, op, a, indirect, after, span, his, hplain, ha, herror⟩
  have hplain_of_ok {image : Image} (hok : assemble (listing is) = .ok image) :
      ∀ i ∈ is, i.Plain := by
    by_contra hnot
    obtain ⟨_, _, _, _, _, _, -, -, -, herror⟩ := hfails hnot
    cases hok.symm.trans herror
  refine ⟨⟨fun hx => hplain_of_ok hx.choose_spec, ?_⟩, ?_, ?_⟩
  · intro hplain
    obtain ⟨image, hok, -⟩ := assemble_listing_of_plain hplain
    exact ⟨image, hok⟩
  · intro image hok
    obtain ⟨image', hok', hentry, hwords⟩ := assemble_listing_of_plain (hplain_of_ok hok)
    cases hok.symm.trans hok'
    refine ⟨hentry, ?_⟩
    rw [hwords, encode_of_map_decode? h, List.mapIdx_eq_iff]
    simp [Function.comp_def]
  · intro hnot
    exact hfails (by simpa using hnot)

theorem assemble_listing_addressAdd :
    (∃ image, assemble "ADD 005 I\nHLT" = .ok image ∧ image.entry = 0 ∧
      image.words.map (fun w => (w.address, w.word)) = [(0, 0x9005), (1, 0x7001)]) ∧
      ∃ span, assemble "CLA\nADD ADD" = .error ⟨.undefinedLabel "ADD", span⟩ := by
  have hdecoded : [0x9005, 0x7001].map Instruction.decode? =
      [.memory .add 0x005 true, .register .hlt].map some := by decide
  have htext : listing [.memory .add 0x005 true, .register .hlt] = "ADD 005 I\nHLT" := by decide
  obtain ⟨hok, hwords, -⟩ := assemble_listing hdecoded
  have hdecoded' : [0x7800, 0x1ADD].map Instruction.decode? =
      [.register .cla, .memory .add 0xADD false].map some := by decide
  have htext' : listing [.register .cla, .memory .add 0xADD false] = "CLA\nADD ADD" := by decide
  obtain ⟨-, -, hfails⟩ := assemble_listing hdecoded'
  rw [htext] at hok hwords
  rw [htext'] at hfails
  refine ⟨?_, ?_⟩
  · have hplain : ∀ i ∈ [.memory .add 0x005 true, .register .hlt], Instruction.Plain i := by
      simp [Instruction.Plain]
    obtain ⟨image, himage⟩ := hok.mpr hplain
    exact ⟨image, himage, hwords image himage⟩
  · have hnot : ∃ i ∈ [.register .cla, .memory .add 0xADD false], ¬Instruction.Plain i := by
      simp [Instruction.Plain]
    obtain ⟨before, op, a, indirect, after, span, his, -, -, herror⟩ := hfails hnot
    have ha : a = 0xADD := by
      rcases before with - | ⟨i, - | ⟨j, before⟩⟩ <;> simp at his
      exact his.2.1.2.1.symm
    subst ha
    exact ⟨span, herror⟩

end BasicComputer
