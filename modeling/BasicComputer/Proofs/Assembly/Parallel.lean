import BasicComputer.Proofs.Assembly.Encoding
import BasicComputer.Proofs.Source.Alike

/-! # Programs side by side

Two programs whose lines are the same but for spans are laid out in step, also where the second stands
some addresses further on, provided that no line of them holds an address of its own. What they are
assembled to differs by these addresses and in the spans; their errors differ in the spans only. -/

namespace BasicComputer

/-! ## Lines without addresses of their own -/

/-- The statement's word depends on no address but those of labels. -/
def Statement.Relocatable : Statement → Prop
  | .memory _ operand _ => operand.kind ≠ .number
  | _ => True

/-- The line neither sets the location counter nor names an address by its number. -/
structure Line.Relocatable (line : Line) : Prop where
  no_origin : ∀ a, line.content ≠ .origin a
  no_number : ∀ s, line.content = .word s → s.Relocatable

/-! ## The same but for spans and a distance -/

section

variable (R : Span → Span → Prop) (d : Address)

structure Binding.Alike (b b' : Binding) : Prop where
  address_eq : b'.address = b.address + d
  span : R b.span b'.span

structure Placement.Alike (p p' : Placement) : Prop where
  address_eq : p'.address = p.address + d
  span : R p.span p'.span
  statement : p.statement.Alike R p'.statement
  relocatable : d = 0 ∨ p.statement.Relocatable

structure Layout.Alike (l l' : Layout) : Prop where
  bindings : List.Forall₂ (fun b b' => b.1 = b'.1 ∧ b.2.Alike R d b'.2) l.symbols.bindings
    l'.symbols.bindings
  placements : List.Forall₂ (Placement.Alike R d) l.placements.toList l'.placements.toList
  counter_eq : l'.counter = l.counter + d
  entry_eq : l'.entry = l.entry.map (· + d)
  ended_eq : l.ended = l'.ended

/-- The lines are alike, and moving them changes nothing about them. -/
structure LineAlike (line line' : Except SourceError (List Token)) : Prop where
  agree : Agree (SourceError.Alike R) (List.Forall₂ (Token.Alike R)) line line'
  relocatable : d = 0 ∨ ∀ tokens x, line = .ok tokens → Line.read tokens = .ok x → x.Relocatable

/-- The second word is the first, with the address of a label moved. -/
def Statement.WordMoves : Statement → Word → Word → Prop
  | .memory .., w, w' => w'.indirect = w.indirect ∧ w'.opcode = w.opcode ∧ w'.address = w.address + d
  | _, w, w' => w' = w

/-- Two words of a statement, the second placed further on. -/
structure Statement.Moves (s : Statement) (w w' : PlacedWord) : Prop where
  address : ∃ a : Address, w.address = a.word ∧ w'.address = (a + d).word
  span : R w.span w'.span
  word : s.WordMoves d w.word w'.word

end

variable {R : Span → Span → Prop} {d : Address} {l l' : Layout}

/-! ## Single lines -/

theorem lookup_alike {bs bs' : List (String × Binding)}
    (h : List.Forall₂ (fun b b' => b.1 = b'.1 ∧ b.2.Alike R d b'.2) bs bs') (key : String) :
    Option.Rel (Binding.Alike R d) (bs.lookup key) (bs'.lookup key) := by
  induction h with
  | nil => exact .none
  | @cons b b' bs bs' hb _ ih =>
      obtain ⟨name, binding⟩ := b
      obtain ⟨name', binding'⟩ := b'
      obtain ⟨rfl, hbinding⟩ := hb
      simp only [List.lookup_cons]
      split
      · exact .some hbinding
      · exact ih

theorem getLastD_alike {t u : Token} {rest rest' : List Token} (ht : t.Alike R u)
    (h : List.Forall₂ (Token.Alike R) rest rest') : (rest.getLastD t).Alike R (rest'.getLastD u) := by
  induction h generalizing t u with
  | nil => exact ht
  | cons ha _ ih =>
      rw [List.getLastD_cons, List.getLastD_cons]
      exact ih ha

namespace Layout.Alike

theorem define (h : l.Alike R d l') {label label' : Option Token}
    (hl : Option.Rel (Token.Alike R) label label') :
    Agree (SourceError.Alike R) (Layout.Alike R d) (l.define label) (l'.define label') := by
  cases hl with
  | none => exact .ok h
  | @some t u ht =>
      have hlookup := lookup_alike h.bindings (upperCase t.lexeme.toList)
      simp only [Layout.define, SymbolTable.insert, SymbolTable.get?, ← ht.lexeme_eq]
      generalize l.symbols.bindings.lookup (upperCase t.lexeme.toList) = b at hlookup
      generalize l'.symbols.bindings.lookup (upperCase t.lexeme.toList) = b' at hlookup
      cases hlookup with
      | some hb => exact .error ⟨⟨rfl, hb.span⟩, ht.span⟩
      | none =>
          have hnew : Binding.Alike R d ⟨l.counter.word.address, t.span⟩
              ⟨l'.counter.word.address, u.span⟩ := by
            refine ⟨?_, ht.span⟩
            rw [Address.address_word, Address.address_word, h.counter_eq]
          exact .ok ⟨List.rel_append h.bindings (.cons ⟨rfl, hnew⟩ .nil), h.placements, h.counter_eq,
            h.entry_eq, h.ended_eq⟩

theorem enter (h : l.Alike R d l') : l.enter.Alike R d l'.enter where
  bindings := h.bindings
  placements := h.placements
  counter_eq := h.counter_eq
  entry_eq := by
    simp only [Layout.enter, h.entry_eq, h.counter_eq]
    cases l.entry <;> rfl
  ended_eq := h.ended_eq

theorem place (h : l.Alike R d l') {span span' : Span} (hspan : R span span') {line line' : Line}
    (hline : line.Alike R line') (hd : d = 0 ∨ line.Relocatable) :
    (l.place span line).Alike R d (l'.place span' line') := by
  obtain ⟨label, content⟩ := line
  obtain ⟨label', content'⟩ := line'
  obtain ⟨hlabel, hcontent⟩ := hline
  cases hcontent with
  | nothing =>
      cases hlabel with
      | none => exact h
      | some => exact h.enter
  | origin a =>
      have hzero : d = 0 := hd.resolve_right fun hr => hr.no_origin a rfl
      have hcounter : a = a + d := by simp [hzero]
      cases hlabel <;> exact ⟨h.bindings, h.placements, hcounter, h.entry_eq, h.ended_eq⟩
  | stop => cases hlabel <;> exact ⟨h.bindings, h.placements, h.counter_eq, h.entry_eq, rfl⟩
  | @word s s' hs =>
      have hplaced : Placement.Alike R d ⟨l.counter, span, s⟩ ⟨l'.counter, span', s'⟩ :=
        ⟨h.counter_eq, hspan, hs, hd.imp_right fun hr => hr.no_number s rfl⟩
      have hplacements : List.Forall₂ (Placement.Alike R d)
          (l.placements.push ⟨l.counter, span, s⟩).toList
          (l'.placements.push ⟨l'.counter, span', s'⟩).toList := by
        rw [Array.toList_push, Array.toList_push]
        exact List.rel_append h.placements (.cons hplaced .nil)
      have hcounter : l'.counter + 1 = l.counter + 1 + d := by
        rw [h.counter_eq, BitVec.add_assoc, BitVec.add_comm d, BitVec.add_assoc]
      cases hlabel <;>
        exact ⟨h.bindings, hplacements, hcounter, h.enter.entry_eq, h.ended_eq⟩

theorem extend (hR : Joins R) (h : l.Alike R d l') {line line' : Except SourceError (List Token)}
    (hline : LineAlike R d line line') :
    Agree (SourceError.Alike R) (Layout.Alike R d) (l.extend line) (l'.extend line') := by
  obtain ⟨hagree, hd⟩ := hline
  simp only [Layout.extend, ← h.ended_eq]
  split
  · exact .ok h
  · cases hagree with
    | error he => exact .error he
    | @ok tokens tokens' htokens =>
        change Agree _ _ (l.addLine tokens) (l'.addLine tokens')
        have hread := read_alike hR htokens
        cases htokens with
        | nil => exact .ok h
        | @cons first first' rest rest' hfirst hrest =>
            have hspan := hR hfirst.span (getLastD_alike hfirst hrest).span
            simp only [Layout.addLine]
            generalize hx : Line.read (first :: rest) = x at hread
            generalize Line.read (first' :: rest') = x' at hread
            cases hread with
            | error he => exact .error he
            | @ok x x' hxx' =>
                refine (h.define hxx'.label).bind fun _ _ hdefined => .ok ?_
                exact hdefined.place hspan hxx' (hd.imp_right fun hr => hr _ x rfl hx)

/-! ## All lines -/

theorem empty : Layout.empty.Alike R 0 Layout.empty :=
  ⟨.nil, .nil, rfl, rfl, rfl⟩

/-- Lines that are alike take layouts that are alike to layouts that are alike. -/
theorem foldlM (hR : Joins R) (h : l.Alike R d l')
    {lines lines' : List (Except SourceError (List Token))}
    (hlines : List.Forall₂ (LineAlike R d) lines lines') :
    Agree (SourceError.Alike R) (Layout.Alike R d) (lines.foldlM Layout.extend l)
      (lines'.foldlM Layout.extend l') :=
  Agree.foldlM (fun _ _ _ _ hl hline => hl.extend hR hline) hlines h

/-! ## Words -/

theorem resolve (h : l.Alike R d l') {t u : Token} (ht : t.Alike R u)
    (hd : d = 0 ∨ t.kind ≠ .number) :
    Agree (SourceError.Alike R) (fun w w' => w'.address = w.address + d) (l.symbols.resolve t)
      (l'.symbols.resolve u) := by
  simp only [SymbolTable.resolve, ← ht.kind_eq]
  split
  next hk =>
    obtain rfl := hd.resolve_right (not_not_intro hk)
    exact (ht.hexadecimal 0xFFF).map fun n n' hn => by simp [hn]
  next =>
    have hlookup := lookup_alike h.bindings (upperCase t.lexeme.toList)
    simp only [SymbolTable.address?, SymbolTable.get?, ← ht.lexeme_eq]
    generalize l.symbols.bindings.lookup (upperCase t.lexeme.toList) = b at hlookup
    generalize l'.symbols.bindings.lookup (upperCase t.lexeme.toList) = b' at hlookup
    cases hlookup with
    | some hb => exact .ok (by simp [hb.address_eq])
    | none => exact .error ⟨rfl, ht.span⟩

theorem wordMoves_memory (op : MemoryOp) {operand : Token} {mark mark' : Option Span} {a a' : Address}
    (hm : Option.Rel R mark mark') (ha : a' = a + d) :
    (Statement.memory op operand mark).WordMoves d (Instruction.memory op a mark.isSome).encode
      (Instruction.memory op a' mark'.isSome).encode := by
  have hmark : mark'.isSome = mark.isSome := by cases hm <;> rfl
  simp [Statement.WordMoves, Instruction.encode, hmark, ha]

theorem word (h : l.Alike R d l') {s s' : Statement} (hs : s.Alike R s')
    (hd : d = 0 ∨ s.Relocatable) :
    Agree (SourceError.Alike R) (s.WordMoves d) (s.word l.symbols) (s'.word l'.symbols) := by
  cases hs with
  | memory op ho hm =>
      rw [Statement.word_memory, Statement.word_memory]
      exact (h.resolve ho hd).map fun _ _ ha => wordMoves_memory op hm ha
  | register op hm =>
      cases hm with
      | none => exact .ok rfl
      | some hspan => exact .error ⟨rfl, hspan⟩
  | io op hm =>
      cases hm with
      | none => exact .ok rfl
      | some hspan => exact .error ⟨rfl, hspan⟩
  | decimal hl => exact hl.decimal.imp fun _ _ => Eq.symm
  | hexadecimal hl =>
      exact (hl.hexadecimal 0xFFFF).map fun _ _ hn => (congrArg (BitVec.ofNat 16) hn).symm

theorem placedWord (h : l.Alike R d l') {p p' : Placement} (hp : p.Alike R d p') :
    Agree (SourceError.Alike R) (p.statement.Moves R d) (p.word l.symbols) (p'.word l'.symbols) := by
  refine (h.word hp.statement hp.relocatable).bind fun w w' hw => .ok ⟨?_, hp.span, hw⟩
  exact ⟨p.address, rfl, by rw [hp.address_eq]⟩

/-- The images have the words of the same statements, and are entered at the same line. -/
theorem image (h : l.Alike R d l') :
    Agree (SourceError.Alike R)
      (fun image image' =>
        (image.entry = (l.entry.getD 0).word ∧ image'.entry = ((l.entry.map (· + d)).getD 0).word) ∧
          Forall₃ (fun p => p.statement.Moves R d) l.placements.toList image.words image'.words)
      l.image l'.image := by
  refine (Agree.mapM (fun _ _ hp => h.placedWord hp) h.placements).bind fun ws ws' hws => .ok ?_
  exact ⟨⟨rfl, by rw [h.entry_eq]⟩, hws⟩

end Layout.Alike

end BasicComputer
