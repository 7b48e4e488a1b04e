import BasicComputer.Proofs.Assembly.Program
import Mathlib.Data.List.Induction

/-! # The first reading

The layout after some lines is determined by these lines alone. Each line takes the layout of the lines
before it to the layout of the lines with it, and is refused exactly if it cannot be read or repeats a
label. -/

namespace BasicComputer

/-! ## Single lines -/

theorem SourceLine.statement?_eq_some_iff {x : SourceLine} {s : Statement} :
    x.statement? = some s ↔ x.line.content = .word s := by
  unfold statement?
  split
  next heq => simp [heq]
  next hne =>
    refine ⟨?_, ?_⟩
    · intro h
      cases h
    · intro h
      exact absurd h (hne s)

theorem Line.Form.content_form {tokens : List Token} {line : Line} (h : line.Form tokens) :
    line.content.Form (Line.body tokens) := by
  cases h with
  | labeled hl h => simpa [Line.body, hl] using h
  | unlabeled h =>
      cases tokens with
      | nil => exact h
      | cons t rest => simpa [Line.body, h.head_ne_label] using h

theorem Line.body_subset (tokens : List Token) : Line.body tokens ⊆ tokens := by
  cases tokens with
  | nil => exact List.Subset.refl _
  | cons t rest =>
      rw [Line.body]
      split
      · exact List.subset_cons_self t rest
      · exact List.Subset.refl _

/-- An empty line leaves the layout as it is. -/
theorem Layout.extend_nil (l : Layout) : l.extend (.ok []) = .ok l := by
  unfold extend
  split <;> rfl

namespace Program

variable {p q before : List SourceLine} {x : SourceLine}

/-! ## One more line -/

theorem linesFrom_append :
    linesFrom before (p ++ q) = linesFrom before p ++ linesFrom (before ++ p) q := by
  induction p generalizing before with
  | nil => simp [linesFrom]
  | cons l p ih => simp [linesFrom, ih]

theorem linesFrom_snoc : linesFrom [] (p ++ [x]) = linesFrom [] p ++ [(p, x)] := by
  rw [linesFrom_append]
  rfl

theorem mem_linesFrom {above : List SourceLine} {l : SourceLine} :
    (above, l) ∈ linesFrom before p ↔
      ∃ between after, p = between ++ l :: after ∧ above = before ++ between := by
  induction p generalizing before with
  | nil => simp [linesFrom]
  | cons first p ih =>
      rw [linesFrom, List.mem_cons, ih]
      refine ⟨?_, ?_⟩
      · intro h
        rcases h with heq | ⟨between, after, rfl, rfl⟩
        · cases heq
          exact ⟨[], p, rfl, by simp⟩
        · exact ⟨first :: between, after, rfl, by simp⟩
      · intro h
        rcases h with ⟨between, after, hp, rfl⟩
        cases between with
        | nil =>
            cases hp
            exact .inl (by simp)
        | cons _ between =>
            cases hp
            exact .inr ⟨between, after, rfl, by simp⟩

theorem counter_of_origin {a : Address} (h : x.line.content = .origin a) :
    counter (p ++ [x]) = a := by
  simp [counter, SourceLine.origin?, h]

theorem counter_of_word {statement : Statement} (h : x.line.content = .word statement) :
    counter (p ++ [x]) = counter p + 1 := by
  have ho : x.origin? = none := by simp [SourceLine.origin?, h]
  have hs : x.statement?.isSome := by simp [SourceLine.statement?, h]
  simp only [counter, List.reverse_append, List.reverse_singleton, List.singleton_append,
    List.findSome?_cons, ho, List.takeWhile_cons, Option.isNone_none, if_true, List.countP_cons, hs]
  rw [BitVec.ofNat_add, ← BitVec.add_assoc]
  rfl

theorem counter_of_none (ho : x.origin? = none) (hs : x.statement? = none) :
    counter (p ++ [x]) = counter p := by
  simp [counter, ho, hs]

theorem placements_snoc :
    placements (p ++ [x]) =
      placements p ++ (x.statement?.map fun s => ⟨counter p, x.span, s⟩).toList := by
  rw [placements, linesFrom_snoc, List.filterMap_append]
  cases hs : x.statement? <;> simp [placements, hs]

theorem length_placements : (placements p).length = p.countP (·.statement?.isSome) := by
  induction p using List.reverseRecOn with
  | nil => rfl
  | append_singleton p x ih =>
      rw [placements_snoc, List.length_append, ih, List.countP_append]
      cases hs : x.statement? <;> simp [hs]

theorem placements_append (p q : List SourceLine) : placements p <+: placements (p ++ q) := by
  rw [placements, placements, linesFrom_append, List.filterMap_append]
  exact List.prefix_append _ _

theorem map_statement_placements :
    (placements p).map Placement.statement = p.filterMap (·.statement?) := by
  induction p using List.reverseRecOn with
  | nil => rfl
  | append_singleton p x ih =>
      rw [placements_snoc, List.map_append, ih, List.filterMap_append]
      cases hs : x.statement? <;> simp [hs]

theorem map_span_placements :
    (placements p).map Placement.span = (p.filter (·.statement?.isSome)).map SourceLine.span := by
  induction p using List.reverseRecOn with
  | nil => rfl
  | append_singleton p x ih =>
      rw [placements_snoc, List.map_append, ih, List.filter_append, List.map_append]
      cases hs : x.statement? <;> simp [hs]

theorem findSome?_placements {α : Type} (f : Statement → Option α) :
    (placements p).findSome? (f ·.statement) = p.findSome? fun x => x.statement?.bind f := by
  induction p using List.reverseRecOn with
  | nil => rfl
  | append_singleton p x ih =>
      rw [placements_snoc, List.findSome?_append, List.findSome?_append, ih]
      cases hs : x.statement? <;> simp [hs]

theorem start?_snoc :
    start? (p ++ [x]) = if x.canEnter then some ((start? p).getD (counter p)) else start? p := by
  rw [start?, linesFrom_snoc, List.find?_append, start?]
  cases (linesFrom [] p).find? (·.2.canEnter) <;> cases hx : x.canEnter <;> simp [hx]

theorem start?_eq_none_iff : start? p = none ↔ ∀ x ∈ p, x.canEnter = false := by
  induction p using List.reverseRecOn with
  | nil => simp [start?, linesFrom]
  | append_singleton p x ih =>
      rw [start?_snoc]
      cases hx : x.canEnter <;> simp [ih, hx, or_imp, forall_and]

/-! ## Layouts -/

/-- The label that a line defines, bound to the address after the lines before it. -/
def binding? (before : List SourceLine) (l : SourceLine) : Option (String × Binding) :=
  l.line.label.map fun label => (upperCase label.lexeme.toList, ⟨counter before, label.span⟩)

def bindings (p : List SourceLine) : List (String × Binding) :=
  (linesFrom [] p).filterMap fun (before, l) => binding? before l

/-- The layout of these lines. -/
def layout (p : List SourceLine) : Layout where
  symbols := ⟨bindings p⟩
  placements := (placements p).toArray
  counter := counter p
  entry := start? p
  ended := p.any (·.line.content == .stop)

theorem layout_nil : layout [] = .empty := rfl

theorem bindings_snoc : bindings (p ++ [x]) = bindings p ++ (binding? p x).toList := by
  rw [bindings, linesFrom_snoc, List.filterMap_append]
  cases hb : binding? p x <;> simp [bindings, hb]

theorem map_fst_binding? (before : List SourceLine) (x : SourceLine) :
    (binding? before x).map Prod.fst = x.label? := by
  simp only [binding?, SourceLine.label?, Option.map_map]
  rfl

theorem map_fst_bindings : (bindings p).map Prod.fst = labels p := by
  suffices h : ∀ before, ((linesFrom before p).filterMap fun (above, l) => binding? above l).map
      Prod.fst = labels p from h []
  induction p with
  | nil => intro before; rfl
  | cons l p ih =>
      intro before
      have hl := map_fst_binding? before l
      simp only [linesFrom, List.filterMap_cons, labels]
      cases hb : binding? before l with
      | none =>
          rw [hb] at hl
          simpa [← hl, labels] using ih (before ++ [l])
      | some b =>
          rw [hb] at hl
          simpa [← hl, labels] using ih (before ++ [l])

/-- What a line does besides defining its label. -/
theorem layout_snoc :
    layout (p ++ [x]) =
      { layout p with symbols := ⟨bindings (p ++ [x])⟩ }.place x.span x.line := by
  cases hc : x.line.content with
  | nothing =>
      have hs : x.statement? = none := by simp [SourceLine.statement?, hc]
      have hcounter : counter (p ++ [x]) = counter p :=
        counter_of_none (by simp [SourceLine.origin?, hc]) hs
      obtain ⟨tokens, label, content⟩ := x
      subst hc
      cases label <;>
        simp [layout, Layout.place, Layout.enter, placements_snoc, start?_snoc, hs, hcounter,
          SourceLine.canEnter]
  | origin a =>
      have hs : x.statement? = none := by simp [SourceLine.statement?, hc]
      have hcounter : counter (p ++ [x]) = a := counter_of_origin hc
      obtain ⟨tokens, label, content⟩ := x
      subst hc
      simp [layout, Layout.place, placements_snoc, start?_snoc, hs, hcounter, SourceLine.canEnter]
  | stop =>
      have hs : x.statement? = none := by simp [SourceLine.statement?, hc]
      have hcounter : counter (p ++ [x]) = counter p :=
        counter_of_none (by simp [SourceLine.origin?, hc]) hs
      obtain ⟨tokens, label, content⟩ := x
      subst hc
      simp [layout, Layout.place, placements_snoc, start?_snoc, hs, hcounter, SourceLine.canEnter]
  | word statement =>
      have hs : x.statement? = some statement := by simp [SourceLine.statement?, hc]
      have hcounter : counter (p ++ [x]) = counter p + 1 := counter_of_word hc
      obtain ⟨tokens, label, content⟩ := x
      subst hc
      simp [layout, Layout.place, Layout.enter, placements_snoc, start?_snoc, hs, hcounter,
        SourceLine.canEnter]

theorem labels_snoc : labels (p ++ [x]) = labels p ++ x.label?.toList := by
  cases h : x.label? <;> simp [labels, h]

theorem lookup_bindings_eq_none_iff {key : String} :
    (bindings p).lookup key = none ↔ key ∉ labels p := by
  rw [List.lookup_eq_none_iff, ← map_fst_bindings]
  simp only [List.mem_map, not_exists, not_and, bne_iff_ne]
  exact forall₂_congr fun b _ => ne_comm

/-- A line's label is accepted unless a line before has it already. -/
theorem define_eq_ok_iff (h : (labels p).Nodup) {l : Layout} :
    (layout p).define x.line.label = .ok l ↔
      (labels (p ++ [x])).Nodup ∧ l = { layout p with symbols := ⟨bindings (p ++ [x])⟩ } := by
  cases hl : x.line.label with
  | none =>
      have hnone : x.label? = none := by simp [SourceLine.label?, hl]
      have hbinding : binding? p x = none := by simp [binding?, hl]
      simp [labels_snoc, bindings_snoc, hnone, hbinding, h, Layout.define, layout, eq_comm]
  | some label =>
      have hsome : x.label? = some (upperCase label.lexeme.toList) := by
        simp [SourceLine.label?, hl]
      have hbinding : binding? p x =
          some (upperCase label.lexeme.toList, ⟨counter p, label.span⟩) := by simp [binding?, hl]
      have hnodup : (labels (p ++ [x])).Nodup ↔
          (bindings p).lookup (upperCase label.lexeme.toList) = none := by
        rw [lookup_bindings_eq_none_iff, labels_snoc, hsome, Option.toList_some]
        refine ⟨?_, ?_⟩
        · intro hnodup hmem
          exact (List.nodup_append.mp hnodup).2.2 _ hmem _ (by simp) rfl
        · intro hfresh
          refine List.nodup_append.mpr ⟨h, by simp, ?_⟩
          rintro a ha b hb rfl
          exact hfresh (by simpa using List.mem_singleton.mp hb ▸ ha)
      rw [hnodup]
      simp only [Layout.define, SymbolTable.insert, SymbolTable.get?, layout]
      cases hlookup : (bindings p).lookup (upperCase label.lexeme.toList) with
      | none => simp [bindings_snoc, hbinding, eq_comm]
      | some b => simp

/-- A line is refused exactly if it cannot be read or repeats a label. -/
theorem addLine_eq_ok_iff (h : (labels p).Nodup) {tokens : List Token} {l : Layout} :
    (layout p).addLine tokens = .ok l ↔
      ∃ line, Line.read tokens = .ok line ∧ (labels (p ++ [⟨tokens, line⟩])).Nodup ∧
        l = layout (p ++ [⟨tokens, line⟩]) := by
  have hstep (line : Line) : ((layout p).define line.label >>= fun l' =>
        pure (l'.place (SourceLine.span ⟨tokens, line⟩) line)) = .ok l ↔
      (labels (p ++ [⟨tokens, line⟩])).Nodup ∧ l = layout (p ++ [⟨tokens, line⟩]) := by
    have hdefine {l' : Layout} := define_eq_ok_iff (x := ⟨tokens, line⟩) h (l := l')
    simp only [bind_eq_ok_iff, pure_eq_ok_iff, hdefine, layout_snoc]
    refine ⟨?_, ?_⟩
    · intro hx
      rcases hx with ⟨l', ⟨hnodup, rfl⟩, rfl⟩
      exact ⟨hnodup, rfl⟩
    · intro hx
      rcases hx with ⟨hnodup, rfl⟩
      exact ⟨_, ⟨hnodup, rfl⟩, rfl⟩
  cases tokens with
  | nil =>
      have hline (line : Line) : Line.read [] = .ok line ↔ line = ⟨none, .nothing⟩ := by
        simp [Line.read, eq_comm]
      have hempty := hstep ⟨none, .nothing⟩
      simp only [hline, exists_eq_left, ← hempty]
      rfl
  | cons first rest =>
      rw [Layout.addLine, bind_eq_ok_iff]
      exact exists_congr fun line => and_congr_right fun _ => hstep line

/-! ## All lines -/

theorem content_eq_stop_iff {tokens : List Token} {content : Content}
    (h : Content.read tokens = .ok content) :
    content = .stop ↔ tokens.head?.any (·.kind == .directive .stop) = true := by
  cases tokens with
  | nil =>
      cases h
      simp
  | cons head rest =>
      cases hh : head.kind with
      | mnemonic m =>
          obtain ⟨-, statement, -, rfl⟩ := (read_mnemonic_eq_ok_iff hh).mp h
          simp [hh]
      | directive d =>
          obtain ⟨-, hc⟩ := (read_directive_eq_ok_iff hh).mp h
          cases d with
          | stop =>
              simp only [Directive.content] at hc
              split at hc
              · cases hc
                simp [hh]
              · cases hc
          | org =>
              simp only [Directive.content, bind_eq_ok_iff, pure_eq_ok_iff] at hc
              obtain ⟨-, -, -, -, rfl⟩ := hc
              simp [hh]
          | dec | hex =>
              simp only [Directive.content, bind_eq_ok_iff, pure_eq_ok_iff] at hc
              obtain ⟨-, -, rfl⟩ := hc
              simp [hh]
      | identifier | label | number | comment | gap | newline => simp [Content.read, hh] at h

theorem ends_iff {t : TextLine} {tokens : List Token} {line : Line} (ht : t.tokens = .ok tokens)
    (h : Line.read tokens = .ok line) : t.ends = true ↔ line.content = .stop := by
  simp only [TextLine.ends, ht]
  cases tokens with
  | nil =>
      cases h
      simp [Line.body]
  | cons first rest =>
      by_cases hl : first.kind = .label
      · obtain ⟨content, hc, rfl⟩ := (Line.read_label_eq_ok_iff hl).mp h
        rw [Line.body, if_pos hl, content_eq_stop_iff hc]
      · obtain ⟨content, hc, rfl⟩ := (Line.read_unlabeled_eq_ok_iff hl).mp h
        rw [Line.body, if_neg hl, content_eq_stop_iff hc]

theorem foldlM_extend_of_ended {l : Layout} (h : l.ended = true)
    (lines : List (Except SourceError (List Token))) : lines.foldlM Layout.extend l = .ok l := by
  induction lines with
  | nil => rfl
  | cons line lines ih =>
      have hstep : l.extend line = .ok l := if_pos h
      rw [List.foldlM_cons, hstep]
      exact ih

/-- An error at a line that is looked at is the end in any case. -/
theorem foldlM_extend_throughError (l : Layout) (lines : List (Except SourceError (List Token))) :
    (Scan.throughError lines).foldlM Layout.extend l = lines.foldlM Layout.extend l := by
  induction lines generalizing l with
  | nil => rfl
  | cons line lines ih =>
      cases line with
      | ok tokens =>
          simp only [Scan.throughError, List.foldlM_cons, ih]
      | error e =>
          rw [Scan.throughError]
          cases h : l.ended with
          | true => rw [foldlM_extend_of_ended h, foldlM_extend_of_ended h]
          | false =>
              have hstep : l.extend (.error e) = .error e := by simp [Layout.extend, h]; rfl
              simp only [List.foldlM_cons, hstep]
              rfl

theorem ended_of_extend {l l' : Layout} {t : TextLine} (ht : t.ends = true)
    (h : l.extend t.tokens = .ok l') : l'.ended = true := by
  unfold Layout.extend at h
  split at h
  next hended =>
    cases h
    exact hended
  next =>
    obtain ⟨tokens, htokens, h⟩ := bind_eq_ok_iff.mp h
    cases tokens with
    | nil => simp [TextLine.ends, htokens, Line.body] at ht
    | cons first rest =>
        simp only [Layout.addLine, bind_eq_ok_iff, pure_eq_ok_iff] at h
        obtain ⟨⟨label, content⟩, hread, next, -, rfl⟩ := h
        obtain rfl : content = .stop := (ends_iff htokens hread).mp ht
        cases label <;> rfl

/-- Lines behind the end of the program are not looked at. -/
theorem foldlM_extend_throughEnd (l : Layout) (lines : List TextLine) :
    ((TextLine.throughEnd lines).map TextLine.tokens).foldlM Layout.extend l =
      (lines.map TextLine.tokens).foldlM Layout.extend l := by
  induction lines generalizing l with
  | nil => rfl
  | cons t lines ih =>
      rw [TextLine.throughEnd]
      split
      next ht =>
        rw [List.map_singleton, List.map_cons, List.foldlM_cons, List.foldlM_cons]
        cases hstep : l.extend t.tokens with
        | error e => rfl
        | ok next => exact (foldlM_extend_of_ended (ended_of_extend ht hstep) _).symm
      next => simp only [List.map_cons, List.foldlM_cons, ih]

/-- The line reads as the tokens and the line that the text has there. -/
def ReadsAs (x : SourceLine) (t : TextLine) : Prop :=
  t.tokens = .ok x.tokens ∧ Line.read x.tokens = .ok x.line

/-- A line of a text reads in one way only. -/
theorem readsAs_unique : Relator.LeftUnique ReadsAs := by
  intro x y t hx hy
  obtain ⟨tokens, line⟩ := x
  obtain ⟨tokens', line'⟩ := y
  cases hx.1.symm.trans hy.1
  cases hx.2.symm.trans hy.2
  rfl

theorem ended_snoc (he : (layout p).ended = false) {t : TextLine} (hx : ReadsAs x t) :
    (layout (p ++ [x])).ended = t.ends := by
  have hends := ends_iff hx.1 hx.2
  have hended : (layout (p ++ [x])).ended = (x.line.content == .stop) := by
    simp only [layout] at he
    simp [layout, he]
  rw [hended, Bool.eq_iff_iff, hends, beq_iff_eq]

theorem extend_eq_ok_iff (h : (labels p).Nodup) (he : (layout p).ended = false) {t : TextLine}
    {l : Layout} :
    (layout p).extend t.tokens = .ok l ↔
      ∃ x, ReadsAs x t ∧ (labels (p ++ [x])).Nodup ∧ l = layout (p ++ [x]) := by
  rw [Layout.extend, he, if_neg Bool.false_ne_true, bind_eq_ok_iff]
  refine ⟨?_, ?_⟩
  · intro hx
    rcases hx with ⟨tokens, ht, hl⟩
    obtain ⟨line, hread, hnodup, rfl⟩ := (addLine_eq_ok_iff h).mp hl
    exact ⟨⟨tokens, line⟩, ⟨ht, hread⟩, hnodup, rfl⟩
  · intro hx
    rcases hx with ⟨x, ⟨ht, hread⟩, hnodup, rfl⟩
    exact ⟨x.tokens, ht, (addLine_eq_ok_iff h).mpr ⟨x.line, hread, hnodup, rfl⟩⟩

/-- Lines are laid out exactly if, up to the end of the program, they can all be read and define
no label twice. -/
theorem foldlM_extend_eq_ok_iff {lines : List TextLine} (h : (labels p).Nodup)
    (he : (layout p).ended = false) {l : Layout} :
    (lines.map TextLine.tokens).foldlM Layout.extend (layout p) = .ok l ↔
      ∃ q, List.Forall₂ ReadsAs q (TextLine.throughEnd lines) ∧ (labels (p ++ q)).Nodup ∧
        l = layout (p ++ q) := by
  induction lines generalizing p with
  | nil => simp [TextLine.throughEnd, h, pure_eq_ok_iff]
  | cons t lines ih =>
      rw [List.map_cons, List.foldlM_cons, bind_eq_ok_iff]
      simp only [extend_eq_ok_iff h he]
      cases hends : t.ends with
      | true =>
          -- Nothing behind this line is looked at.
          have hlast : TextLine.throughEnd (t :: lines) = [t] := by simp [TextLine.throughEnd, hends]
          rw [hlast]
          refine ⟨?_, ?_⟩
          · intro hy
            rcases hy with ⟨_, ⟨x, hx, hnodup, rfl⟩, hl⟩
            rw [foldlM_extend_of_ended ((ended_snoc he hx).trans hends)] at hl
            cases hl
            exact ⟨[x], .cons hx .nil, hnodup, rfl⟩
          · intro hy
            rcases hy with ⟨q, hq, hnodup, rfl⟩
            obtain ⟨x, q', hx, hq', rfl⟩ := List.forall₂_cons_right_iff.mp hq
            obtain rfl := List.forall₂_nil_right_iff.mp hq'
            exact ⟨_, ⟨x, hx, hnodup, rfl⟩,
              foldlM_extend_of_ended ((ended_snoc he hx).trans hends) _⟩
      | false =>
          have hgo : TextLine.throughEnd (t :: lines) = t :: TextLine.throughEnd lines := by
            simp [TextLine.throughEnd, hends]
          rw [hgo]
          refine ⟨?_, ?_⟩
          · intro hy
            rcases hy with ⟨_, ⟨x, hx, hnodup, rfl⟩, hl⟩
            obtain ⟨q, hq, hnodup', rfl⟩ := (ih hnodup ((ended_snoc he hx).trans hends)).mp hl
            refine ⟨x :: q, .cons hx hq, ?_, ?_⟩
            · simpa using hnodup'
            · simp
          · intro hy
            rcases hy with ⟨q, hq, hnodup, rfl⟩
            obtain ⟨x, q', hx, hq', rfl⟩ := List.forall₂_cons_right_iff.mp hq
            have hsplit := List.append_cons p x q'
            rw [hsplit] at hnodup
            have hnodup' : (labels (p ++ [x])).Nodup := by
              rw [labels, List.filterMap_append] at hnodup
              exact (List.nodup_append.mp hnodup).1
            exact ⟨_, ⟨x, hx, hnodup', rfl⟩, (ih hnodup' ((ended_snoc he hx).trans hends)).mpr
              ⟨q', hq', hnodup, congrArg layout hsplit⟩⟩

/-- The first reading takes the lines of the text one by one. -/
theorem layOut_eq_foldlM (source : String) :
    layOut source =
      ((TextLine.ofText 0 source.toList).map TextLine.tokens).foldlM Layout.extend .empty := by
  rw [layOut, Layout.ofLines, scan, Scan.lines_scanFrom, foldlM_extend_throughError]

/-- The first reading succeeds exactly if every line of the program can be read and no label is defined
twice, and gives the layout of these lines. -/
theorem layOut_eq_ok_iff {source : String} {l : Layout} :
    layOut source = .ok l ↔
      ∃ p, List.Forall₂ ReadsAs p
          (TextLine.throughEnd (TextLine.ofText 0 source.toList)) ∧
        (labels p).Nodup ∧ l = layout p := by
  have hnodup : (labels []).Nodup := List.nodup_nil
  rw [layOut_eq_foldlM, ← layout_nil, foldlM_extend_eq_ok_iff hnodup rfl]
  rfl

end Program

end BasicComputer
