import Mathlib.Data.List.Forall2

/-! # Computations that may fail

When a sequence of computations succeeds, and with what. -/

namespace BasicComputer

universe u

variable {ε α β : Type u}

theorem bind_eq_ok_iff {x : Except ε α} {f : α → Except ε β} {b : β} :
    x >>= f = .ok b ↔ ∃ a, x = .ok a ∧ f a = .ok b := by
  cases x <;> simp [bind, Except.bind]

theorem bind_eq_error_iff {x : Except ε α} {f : α → Except ε β} {e : ε} :
    x >>= f = .error e ↔ x = .error e ∨ ∃ a, x = .ok a ∧ f a = .error e := by
  cases x <;> simp [bind, Except.bind]

theorem map_eq_error_iff {x : Except ε α} {f : α → β} {e : ε} :
    x.map f = .error e ↔ x = .error e := by
  cases x <;> simp [Except.map]

theorem map_eq_ok_iff {x : Except ε α} {f : α → β} {b : β} :
    x.map f = .ok b ↔ ∃ a, x = .ok a ∧ b = f a := by
  cases x <;> simp [Except.map, eq_comm]

theorem pure_eq_ok_iff {a b : α} : (pure a : Except ε α) = .ok b ↔ b = a := by
  simp [pure, Except.pure, eq_comm]

theorem forall₂_iff_map_eq {γ : Type u} {f : α → γ} {g : β → γ} {l : List α} {l' : List β} :
    List.Forall₂ (fun a b => f a = g b) l l' ↔ l.map f = l'.map g := by
  rw [← List.forall₂_eq_eq_eq, List.forall₂_map_left_iff, List.forall₂_map_right_iff]

/-- A list of computations succeeds exactly if each of them does. -/
theorem mapM_eq_ok_iff {f : α → Except ε β} {l : List α} {l' : List β} :
    l.mapM f = .ok l' ↔ List.Forall₂ (fun a b => f a = .ok b) l l' := by
  induction l generalizing l' with
  | nil => rw [List.mapM_nil, pure_eq_ok_iff, List.forall₂_nil_left_iff]
  | cons a l ih =>
      simp only [List.mapM_cons, bind_eq_ok_iff, pure_eq_ok_iff, List.forall₂_cons_left_iff, ih]
      refine ⟨?_, ?_⟩
      · intro h
        rcases h with ⟨b, hb, bs, hbs, rfl⟩
        exact ⟨b, bs, hb, hbs, rfl⟩
      · intro h
        rcases h with ⟨b, bs, hb, hbs, rfl⟩
        exact ⟨b, hb, bs, hbs, rfl⟩

/-- Why a computation fails. -/
def errorOf? : Except ε α → Option ε
  | .ok _ => none
  | .error e => some e

@[simp] theorem errorOf?_ok (a : α) : errorOf? (.ok a : Except ε α) = none := rfl

@[simp] theorem errorOf?_error (e : ε) : errorOf? (.error e : Except ε α) = some e := rfl

theorem errorOf?_eq_some_iff {x : Except ε α} {e : ε} : errorOf? x = some e ↔ x = .error e := by
  cases x <;> simp

theorem errorOf?_eq_none_iff {x : Except ε α} : errorOf? x = none ↔ ∃ a, x = .ok a := by
  cases x <;> simp

/-- A list of computations fails as the first of them that fails. -/
theorem mapM_eq_error_iff {f : α → Except ε β} {l : List α} {e : ε} :
    l.mapM f = .error e ↔ l.findSome? (fun a => errorOf? (f a)) = some e := by
  induction l with
  | nil => simp [pure, Except.pure]
  | cons a l ih =>
      rw [List.mapM_cons, List.findSome?_cons, bind_eq_error_iff]
      cases f a with
      | error e' => simp
      | ok b => cases hl : l.mapM f <;> simp [← ih, hl, pure, Except.pure, bind, Except.bind]

/-! ## Side by side -/

/-- Both computations succeed, with related results, or both fail, for related reasons. -/
inductive Agree {γ : Type u} (E : ε → ε → Prop) (A : α → γ → Prop) : Except ε α → Except ε γ → Prop
  | ok {a : α} {c : γ} (h : A a c) : Agree E A (.ok a) (.ok c)
  | error {e e' : ε} (h : E e e') : Agree E A (.error e) (.error e')

/-- The members of three lists, one of each at a time, are related. -/
inductive Forall₃ {γ : Type u} (P : α → β → γ → Prop) : List α → List β → List γ → Prop
  | nil : Forall₃ P [] [] []
  | cons {a : α} {b : β} {c : γ} {as : List α} {bs : List β} {cs : List γ} (h : P a b c)
      (ht : Forall₃ P as bs cs) : Forall₃ P (a :: as) (b :: bs) (c :: cs)

theorem Forall₃.forall₂ {γ : Type u} {P : α → β → γ → Prop} {Q : β → γ → Prop} {as : List α}
    {bs : List β} {cs : List γ} (h : Forall₃ P as bs cs) (hQ : ∀ a b c, P a b c → Q b c) :
    List.Forall₂ Q bs cs := by
  induction h with
  | nil => exact .nil
  | cons hp _ ih => exact .cons (hQ _ _ _ hp) ih

theorem Forall₃.map_left {γ ζ : Type u} {P : ζ → β → γ → Prop} {f : α → ζ} {as : List α} {bs : List β}
    {cs : List γ} (h : Forall₃ (fun a => P (f a)) as bs cs) : Forall₃ P (as.map f) bs cs := by
  induction h with
  | nil => exact .nil
  | cons hp _ ih => exact .cons hp ih

section

variable {γ δ : Type u} {E : ε → ε → Prop} {A : α → γ → Prop} {B : β → δ → Prop}

theorem Agree.bind {x : Except ε α} {y : Except ε γ} {f : α → Except ε β} {g : γ → Except ε δ}
    (h : Agree E A x y) (hfg : ∀ a c, A a c → Agree E B (f a) (g c)) :
    Agree E B (x >>= f) (y >>= g) := by
  cases h with
  | ok h => exact hfg _ _ h
  | error h => exact .error h

theorem Agree.imp {x : Except ε α} {y : Except ε γ} {A' : α → γ → Prop} (h : Agree E A x y)
    (hA : ∀ a c, A a c → A' a c) : Agree E A' x y := by
  cases h with
  | ok h => exact .ok (hA _ _ h)
  | error h => exact .error h

theorem Agree.imp_error {x : Except ε α} {y : Except ε γ} {E' : ε → ε → Prop} (h : Agree E A x y)
    (hE : ∀ e e', E e e' → E' e e') : Agree E' A x y := by
  cases h with
  | ok h => exact .ok h
  | error h => exact .error (hE _ _ h)

theorem Agree.refl {A : α → α → Prop} (hE : ∀ e, E e e) (hA : ∀ a, A a a) (x : Except ε α) :
    Agree E A x x := by
  cases x with
  | ok a => exact .ok (hA a)
  | error e => exact .error (hE e)

theorem Agree.map {x : Except ε α} {y : Except ε γ} {f : α → β} {g : γ → δ} (h : Agree E A x y)
    (hfg : ∀ a c, A a c → B (f a) (g c)) : Agree E B (x.map f) (y.map g) := by
  cases h with
  | ok h => exact .ok (hfg _ _ h)
  | error h => exact .error h

/-- Computations that agree step by step agree as a whole. -/
theorem Agree.foldlM {ζ η : Type u} {Z : ζ → η → Prop} {f : ζ → α → Except ε ζ}
    {g : η → γ → Except ε η} (hfg : ∀ z w a c, Z z w → A a c → Agree E Z (f z a) (g w c))
    {l : List α} {l' : List γ} (hl : List.Forall₂ A l l') {z : ζ} {w : η} (hz : Z z w) :
    Agree E Z (l.foldlM f z) (l'.foldlM g w) := by
  induction hl generalizing z w with
  | nil => exact .ok hz
  | cons ha _ ih => exact (hfg _ _ _ _ hz ha).bind fun _ _ hz' => ih hz'

/-- Agreement of the computations member by member, where the relation of the results may depend on the
member. -/
theorem Agree.mapM {P : α → β → δ → Prop} {f : α → Except ε β} {g : γ → Except ε δ}
    (hfg : ∀ a c, A a c → Agree E (P a) (f a) (g c)) {l : List α} {l' : List γ}
    (hl : List.Forall₂ A l l') : Agree E (Forall₃ P l) (l.mapM f) (l'.mapM g) := by
  induction hl with
  | nil => exact .ok .nil
  | cons ha _ ih =>
      simp only [List.mapM_cons]
      exact (hfg _ _ ha).bind fun _ _ hb => ih.bind fun _ _ hbs => .ok (.cons hb hbs)

end

end BasicComputer
