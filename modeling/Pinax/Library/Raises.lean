import Pinax.Library.Hoare

/-! # Which errors a program can stop with

`Raises E x`: whatever state `x` is run from, an error it stops with satisfies `E`.  The instances
find this for every program that is put together from such programs.
-/

namespace Hoare

variable {ε σ α β : Type} {E : ε → Prop}

class Fails (E : ε → Prop) (r : Except ε α) : Prop where
  fails : ∀ e, r = .error e → E e

namespace Fails

instance ok {a : α} : Fails E (.ok a : Except ε α) := ⟨fun _ none => by cases none⟩
instance pure {a : α} : Fails E (pure a : Except ε α) := ⟨fun _ none => by cases none⟩

theorem error {e : ε} (h : E e) : Fails E (.error e : Except ε α) := ⟨fun e' same => by
  injection same with same
  rw [← same]
  exact h⟩

theorem bind {x : Except ε α} {f : α → Except ε β} (first : Fails E x) (rest : ∀ a, Fails E (f a)) :
    Fails E (x >>= f) := ⟨by
  intro e run
  cases step : x with
  | ok a =>
    rw [step] at run
    exact (rest a).fails e run
  | error e' =>
    rw [step] at run
    injection run with same
    rw [← same]
    exact first.fails e' step⟩

instance bind_inst {x : Except ε α} {f : α → Except ε β} [first : Fails E x]
    [rest : ∀ a, Fails E (f a)] : Fails E (x >>= f) :=
  bind first rest

instance map_inst {x : Except ε α} {f : α → β} [first : Fails E x] : Fails E (f <$> x) := ⟨by
  intro e run
  cases step : x with
  | ok a =>
    rw [step] at run
    cases run
  | error e' =>
    rw [step] at run
    injection run with same
    rw [← same]
    exact first.fails e' step⟩

instance ite_inst {c : Prop} [Decidable c] {x y : Except ε α} [left : Fails E x] [right : Fails E y] :
    Fails E (if c then x else y) := by
  split
  · exact left
  · exact right

end Fails

class Raises (E : ε → Prop) (x : EStateM ε σ α) : Prop where
  raises : ∀ s e s', x s = .error e s' → E e

namespace Raises

instance pure {a : α} : Raises E (pure a : EStateM ε σ α) := ⟨fun _ _ _ none => by cases none⟩
instance get : Raises E (get : EStateM ε σ σ) := ⟨fun _ _ _ none => by cases none⟩
instance modify {f : σ → σ} : Raises E (modify f : EStateM ε σ PUnit) := ⟨fun _ _ _ none => by cases none⟩

theorem throw {e : ε} (h : E e) : Raises E (throw e : EStateM ε σ α) := ⟨fun _ e' _ same => by
  obtain ⟨rfl, -⟩ := EStateM.Result.error.inj same
  exact h⟩

theorem bind {x : EStateM ε σ α} {f : α → EStateM ε σ β} (first : Raises E x)
    (rest : ∀ a, Raises E (f a)) :
    Raises E (x >>= f) := ⟨by
  intro s e s' run
  cases step : x s with
  | ok a t =>
    rw [bind_ok step] at run
    exact (rest a).raises t e s' run
  | error e' t =>
    rw [bind_error step] at run
    obtain ⟨rfl, -⟩ := EStateM.Result.error.inj run
    exact first.raises s e' t step⟩

instance bind_inst {x : EStateM ε σ α} {f : α → EStateM ε σ β} [first : Raises E x]
    [rest : ∀ a, Raises E (f a)] :
    Raises E (x >>= f) := bind first rest

instance ite_inst {c : Prop} [Decidable c] {x y : EStateM ε σ α} [left : Raises E x]
    [right : Raises E y] :
    Raises E (if c then x else y) := by
  split
  · exact left
  · exact right

theorem foldlM {γ : Type} {f : β → γ → EStateM ε σ β} (h : ∀ b c, Raises E (f b c)) (l : List γ) (b : β) :
    Raises E (l.foldlM f b) := by
  induction l generalizing b with
  | nil => exact pure
  | cons c l ih =>
    rw [List.foldlM_cons]
    exact bind (h b c) ih

/-- An error that the rest of a program does not stop with comes from its first part. -/
theorem bind_error_iff {x : EStateM ε σ α} {f : α → EStateM ε σ β} {e : ε} {s : σ}
    (rest : ∀ a, Raises E (f a)) (never : ¬ E e) :
    (∃ s', (x >>= f) s = .error e s') ↔ ∃ s', x s = .error e s' := by
  cases step : x s with
  | ok a t =>
    rw [bind_ok step]
    constructor
    · rintro ⟨s', run⟩
      exact absurd ((rest a).raises t e s' run) never
    · rintro ⟨s', run⟩
      cases run
  | error e' t =>
    rw [bind_error step]
    constructor
    · rintro ⟨s', run⟩
      obtain ⟨rfl, rfl⟩ := EStateM.Result.error.inj run
      exact ⟨t, rfl⟩
    · rintro ⟨s', run⟩
      obtain ⟨rfl, rfl⟩ := EStateM.Result.error.inj run
      exact ⟨t, rfl⟩

end Raises

end Hoare
