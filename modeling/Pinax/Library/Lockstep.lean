import Pinax.Library.Hoare

/-! # Two programs in lockstep

`Lockstep esc E R x y`: from states related by `R`, the program `y` does what `x` does.  It returns
the same value or throws the same error, and the states stay related; unless `x` gives up with an
error in `E`, or escapes.  The instances find this for all programs that are put together alike.
-/

namespace Hoare

variable {ε σ τ α β : Type} {esc : σ → Prop} {E : ε → Prop} {R : σ → τ → Prop}

/-- The runs of two programs that stayed in lockstep until the first one gave up. -/
inductive Alike (E : ε → Prop) (R : σ → τ → Prop) : EStateM.Result ε σ α → EStateM.Result ε τ α → Prop
  | ok {a : α} {s : σ} {t : τ} : R s t → Alike E R (.ok a s) (.ok a t)
  | error {e : ε} {s : σ} {t : τ} : R s t → Alike E R (.error e s) (.error e t)
  | gaveUp {e : ε} {s : σ} {r : EStateM.Result ε τ α} : E e → Alike E R (.error e s) r

class Lockstep (esc : σ → Prop) (E : ε → Prop) (R : σ → τ → Prop) (x : EStateM ε σ α)
    (y : EStateM ε τ α) : Prop where
  stable : ∀ s, esc s → esc (final (x s))
  runs : ∀ s t, R s t → esc (final (x s)) ∨ Alike E R (x s) (y t)

namespace Lockstep

instance pure {a : α} : Lockstep esc E R (pure a : EStateM ε σ α) (pure a : EStateM ε τ α) where
  stable := fun _ escaped => escaped
  runs := fun _ _ related => Or.inr (.ok related)

instance throw {e : ε} : Lockstep esc E R (throw e : EStateM ε σ α) (throw e : EStateM ε τ α) where
  stable := fun _ escaped => escaped
  runs := fun _ _ related => Or.inr (.error related)

theorem giveUp {e : ε} {y : EStateM ε τ α} (h : E e) :
    Lockstep esc E R (MonadExcept.throw e : EStateM ε σ α) y where
  stable := fun _ escaped => escaped
  runs := fun _ _ _ => Or.inr (.gaveUp h)

/-- A program beside itself. -/
theorem same {x : EStateM ε σ α} : Lockstep (fun _ => False) E Eq x x where
  stable := fun _ none => none
  runs := by
    rintro s t rfl
    cases x s with
    | ok a s' => exact Or.inr (.ok rfl)
    | error e s' => exact Or.inr (.error rfl)

/-- Programs that never escape, for states that stay escaped. -/
theorem escaping {x : EStateM ε σ α} {y : EStateM ε τ α} (h : Lockstep (fun _ => False) E R x y)
    (stable : ∀ s, esc s → esc (final (x s))) : Lockstep esc E R x y where
  stable := stable
  runs := fun s t related => (h.runs s t related).imp False.elim id

theorem modify {f : σ → σ} {g : τ → τ} (keeps : ∀ s, esc s → esc (f s))
    (h : ∀ s t, R s t → R (f s) (g t)) :
    Lockstep esc E R (modify f : EStateM ε σ PUnit) (modify g : EStateM ε τ PUnit) where
  stable := keeps
  runs := fun s t related => Or.inr (.ok (h s t related))

/-- Programs that look at their states first. -/
theorem getBind {f : σ → EStateM ε σ α} {g : τ → EStateM ε τ α}
    (stable : ∀ s, esc s → esc (final (f s s)))
    (h : ∀ s t, R s t → esc (final (f s s)) ∨ Alike E R (f s s) (g t t)) :
    Lockstep esc E R (MonadState.get >>= f : EStateM ε σ α) (MonadState.get >>= g : EStateM ε τ α) where
  stable := stable
  runs := h

/-- A program that goes on from an escaped state, or from states related after equal values. -/
theorem bind_runs {x : EStateM ε σ α} {y : EStateM ε τ α} {f : α → EStateM ε σ β}
    {g : α → EStateM ε τ β} {s : σ} {t : τ} (stable : ∀ a s, esc s → esc (final (f a s)))
    (first : esc (final (x s)) ∨ Alike E R (x s) (y t))
    (rest : ∀ a s' t', x s = .ok a s' → R s' t' → esc (final (f a s')) ∨ Alike E R (f a s') (g a t')) :
    esc (final ((x >>= f) s)) ∨ Alike E R ((x >>= f) s) ((y >>= g) t) := by
  cases run : x s with
  | ok a s' =>
    rw [bind_ok run]
    rw [run] at first
    cases first with
    | inl escaped => exact Or.inl (stable a s' escaped)
    | inr alike =>
      generalize second : y t = r at alike
      cases alike with
      | ok related =>
        rw [bind_ok second]
        exact rest a s' _ run related
  | error e s' =>
    rw [bind_error run]
    rw [run] at first
    cases first with
    | inl escaped => exact Or.inl escaped
    | inr alike =>
      generalize second : y t = r at alike
      cases alike with
      | error related =>
        rw [bind_error second]
        exact Or.inr (.error related)
      | gaveUp h => exact Or.inr (.gaveUp h)

theorem bind_stable {x : EStateM ε σ α} {f : α → EStateM ε σ β} (first : ∀ s, esc s → esc (final (x s)))
    (rest : ∀ a s, esc s → esc (final (f a s))) (s : σ) (escaped : esc s) :
    esc (final ((x >>= f) s)) := by
  have after := first s escaped
  cases run : x s with
  | ok a s' =>
    rw [run] at after
    rw [bind_ok run]
    exact rest a s' after
  | error e s' =>
    rw [run] at after
    rw [bind_error run]
    exact after

theorem bind {x : EStateM ε σ α} {y : EStateM ε τ α} {f : α → EStateM ε σ β} {g : α → EStateM ε τ β}
    (first : Lockstep esc E R x y) (rest : ∀ a, Lockstep esc E R (f a) (g a)) :
    Lockstep esc E R (x >>= f) (y >>= g) where
  stable := bind_stable first.stable fun a => (rest a).stable
  runs := fun s t related =>
    bind_runs (fun a => (rest a).stable) (first.runs s t related) fun a s' t' _ related' =>
      (rest a).runs s' t' related'

instance bind_inst {x : EStateM ε σ α} {y : EStateM ε τ α} {f : α → EStateM ε σ β} {g : α → EStateM ε τ β}
    [first : Lockstep esc E R x y] [rest : ∀ a, Lockstep esc E R (f a) (g a)] :
    Lockstep esc E R (x >>= f) (y >>= g) :=
  bind first rest

theorem ite {c : Prop} [Decidable c] {x x' : EStateM ε σ α} {y y' : EStateM ε τ α}
    (left : Lockstep esc E R x y) (right : Lockstep esc E R x' y') :
    Lockstep esc E R (if c then x else x') (if c then y else y') := by
  split
  · exact left
  · exact right

instance ite_inst {c : Prop} [Decidable c] {x x' : EStateM ε σ α} {y y' : EStateM ε τ α}
    [left : Lockstep esc E R x y] [right : Lockstep esc E R x' y'] :
    Lockstep esc E R (if c then x else x') (if c then y else y') := ite left right

theorem foldlM {γ : Type} {f : β → γ → EStateM ε σ β} {g : β → γ → EStateM ε τ β}
    (h : ∀ b c, Lockstep esc E R (f b c) (g b c)) (l : List γ) (b : β) :
    Lockstep esc E R (l.foldlM f b) (l.foldlM g b) := by
  induction l generalizing b with
  | nil => exact pure
  | cons c l ih =>
    rw [List.foldlM_cons, List.foldlM_cons]
    exact bind (h b c) ih

end Lockstep

/-- `r'` is the result that `r` is, unless `r` is an error in `E`. -/
class Agrees (E : ε → Prop) (r r' : Except ε α) : Prop where
  agrees : (∃ e, r = .error e ∧ E e) ∨ r' = r

namespace Agrees

instance refl {r : Except ε α} : Agrees E r r := ⟨Or.inr rfl⟩

theorem giveUp {e : ε} {r : Except ε α} (h : E e) : Agrees E (.error e) r := ⟨Or.inl ⟨e, rfl, h⟩⟩

theorem bind {r r' : Except ε α} {f g : α → Except ε β} (first : Agrees E r r')
    (rest : ∀ a, Agrees E (f a) (g a)) :
    Agrees E (r >>= f) (r' >>= g) := by
  cases first.agrees with
  | inl gaveUp =>
    obtain ⟨e, rfl, h⟩ := gaveUp
    exact giveUp h
  | inr same =>
    subst same
    cases r' with
    | ok a => exact rest a
    | error e => exact refl

instance bind_inst {r r' : Except ε α} {f g : α → Except ε β} [first : Agrees E r r']
    [rest : ∀ a, Agrees E (f a) (g a)] :
    Agrees E (r >>= f) (r' >>= g) := bind first rest

instance ite_inst {c : Prop} [Decidable c] {r r' q q' : Except ε α} [left : Agrees E r r']
    [right : Agrees E q q'] :
    Agrees E (if c then r else q) (if c then r' else q') := by
  split
  · exact left
  · exact right

end Agrees

end Hoare
