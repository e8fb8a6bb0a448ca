import Mathlib.Logic.Nonempty

/-! # Hoare triples for programs with state and errors

`Triple esc P x Q E` reads: run from a state with `P`, the program `x` ends in `Q` when it returns
and in `E` when it throws (an error keeps the state it was raised in), unless the run *escaped*.
`esc` is a property of states that no program of the triple undoes; a side condition that is only
known of the whole run (a counter that never overflowed, say) is put there once and never shows up
in the intermediate assertions.
-/

namespace Hoare

variable {ε σ α β : Type}

/-- The state a run ends in, whichever way it ends. -/
def final : EStateM.Result ε σ α → σ
  | .ok _ s => s
  | .error _ s => s

@[simp] theorem final_ok (a : α) (s : σ) : final (.ok a s : EStateM.Result ε σ α) = s := rfl
@[simp] theorem final_error (e : ε) (s : σ) : final (.error e s : EStateM.Result ε σ α) = s := rfl

/-- The result satisfies one postcondition if it is a value, the other if it is an error. -/
def Ends (Q : α → σ → Prop) (E : ε → σ → Prop) : EStateM.Result ε σ α → Prop
  | .ok a s => Q a s
  | .error e s => E e s

theorem Ends.imp {Q Q' : α → σ → Prop} {E E' : ε → σ → Prop} {r : EStateM.Result ε σ α} (h : Ends Q E r)
    (post : ∀ a s, Q a s → Q' a s) (error : ∀ e s, E e s → E' e s) : Ends Q' E' r := by
  cases r with
  | ok a s => exact post a s h
  | error e s => exact error e s h

structure Triple (esc : σ → Prop) (P : σ → Prop) (x : EStateM ε σ α)
    (Q : α → σ → Prop) (E : ε → σ → Prop) : Prop where
  stable : ∀ s, esc s → esc (final (x s))
  post : ∀ s, P s → Ends (fun a s' => esc s' ∨ Q a s') (fun e s' => esc s' ∨ E e s') (x s)

theorem bind_ok {x : EStateM ε σ α} {f : α → EStateM ε σ β} {s s' : σ} {a : α}
    (h : x s = .ok a s') : (x >>= f) s = f a s' := by
  show EStateM.bind x f s = f a s'
  simp only [EStateM.bind, h]

theorem bind_error {x : EStateM ε σ α} {f : α → EStateM ε σ β} {s s' : σ} {e : ε}
    (h : x s = .error e s') : (x >>= f) s = .error e s' := by
  show EStateM.bind x f s = .error e s'
  simp only [EStateM.bind, h]

theorem Ends.map {x : EStateM ε σ α} {f : α → β} {Q : β → σ → Prop} {E : ε → σ → Prop} {s : σ}
    (h : Ends (fun a => Q (f a)) E (x s)) : Ends Q E ((x >>= fun a => pure (f a)) s) := by
  cases run : x s with
  | ok a s' =>
    rw [run] at h
    rw [bind_ok run]
    exact h
  | error e s' =>
    rw [run] at h
    rw [bind_error run]
    exact h

@[simp] theorem pure_apply (a : α) (s : σ) : (pure a : EStateM ε σ α) s = .ok a s := rfl
@[simp] theorem throw_apply (e : ε) (s : σ) : (throw e : EStateM ε σ α) s = .error e s := rfl

theorem get_bind {f : σ → EStateM ε σ β} (s : σ) : (get >>= f : EStateM ε σ β) s = f s s := rfl
theorem modify_bind {g : σ → σ} {f : PUnit → EStateM ε σ β} (s : σ) :
    (modify g >>= f : EStateM ε σ β) s = f ⟨⟩ (g s) := rfl

namespace Triple

variable {esc P P' : σ → Prop} {Q R : α → σ → Prop} {E E' : ε → σ → Prop}

theorem pure {a : α} (h : ∀ s, P s → Q a s) : Triple esc P (pure a) Q E where
  stable := fun _ h => h
  post := fun s hs => Or.inr (h s hs)

theorem throw {e : ε} (h : ∀ s, P s → E e s) : Triple esc P (throw e) Q E where
  stable := fun _ h => h
  post := fun s hs => Or.inr (h s hs)

/-- Sequencing: the middle assertion speaks about the value passed on. -/
theorem bind {x : EStateM ε σ α} {f : α → EStateM ε σ β} {Q : β → σ → Prop}
    (first : Triple esc P x R E) (rest : ∀ a, Triple esc (R a) (f a) Q E) :
    Triple esc P (x >>= f) Q E where
  stable := by
    intro s hs
    have escaped := first.stable s hs
    cases run : x s with
    | ok a s' =>
      rw [run] at escaped
      rw [bind_ok run]
      exact (rest a).stable s' escaped
    | error e s' =>
      rw [run] at escaped
      rw [bind_error run]
      exact escaped
  post := by
    intro s hs
    have reached := first.post s hs
    cases run : x s with
    | error e s' =>
      rw [run] at reached
      rw [bind_error run]
      exact reached
    | ok a s' =>
      rw [run] at reached
      rw [bind_ok run]
      rcases reached with escaped | holds
      · have := (rest a).stable s' escaped
        cases next : f a s' <;> rw [next] at this <;> exact Or.inl this
      · exact (rest a).post s' holds

theorem conseq {x : EStateM ε σ α} (h : Triple esc P x Q E)
    (pre : ∀ s, P' s → P s) (post : ∀ a s, Q a s → R a s) (error : ∀ e s, E e s → E' e s) :
    Triple esc P' x R E' where
  stable := h.stable
  post := by
    intro s hs
    have reached := h.post s (pre s hs)
    cases run : x s with
    | ok a s' => rw [run] at reached; exact reached.imp_right (post a s')
    | error e s' => rw [run] at reached; exact reached.imp_right (error e s')

theorem weaken {x : EStateM ε σ α} (h : Triple esc P x Q E) (imp : ∀ a s, Q a s → R a s) :
    Triple esc P x R E :=
  h.conseq (fun _ h => h) imp (fun _ _ h => h)

/-- A fact of the precondition that does not speak about the state. -/
theorem of_fact {x : EStateM ε σ α} {fact : Prop} (stable : ∀ s, esc s → esc (final (x s)))
    (h : fact → Triple esc P x Q E) : Triple esc (fun s => fact ∧ P s) x Q E where
  stable := stable
  post := fun s hs => (h hs.1).post s hs.2

end Triple

/-! ## Relations every run respects -/

/-- Every run of `x` moves the state along `rel`, also when it throws. -/
def Moves (rel : σ → σ → Prop) (x : EStateM ε σ α) : Prop := ∀ s, rel s (final (x s))

namespace Moves

variable {rel : σ → σ → Prop}

theorem of_pure (refl : ∀ s, rel s s) {a : α} : Moves rel (pure a : EStateM ε σ α) := fun s => refl s
theorem of_throw (refl : ∀ s, rel s s) {e : ε} : Moves rel (throw e : EStateM ε σ α) := fun s => refl s
theorem of_get (refl : ∀ s, rel s s) : Moves rel (get : EStateM ε σ σ) := fun s => refl s

theorem bind (trans : ∀ s t u, rel s t → rel t u → rel s u) {x : EStateM ε σ α} {f : α → EStateM ε σ β}
    (first : Moves rel x) (rest : ∀ a, Moves rel (f a)) : Moves rel (x >>= f) := by
  intro s
  have moved := first s
  cases run : x s with
  | ok a s' =>
    rw [run] at moved
    rw [bind_ok run]
    exact trans _ _ _ moved (rest a s')
  | error e s' =>
    rw [run] at moved
    rw [bind_error run]
    exact moved

end Moves

/-! ## Two runs of one program -/

/-- From states related by `R`, a run follows one that returns: it returns the same value, in
related states. -/
def Follows (R : σ → σ → Prop) (x : EStateM ε σ α) : Prop :=
  ∀ s t a s', R s t → x s = .ok a s' → ∃ t', x t = .ok a t' ∧ R s' t'

namespace Follows

variable {R : σ → σ → Prop}

theorem pure {a : α} : Follows R (pure a : EStateM ε σ α) := by
  intro s t a' s' related run
  obtain ⟨rfl, rfl⟩ := EStateM.Result.ok.inj run
  exact ⟨t, rfl, related⟩

theorem throw {e : ε} : Follows R (throw e : EStateM ε σ α) := by
  intro s t a s' related run
  cases run

theorem bind {x : EStateM ε σ α} {f : α → EStateM ε σ β} (first : Follows R x)
    (rest : ∀ a, Follows R (f a)) :
    Follows R (x >>= f) := by
  intro s t b u related run
  cases step : x s with
  | error e s' =>
    rw [bind_error step] at run
    cases run
  | ok a s' =>
    rw [bind_ok step] at run
    obtain ⟨t', step', related'⟩ := first s t a s' related step
    rw [bind_ok step']
    exact rest a s' t' b u related' run

theorem foldlM {γ : Type} {f : β → γ → EStateM ε σ β} (h : ∀ b c, Follows R (f b c))
    (l : List γ) (b : β) :
    Follows R (l.foldlM f b) := by
  induction l generalizing b with
  | nil => exact pure
  | cons c l ih =>
    rw [List.foldlM_cons]
    exact bind (h b c) fun b' => ih b'

end Follows

end Hoare
