import Pinax.Verified.Safe

/-! # Programs over the known pages

`Runs env o v n x Q E` describes a run of `x` that starts where the pages `v` are known and `n` is
the next id, and that does not exhaust the page ids.  It ends with more pages known, those below `n`
as they were, and with a value for which `Q` holds; or in an error of `E`, or because an I/O call
failed.  `Reads` is the same for a program that puts nothing, and so cannot exhaust the ids.
-/

namespace Pinax

open Hoare (Ends final)

/-- The known content of the pages. -/
abbrev Pages := Nat → Option Bytes

/-- Pages were added from `n` on. -/
structure Grown (v : Pages) (n : Nat) (v' : Pages) (n' : Nat) : Prop where
  le : n ≤ n'
  same : ∀ id, id < n → v' id = v id

variable {v v' v'' : Pages} {n n' n'' : Nat}

theorem Grown.refl (v : Pages) (n : Nat) : Grown v n v n := ⟨Nat.le_refl _, fun _ _ => rfl⟩

theorem Grown.trans (first : Grown v n v' n') (second : Grown v' n' v'' n'') : Grown v n v'' n'' where
  le := Nat.le_trans first.le second.le
  same := fun id below => by
    have := first.le
    rw [second.same id (by omega), first.same id below]

theorem Grown.put (v : Pages) (n : Nat) (content : Bytes) : Grown v n (withPage v n content) (n + 1) :=
  ⟨Nat.le_succ n, fun _ below => withPage_other (Nat.ne_of_lt below)⟩

def Runs {α : Type} (env : Env) (o : Origin) (v : Pages) (n : Nat) (x : PoolM α)
    (Q : α → Pages → Nat → Prop) (E : Stop → Prop) : Prop :=
  ∀ s, During env o v n s → ¬ Exhausted (final (x s)) →
    Ends (fun a s' => ∃ v' n', Grown v n v' n' ∧ Q a v' n' ∧ During env o v' n' s')
      (fun e s' => FailedIo env o e s' ∨ E e ∧ ∃ v' n', Grown v n v' n' ∧ During env o v' n' s') (x s)

namespace Runs

variable {α β : Type} {env : Env} {o : Origin} {Q : α → Pages → Nat → Prop}
  {R : β → Pages → Nat → Prop} {E : Stop → Prop}

theorem pure {a : α} (holds : Q a v n) : Runs env o v n (pure a) Q E :=
  fun _ during _ => ⟨v, n, .refl v n, holds, during⟩

theorem imp {Q' : α → Pages → Nat → Prop} {x : PoolM α} (h : Runs env o v n x Q E)
    (post : ∀ a v' n', Grown v n v' n' → Q a v' n' → Q' a v' n') : Runs env o v n x Q' E :=
  fun s during within => (h s during within).imp
    (fun a _ ⟨v', n', grown, holds, after⟩ => ⟨v', n', grown, post a v' n' grown holds, after⟩)
      (fun _ _ error => error)

/-- Sequencing. -/
theorem bind {x : PoolM α} {f : α → PoolM β} (first : Runs env o v n x Q E)
    (rest : ∀ a v' n', Grown v n v' n' → Q a v' n' → Runs env o v' n' (f a) R E)
    [appends : ∀ a, Appends (f a)] :
    Runs env o v n (x >>= f) R E := by
  intro s during within
  have one := first s during
  cases run : x s with
  | error e s₁ =>
    rw [Hoare.bind_error run] at within ⊢
    rw [run] at one
    exact one within
  | ok a s₁ =>
    rw [Hoare.bind_ok run] at within ⊢
    rw [run] at one
    obtain ⟨v₁, n₁, grown, holds, after⟩ :=
      one fun exhausted => within ((appends a).exhausted s₁ exhausted)
    refine (rest a v₁ n₁ grown holds s₁ after within).imp ?_ ?_
    · rintro b s₂ ⟨v₂, n₂, grown₂, holds₂, after₂⟩
      exact ⟨v₂, n₂, grown.trans grown₂, holds₂, after₂⟩
    · rintro e s₂ (failed | ⟨holds₂, v₂, n₂, grown₂, after₂⟩)
      · exact Or.inl failed
      · exact Or.inr ⟨holds₂, v₂, n₂, grown.trans grown₂, after₂⟩

/-- A pure step that succeeds. -/
theorem ok {r : Res β} {b : β} {f : β → PoolM α} (returns : r = .ok b) (rest : Runs env o v n (f b) Q E) :
    Runs env o v n (liftM r >>= f) Q E := by
  rw [returns, liftM_ok, pure_bind]
  exact rest

theorem pageSize {f : PageSize → PoolM α} (rest : Runs env o v n (f o.start.pager.pageSize) Q E) :
    Runs env o v n (BufferPool.pageSize >>= f) Q E := by
  intro s during
  have run : BufferPool.pageSize s = .ok o.start.pager.pageSize s := by rw [← during.pager]; rfl
  rw [Hoare.bind_ok run]
  exact rest s during

/-- Putting a page under a new id. -/
theorem put {buf : Bytes} {f : Nat → PoolM α} (fresh : ∀ id, o.start.nextPageId ≤ id → o.writable id)
    (len : buf.length = o.start.pager.pageSize.bytes)
    (rest : n < u32Max → Runs env o (withPage v n (body buf)) (n + 1) (f n) Q E)
    [appends : ∀ id, Appends (f id)] :
    Runs env o v n (BufferPool.allocatePageId env >>= fun id => BufferPool.putNew env id buf >>=
      fun _ => f id) Q E := by
  intro s during within
  have high := during.grown
  have next := during.next
  rcases allocatePageId_apply env s with ⟨fits, run⟩ | ⟨-, exhausted⟩
  · rw [Hoare.bind_ok run, next] at within ⊢
    have reached := putNew_ends during.handedOut (fresh n high) len
    cases put : BufferPool.putNew env n buf s.handedOut with
    | error e s₁ =>
      rw [put] at reached
      rw [Hoare.bind_error put]
      exact Or.inl reached
    | ok _ s₁ =>
      rw [put] at reached
      rw [Hoare.bind_ok put] at within ⊢
      refine (rest (by simp only [u32Max]; omega) s₁ reached within).imp ?_ ?_
      · rintro a s₂ ⟨v₂, n₂, grown, holds, after⟩
        exact ⟨v₂, n₂, (Grown.put v n _).trans grown, holds, after⟩
      · rintro e s₂ (failed | ⟨holds, v₂, n₂, grown, after⟩)
        · exact Or.inl failed
        · exact Or.inr ⟨holds, v₂, n₂, (Grown.put v n _).trans grown, after⟩
  · exfalso
    cases run : BufferPool.allocatePageId env s with
    | error e s₁ =>
      rw [run] at exhausted
      rw [Hoare.bind_error run] at within
      exact within exhausted
    | ok id s₁ =>
      rw [run] at exhausted
      rw [Hoare.bind_ok run] at within
      exact within (Appends.exhausted (.bind inferInstance fun _ => appends id) s₁ exhausted)

/-- A step that is chosen by a decided condition. -/
theorem ite {c : Prop} [Decidable c] {x y : PoolM α} (left : c → Runs env o v n x Q E)
    (right : ¬ c → Runs env o v n y Q E) : Runs env o v n (if c then x else y) Q E := by
  split
  next holds => exact left holds
  next fails => exact right fails

/-- When the I/O works, a run ends as described. -/
theorem works {x : PoolM α} (h : Runs env o v n x Q E) {s : BufferPool} (during : During env o v n s)
    (faultless : ∀ k, o.start.disk.clock ≤ k → env.fault k = none) (within : ¬ Exhausted (final (x s))) :
    Ends (fun a s' => ∃ v' n', Grown v n v' n' ∧ Q a v' n' ∧ During env o v' n' s')
      (fun e s' => E e ∧ ∃ v' n', Grown v n v' n' ∧ During env o v' n' s') (x s) := by
  refine (h s during within).imp (fun _ _ holds => holds) ?_
  rintro e s' (⟨-, ⟨k, late, -, fails⟩, -⟩ | holds)
  · rw [faultless k late] at fails
    cases fails
  · exact holds

end Runs

/-! ## Programs that only read -/

def Reads {α : Type} (env : Env) (o : Origin) (v : Pages) (n : Nat) (x : PoolM α) (Q : α → Prop)
    (E : Stop → Prop) : Prop :=
  ∀ s, During env o v n s → Ends (fun a s' => Q a ∧ During env o v n s')
    (fun e s' => FailedIo env o e s' ∨ E e ∧ During env o v n s') (x s)

namespace Reads

variable {α β : Type} {env : Env} {o : Origin} {Q : α → Prop} {R : β → Prop} {E : Stop → Prop}

theorem pure {a : α} (holds : Q a) : Reads env o v n (pure a) Q E := fun _ during => ⟨holds, during⟩

theorem throw {e : Stop} (holds : E e) : Reads env o v n (throw e : PoolM α) Q E :=
  fun _ during => Or.inr ⟨holds, during⟩

theorem imp {Q' : α → Prop} {x : PoolM α} (h : Reads env o v n x Q E) (post : ∀ a, Q a → Q' a) :
    Reads env o v n x Q' E :=
  fun s during => (h s during).imp (fun a _ both => ⟨post a both.1, both.2⟩) (fun _ _ error => error)

theorem errors {E' : Stop → Prop} {x : PoolM α} (h : Reads env o v n x Q E) (more : ∀ e, E e → E' e) :
    Reads env o v n x Q E' :=
  fun s during => (h s during).imp (fun _ _ holds => holds)
    (fun e _ error => error.imp_right fun both => ⟨more e both.1, both.2⟩)

theorem bind {x : PoolM α} {f : α → PoolM β} (first : Reads env o v n x Q E)
    (rest : ∀ a, Q a → Reads env o v n (f a) R E) : Reads env o v n (x >>= f) R E := by
  intro s during
  have one := first s during
  cases run : x s with
  | error e s₁ =>
    rw [run] at one
    rw [Hoare.bind_error run]
    exact one
  | ok a s₁ =>
    rw [run] at one
    rw [Hoare.bind_ok run]
    exact rest a one.1 s₁ one.2

theorem map {x : PoolM α} (h : Reads env o v n x Q E) {f : α → β} (post : ∀ a, Q a → R (f a)) :
    Reads env o v n (x >>= fun a => Pure.pure (f a)) R E :=
  Reads.bind h fun a holds => Reads.pure (post a holds)

theorem ok {r : Res β} {b : β} {f : β → PoolM α} (returns : r = .ok b)
    (rest : Reads env o v n (f b) Q E) :
    Reads env o v n (liftM r >>= f) Q E := by
  rw [returns, liftM_ok, pure_bind]
  exact rest

theorem pageSize {f : PageSize → PoolM α} (rest : Reads env o v n (f o.start.pager.pageSize) Q E) :
    Reads env o v n (BufferPool.pageSize >>= f) Q E := by
  intro s during
  have run : BufferPool.pageSize s = .ok o.start.pager.pageSize s := by rw [← during.pager]; rfl
  rw [Hoare.bind_ok run]
  exact rest s during

theorem rootPageId {f : Nat → PoolM α} (rest : Reads env o v n (f o.start.pager.rootPageId) Q E) :
    Reads env o v n (BufferPool.rootPageId >>= f) Q E := by
  intro s during
  have run : BufferPool.rootPageId s = .ok o.start.pager.rootPageId s := by rw [← during.pager]; rfl
  rw [Hoare.bind_ok run]
  exact rest s during

/-- Reading a known page. -/
theorem get {id : Nat} {content : Bytes} {f : Bytes → PoolM α} (known : v id = some content)
    (rest : ∀ buf, buf.length = o.start.pager.pageSize.bytes → body buf = content →
      Reads env o v n (f buf) Q E) :
    Reads env o v n (BufferPool.get env id >>= f) Q E := by
  intro s during
  have reached := get_ends during id
  have page := (during.agree id content known).2
  cases run : BufferPool.get env id s with
  | error e s₁ =>
    rw [run] at reached
    rw [Hoare.bind_error run]
    rcases reached with failed | ⟨-, none, -⟩
    · exact Or.inl failed
    · cases page.symm.trans none
  | ok buf s₁ =>
    rw [run] at reached
    obtain ⟨after, len, found⟩ := reached
    rw [Hoare.bind_ok run]
    rw [page, Option.some.injEq] at found
    exact rest buf len found.symm s₁ after

/-- When the I/O works, only the errors that are allowed for are left. -/
theorem works {x : PoolM α} (h : Reads env o v n x Q E) {s : BufferPool} (during : During env o v n s)
    (faultless : ∀ k, o.start.disk.clock ≤ k → env.fault k = none) :
    Ends (fun a s' => Q a ∧ During env o v n s') (fun e s' => E e ∧ During env o v n s') (x s) := by
  refine (h s during).imp (fun _ _ holds => holds) ?_
  rintro e s' (⟨-, ⟨k, late, -, fails⟩, -⟩ | holds)
  · rw [faultless k late] at fails
    cases fails
  · exact holds

end Reads

/-- Sequencing after a program that only reads. -/
theorem Runs.bind_reads {α β : Type} {env : Env} {o : Origin} {Q : α → Prop}
    {R : β → Pages → Nat → Prop} {E : Stop → Prop} {x : PoolM α} {f : α → PoolM β}
    (first : Reads env o v n x Q E) (rest : ∀ a, Q a → Runs env o v n (f a) R E) :
    Runs env o v n (x >>= f) R E := by
  intro s during within
  have one := first s during
  cases run : x s with
  | error e s₁ =>
    rw [run] at one
    rw [Hoare.bind_error run]
    exact one.imp_right fun both => ⟨both.1, v, n, .refl v n, both.2⟩
  | ok a s₁ =>
    rw [run] at one
    rw [Hoare.bind_ok run] at within ⊢
    exact rest a one.1 s₁ one.2 within

theorem Runs.get {α : Type} {env : Env} {o : Origin} {Q : α → Pages → Nat → Prop} {E : Stop → Prop}
    {id : Nat} {content : Bytes} {f : Bytes → PoolM α} (known : v id = some content)
    (rest : ∀ buf, buf.length = o.start.pager.pageSize.bytes → body buf = content →
      Runs env o v n (f buf) Q E) :
    Runs env o v n (BufferPool.get env id >>= f) Q E := by
  have read : Reads env o v n (BufferPool.get env id >>= Pure.pure)
      (fun buf => buf.length = o.start.pager.pageSize.bytes ∧ body buf = content) E :=
    Reads.get known fun buf len same => Reads.pure ⟨len, same⟩
  rw [bind_pure] at read
  exact Runs.bind_reads read fun buf both => rest buf both.1 both.2

/-! ## Programs that commit -/

/-- How a program that commits stops with an error: the transaction id overflowed; an I/O call
failed, before the commit or in it; or the error is one of `E`. -/
inductive Stopped {α : Type} (env : Env) (o : Origin) (v : Pages) (n : Nat)
    (Q : α → Nat → Pages → Nat → Prop) (E : Stop → Prop) (e : Stop) (s : BufferPool) : Prop
  | overflow (panics : e = .panic) (overflows : o.start.pager.TxnOverflow env) {v' : Pages} {n' : Nat}
      (grown : Grown v n v' n')
      (during : During env o v' n' s)
  | io (failed : FailedIo env o e s)
  | half (fails : e = .io) (faulted : Faulted env o s) {a : α} {v' : Pages} {n' root : Nat}
      (grown : Grown v n v' n')
      (holds : Q a root v' n') (committed : HalfCommitted env o v' n' root s)
  | error (holds : E e) {v' : Pages} {n' : Nat} (grown : Grown v n v' n') (during : During env o v' n' s)

/-- `x` commits a root of pages for which `Q` holds. -/
def Finishes {α : Type} (env : Env) (o : Origin) (v : Pages) (n : Nat) (x : PoolM α)
    (Q : α → Nat → Pages → Nat → Prop) (E : Stop → Prop) : Prop :=
  ∀ s, During env o v n s → ¬ Exhausted (final (x s)) →
    Ends (fun a s' => ¬ o.start.pager.TxnOverflow env ∧
        ∃ v' n' root, Grown v n v' n' ∧ Q a root v' n' ∧ Committed env o v' n' root s')
      (Stopped env o v n Q E) (x s)

section

variable {α β : Type} {env : Env} {o : Origin} {Q : α → Nat → Pages → Nat → Prop}
  {R : β → Nat → Pages → Nat → Prop} {E : Stop → Prop}

theorem Stopped.grow {e : Stop} {s : BufferPool} (first : Grown v n v' n')
    (stopped : Stopped env o v' n' Q E e s) :
    Stopped env o v n Q E e s := by
  cases stopped with
  | overflow panics overflows grown during => exact .overflow panics overflows (first.trans grown) during
  | io failed => exact .io failed
  | half fails faulted grown holds committed =>
    exact .half fails faulted (first.trans grown) holds committed
  | error holds grown during => exact .error holds (first.trans grown) during

theorem Stopped.imp {Q' : α → Nat → Pages → Nat → Prop} {e : Stop} {s : BufferPool}
    (stopped : Stopped env o v n Q E e s) (post : ∀ a root v' n', Q a root v' n' → Q' a root v' n') :
    Stopped env o v n Q' E e s := by
  cases stopped with
  | overflow panics overflows grown during => exact .overflow panics overflows grown during
  | io failed => exact .io failed
  | half fails faulted grown holds committed =>
    exact .half fails faulted grown (post _ _ _ _ holds) committed
  | error holds grown during => exact .error holds grown during

end

namespace Finishes

variable {α β : Type} {env : Env} {o : Origin} {R : β → Nat → Pages → Nat → Prop} {E : Stop → Prop}

theorem bind {Q : α → Pages → Nat → Prop} {x : PoolM α} {f : α → PoolM β} (first : Runs env o v n x Q E)
    (rest : ∀ a v' n', Grown v n v' n' → Q a v' n' → Finishes env o v' n' (f a) R E)
    [appends : ∀ a, Appends (f a)] :
    Finishes env o v n (x >>= f) R E := by
  intro s during within
  have one := first s during
  cases run : x s with
  | error e s₁ =>
    rw [Hoare.bind_error run] at within ⊢
    rw [run] at one
    rcases one within with failed | ⟨holds, v₁, n₁, grown, after⟩
    · exact .io failed
    · exact .error holds grown after
  | ok a s₁ =>
    rw [Hoare.bind_ok run] at within ⊢
    rw [run] at one
    obtain ⟨v₁, n₁, grown, holds, after⟩ :=
      one fun exhausted => within ((appends a).exhausted s₁ exhausted)
    refine (rest a v₁ n₁ grown holds s₁ after within).imp ?_ fun _ _ stopped => stopped.grow grown
    rintro b s₂ ⟨fits, v₂, n₂, root, grown₂, holds₂, committed⟩
    exact ⟨fits, v₂, n₂, root, grown.trans grown₂, holds₂, committed⟩

theorem imp {R' : β → Nat → Pages → Nat → Prop} {x : PoolM β} (h : Finishes env o v n x R E)
    (post : ∀ b root v' n', R b root v' n' → R' b root v' n') : Finishes env o v n x R' E :=
  fun s during within => (h s during within).imp
    (fun b _ ⟨fits, v', n', root, grown, holds, committed⟩ => ⟨fits, v', n', root, grown,
      post b root v' n' holds, committed⟩)
    fun _ _ stopped => stopped.imp post

/-- What a program returns after its commit. -/
theorem map {Q : α → Nat → Pages → Nat → Prop} {x : PoolM α} (h : Finishes env o v n x Q E) (f : α → β)
    (post : ∀ a root v' n', Q a root v' n' → R (f a) root v' n') :
    Finishes env o v n (x >>= fun a => pure (f a)) R E := by
  intro s during within
  have one := h s during
  cases run : x s with
  | error e s₁ =>
    rw [Hoare.bind_error run] at within ⊢
    rw [run] at one
    cases one within with
    | overflow panics overflows grown after => exact .overflow panics overflows grown after
    | io failed => exact .io failed
    | half fails faulted grown holds committed =>
      exact .half fails faulted grown (post _ _ _ _ holds) committed
    | error holds grown after => exact .error holds grown after
  | ok a s₁ =>
    rw [Hoare.bind_ok run] at within ⊢
    rw [run] at one
    obtain ⟨fits, v', n', root, grown, holds, committed⟩ := one within
    exact ⟨fits, v', n', root, grown, post a root v' n' holds, committed⟩

theorem bind_reads {Q : α → Prop} {x : PoolM α} {f : α → PoolM β} (first : Reads env o v n x Q E)
    (rest : ∀ a, Q a → Finishes env o v n (f a) R E) : Finishes env o v n (x >>= f) R E := by
  intro s during within
  have one := first s during
  cases run : x s with
  | error e s₁ =>
    rw [run] at one
    rw [Hoare.bind_error run]
    rcases one with failed | ⟨holds, after⟩
    · exact .io failed
    · exact .error holds (.refl v n) after
  | ok a s₁ =>
    rw [run] at one
    rw [Hoare.bind_ok run] at within ⊢
    exact rest a one.1 s₁ one.2 within

theorem ok {r : Res α} {a : α} {f : α → PoolM β} (returns : r = .ok a)
    (rest : Finishes env o v n (f a) R E) :
    Finishes env o v n (liftM r >>= f) R E := by
  rw [returns, liftM_ok, pure_bind]
  exact rest

theorem pageSize {f : PageSize → PoolM β} (rest : Finishes env o v n (f o.start.pager.pageSize) R E) :
    Finishes env o v n (BufferPool.pageSize >>= f) R E := by
  have read : Reads env o v n (BufferPool.pageSize >>= pure) (· = o.start.pager.pageSize) E :=
    Reads.pageSize (Reads.pure rfl)
  rw [bind_pure] at read
  refine bind_reads read ?_
  rintro ps rfl
  exact rest

theorem rootPageId {f : Nat → PoolM β} (rest : Finishes env o v n (f o.start.pager.rootPageId) R E) :
    Finishes env o v n (BufferPool.rootPageId >>= f) R E := by
  have read : Reads env o v n (BufferPool.rootPageId >>= pure) (· = o.start.pager.rootPageId) E :=
    Reads.rootPageId (Reads.pure rfl)
  rw [bind_pure] at read
  refine bind_reads read ?_
  rintro root rfl
  exact rest

/-- Putting a page under a new id. -/
theorem put {buf : Bytes} {f : Nat → PoolM β} (fresh : ∀ id, o.start.nextPageId ≤ id → o.writable id)
    (len : buf.length = o.start.pager.pageSize.bytes)
    (rest : n < u32Max → Finishes env o (withPage v n (body buf)) (n + 1) (f n) R E)
    [appends : ∀ id, Appends (f id)] :
    Finishes env o v n (BufferPool.allocatePageId env >>= fun id => BufferPool.putNew env id buf >>=
      fun _ => f id) R E := by
  have puts : Runs env o v n (BufferPool.allocatePageId env >>= fun id =>
    BufferPool.putNew env id buf >>= fun _ => pure id)
      (fun id v' n' => id = n ∧ n < u32Max ∧ v' = withPage v n (body buf) ∧ n' = n + 1) E :=
    Runs.put fresh len fun small => Runs.pure ⟨rfl, small, rfl, rfl⟩
  have whole := bind puts (f := f) (R := R) (by
    rintro id v' n' - ⟨rfl, small, rfl, rfl⟩
    exact rest small)
  simp only [bind_assoc, pure_bind] at whole
  exact whole

/-- The commit itself. -/
theorem commit {a : β} {root : Nat} (holds : R a root v n) :
    Finishes env o v n (BufferPool.commit env root >>= fun _ => pure a) R E := by
  intro s during _
  have ends := commit_ends during root
  cases run : BufferPool.commit env root s with
  | ok _ s₁ =>
    rw [run] at ends
    rw [Hoare.bind_ok run]
    exact ⟨ends.1, v, n, root, .refl v n, holds, ends.2⟩
  | error e s₁ =>
    rw [run] at ends
    rw [Hoare.bind_error run]
    rcases ends with ⟨fails, faulted, after⟩ | ⟨fails, faulted, half⟩ | ⟨panics, overflow, after, -⟩
    · exact .io ⟨fails, faulted, after.failed⟩
    · exact .half fails faulted (.refl v n) holds half
    · exact .overflow panics overflow (.refl v n) after

/-- When the I/O works, the root is committed, unless the transaction id overflows. -/
theorem works {x : PoolM α} {Q : α → Nat → Pages → Nat → Prop} (h : Finishes env o v n x Q E)
    {s : BufferPool} (during : During env o v n s) (within : ¬ Exhausted (final (x s)))
    (faultless : ∀ k, o.start.disk.clock ≤ k → env.fault k = none) :
    Ends (fun a s' => ¬ o.start.pager.TxnOverflow env ∧
        ∃ v' n' root, Grown v n v' n' ∧ Q a root v' n' ∧ Committed env o v' n' root s')
      (fun e s' => (e = .panic ∧ o.start.pager.TxnOverflow env ∨ E e) ∧ ∃ v' n', Grown v n v' n' ∧
        During env o v' n' s') (x s) := by
  refine (h s during within).imp (fun _ _ holds => holds) fun e s' stopped => ?_
  have worked : ¬ Faulted env o s' := by
    rintro ⟨k, late, -, fails⟩
    rw [faultless k late] at fails
    cases fails
  cases stopped with
  | overflow panics overflows grown during => exact ⟨Or.inl ⟨panics, overflows⟩, _, _, grown, during⟩
  | io failed => exact absurd failed.2.1 worked
  | half fails faulted => exact absurd faulted worked
  | error holds grown during => exact ⟨Or.inr holds, _, _, grown, during⟩

end Finishes

end Pinax
