import Pinax.Verified.Pool

/-! # What the calls of the pool do

One triple for each call below `commit`, in terms of the pages that can be read.  A run that exhausted
the page ids is left out: that is what the escape `Exhausted` of the triples stands for.
-/

namespace Pinax

open Hoare (Ends Triple)

variable {env : Env} {o : Origin} {v : Nat → Option Bytes} {n : Nat} {s : BufferPool}

/-- `v` with the page of `id` replaced. -/
def withPage (v : Nat → Option Bytes) (id : Nat) (content : Bytes) : Nat → Option Bytes :=
  fun id' => if id' = id then some content else v id'

@[simp] theorem withPage_same {id : Nat} {content : Bytes} :
    withPage v id content id = some content := if_pos rfl

theorem withPage_other {id id' : Nat} {content : Bytes} (ne : id' ≠ id) :
    withPage v id content id' = v id' := if_neg ne

/-- A triple from the two facts the pool's lemmas give. -/
theorem Triple.ofEnds {α : Type} {x : PoolM α} {P : BufferPool → Prop} {Q : α → BufferPool → Prop}
    {E : Stop → BufferPool → Prop} (appends : Appends x) (ends : ∀ s, P s → Ends Q E (x s)) :
    Triple Exhausted P x Q E where
  stable := appends.exhausted
  post := fun s holds => by
    have reached := ends s holds
    cases run : x s with
    | ok a s' => rw [run] at reached; exact Or.inr reached
    | error e s' => rw [run] at reached; exact Or.inr reached

theorem FailedIo.failed {e : Stop} (h : FailedIo env o e s) : Failed env o s := h.2.2

theorem During.touch (h : During env o v n s) {id : Nat} (member : id ∈ s.entries) :
    During env o v n { s with recency := s.recency.filter (· ≠ id) ++ [id] } := by
  have perm : (s.recency.filter (· ≠ id) ++ [id]).Perm s.entries.keys := by
    rw [filter_ne_eq_erase h.sound.nodup]
    have inside : id ∈ s.recency := h.sound.recency.symm.subset (AList.mem_keys.mp member)
    calc (s.recency.erase id ++ [id]).Perm (id :: s.recency.erase id) := List.perm_append_singleton _ _
      _ |>.Perm s.recency := (List.perm_cons_erase inside).symm
      _ |>.Perm s.entries.keys := h.sound.recency
  exact h.step rfl rfl rfl { h.sound with recency := perm } h.dirty h.agree h.keeps (Or.inl rfl)

/-- Why a page that is not cached cannot be read when the I/O works. -/
def Unreadable (env : Env) (s : BufferPool) (id : Nat) (e : Stop) : Prop :=
  Pager.Unreadable env s.pager id s.disk.file e

/-- `get` returns the known content, and fails for an I/O error only, when the page is known. -/
theorem get_ends (h : During env o v n s) (id : Nat) :
    Ends (fun buf s' => During env o v n s' ∧ buf.length = o.start.pager.pageSize.bytes ∧
        s.page env id = some (body buf))
      (fun e s' => FailedIo env o e s' ∨ During env o v n s' ∧ s.page env id = none ∧
        Unreadable env s id e)
      (BufferPool.get env id s) := by
  rw [BufferPool.get, Hoare.get_bind]
  cases cached : s.entries.lookup id with
  | some buf =>
    have member : id ∈ s.entries := AList.lookup_isSome.mp (by rw [cached]; rfl)
    refine ⟨h.touch member, ?_, page_cached cached⟩
    rw [← h.pager]
    exact h.sound.lengths id buf cached
  | none =>
    -- a read of the file moves the clock only
    have ticked : During env o v n (s.over s.disk.tick) :=
      h.step rfl rfl rfl { h.sound with } h.dirty h.agree h.keeps (Or.inr (Or.inl rfl))
    simp only
    rcases readDataPage_cases env s.pager id s.disk with ⟨buf, run, len, found⟩ | ⟨e, run, why⟩
    · rw [Hoare.bind_ok (onDisk_ok run)]
      -- the page goes into the cache as the file holds it, so what is known of it stays
      have inserted := insertCached_ends ticked len
        (Or.inr ⟨rfl, cached, fun _ => found⟩) (fun id' content (known : v id' = some content) => by
          obtain ⟨low, page⟩ := h.agree id' content known
          by_cases same : id' = id
          · subst same
            rw [page_uncached cached, found, Option.some.injEq] at page
            exact Or.inl ⟨rfl, low, page.symm⟩
          · exact Or.inr ⟨same, known⟩) h.keeps
      cases insert : BufferPool.insertCached env id buf false (s.over s.disk.tick) with
      | ok _ s' =>
        rw [insert] at inserted
        rw [Hoare.bind_ok insert]
        exact ⟨inserted, by rw [len, h.pager], by rw [page_uncached cached]; exact found⟩
      | error e s' =>
        rw [insert] at inserted
        rw [Hoare.bind_error insert]
        exact Or.inl inserted
    · rw [Hoare.bind_error (onDisk_error run)]
      rcases why with ⟨rfl, fails⟩ | ⟨none, unreadable⟩
      · exact Or.inl ⟨rfl, ⟨s.disk.clock, h.clock, Nat.lt_succ_self _, fails⟩, ticked.failed⟩
      · exact Or.inr ⟨ticked, by rw [page_uncached cached]; exact none, unreadable⟩

theorem get_any (id : Nat) :
    Triple Exhausted (During env o v n) (BufferPool.get env id)
      (fun buf s => During env o v n s ∧ buf.length = o.start.pager.pageSize.bytes)
      (fun _ => Failed env o) :=
  Triple.ofEnds (.poolGet id) fun s h => by
    have reached := get_ends h id
    cases run : BufferPool.get env id s with
    | ok buf s' => rw [run] at reached; exact ⟨reached.1, reached.2.1⟩
    | error e s' =>
      rw [run] at reached
      rcases reached with failed | ⟨during, -⟩
      · exact failed.failed
      · exact during.failed

theorem putNew_ends (h : During env o v n s) {id : Nat} {buf : Bytes} (may : o.writable id)
    (len : buf.length = o.start.pager.pageSize.bytes) :
    Ends (fun _ s' => During env o (withPage v id (body buf)) n s') (FailedIo env o)
      (BufferPool.putNew env id buf s) := by
  refine insertCached_ends h (by rw [h.pager]; exact len) (Or.inl ⟨rfl, may⟩) ?_ ?_
  · intro id' content known
    by_cases same : id' = id
    · subst same
      rw [withPage_same, Option.some.injEq] at known
      exact Or.inl ⟨rfl, o.two _ may, known.symm⟩
    · rw [withPage_other same] at known
      exact Or.inr ⟨same, known⟩
  · intro id' content known
    have safe := o.safe id' content known
    have ne : id' ≠ id := by
      rintro rfl
      exact safe may
    rw [withPage_other ne]
    exact h.keeps id' content known

/-- `put_new` makes the page known. -/
theorem putNew_spec {id : Nat} {buf : Bytes} (may : o.writable id)
    (len : buf.length = o.start.pager.pageSize.bytes) :
    Triple Exhausted (During env o v n) (BufferPool.putNew env id buf)
      (fun _ => During env o (withPage v id (body buf)) n) (FailedIo env o) :=
  Triple.ofEnds (.putNew id buf) fun _ h => putNew_ends h may len

/-- The pool after id `n` was handed out. -/
def BufferPool.handedOut (s : BufferPool) : BufferPool :=
  { s with
    nextPageId := s.nextPageId + 1
    disk := { s.disk with trace := s.disk.trace ++ [.alloc s.nextPageId] } }

theorem allocatePageId_apply (env : Env) (s : BufferPool) :
    (s.nextPageId + 1 < 2 ^ 32 ∧ BufferPool.allocatePageId env s = .ok s.nextPageId s.handedOut) ∨
    (2 ^ 32 ≤ s.nextPageId + 1 ∧ Exhausted (Hoare.final (BufferPool.allocatePageId env s))) := by
  rw [BufferPool.allocatePageId, Hoare.get_bind]
  have recorded : onDisk (record (.alloc s.nextPageId)) s
      = .ok ⟨⟩ (s.over { s.disk with trace := s.disk.trace ++ [.alloc s.nextPageId] }) := rfl
  rw [Hoare.bind_ok recorded]
  by_cases fits : s.nextPageId + 1 < 2 ^ 32
  · refine Or.inl ⟨fits, ?_⟩
    simp only [addW_of_lt fits, liftM_ok]
    rfl
  · refine Or.inr ⟨by omega, ?_⟩
    have now : Exhausted (s.over { s.disk with trace := s.disk.trace ++ [.alloc s.nextPageId] }) :=
      ⟨s.nextPageId, mem_allocated.mpr (List.mem_append_right _ (List.mem_singleton_self _)), by
        simp only [u32Max]; omega⟩
    refine Appends.exhausted ?_ _ now
    exact .bind (.res _) fun _ => .bind ⟨fun _ => List.prefix_refl _⟩ fun _ => .pure

theorem During.handedOut (h : During env o v n s) : During env o v (n + 1) s.handedOut where
  sound := { h.sound with }
  pager := h.pager
  capacity := h.capacity
  present := h.present
  next := congrArg (· + 1) h.next
  grown := Nat.le_succ_of_le h.grown
  dirty := h.dirty
  agree := h.agree
  keeps := h.keeps
  framed := h.framed
  clock := h.clock
  trace := by
    obtain ⟨ext, split, events, ids⟩ := h.trace
    have grown := h.grown
    refine ⟨ext ++ [.alloc n], ?_, ?_, ?_⟩
    · simp only [BufferPool.handedOut, split, h.next, List.append_assoc]
    · intro e member
      rcases List.mem_append.mp member with old | new
      · exact events e old
      · rw [List.mem_singleton.mp new]
        trivial
    · rw [allocated_append, ids, show n + 1 - o.start.nextPageId = n - o.start.nextPageId + 1 by omega,
        List.range'_concat]
      have last : o.start.nextPageId + 1 * (n - o.start.nextPageId) = n := by omega
      rw [last]
      rfl

/-- `allocate_page_id` hands out `n`. -/
theorem allocatePageId_spec :
    Triple Exhausted (During env o v n) (BufferPool.allocatePageId env)
      (fun id s => id = n ∧ o.start.nextPageId ≤ n ∧ n < u32Max ∧ During env o v (n + 1) s)
        (FailedIo env o) where
  stable := Appends.allocatePageId.exhausted
  post := fun s h => by
    rcases allocatePageId_apply env s with ⟨fits, run⟩ | ⟨-, exhausted⟩
    · rw [run]
      have := h.next
      exact Or.inr ⟨h.next, h.grown, by simp only [u32Max]; omega, h.handedOut⟩
    · cases run : BufferPool.allocatePageId env s with
      | ok id s' => rw [run] at exhausted; exact Or.inl exhausted
      | error e s' => rw [run] at exhausted; exact Or.inl exhausted

theorem pageSize_spec {E : Stop → BufferPool → Prop} :
    Triple Exhausted (During env o v n) BufferPool.pageSize
      (fun ps s => ps = o.start.pager.pageSize ∧ During env o v n s) E :=
  Triple.ofEnds (.bind .get fun _ => .pure) fun s h => ⟨by rw [h.pager], h⟩

theorem rootPageId_spec {E : Stop → BufferPool → Prop} :
    Triple Exhausted (During env o v n) BufferPool.rootPageId
      (fun root s => root = o.start.pager.rootPageId ∧ During env o v n s) E :=
  Triple.ofEnds (.bind .get fun _ => .pure) fun s h => ⟨by rw [h.pager], h⟩

end Pinax
