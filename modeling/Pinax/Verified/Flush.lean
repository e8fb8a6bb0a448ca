import Pinax.Verified.PoolSpec
import Pinax.Verified.Meta

/-! # Flushing the dirty pages -/

namespace Pinax

open Hoare (Ends)

variable {env : Env} {o : Origin} {v : Nat → Option Bytes} {n : Nat} {s : BufferPool}

/-- The pool after the cached page `id` was stamped and written over `disk`. -/
def BufferPool.flushed (env : Env) (s : BufferPool) (id : Nat) (buf : Bytes) (disk : Disk) : BufferPool :=
  { s with entries := s.entries.insert id (stamped env buf), disk }

theorem Sound.long (sound : Sound env s) {id : Nat} {buf : Bytes}
    (found : s.entries.lookup id = some buf) : 8 ≤ buf.length := by
  have := sound.lengths id buf found
  have := s.pager.pageSize.bounds.1
  omega

theorem flushOne_cases (env : Env) {id : Nat} {buf : Bytes} (found : s.entries.lookup id = some buf)
    (long : 8 ≤ buf.length) :
    (env.fault s.disk.clock = none ∧ BufferPool.flushOne env id s = .ok ⟨⟩ (s.flushed env id buf
      (s.disk.pageWritten s.pager id (stamped env buf) (Torn.whole (stamped env buf))))) ∨
    (∃ torn, env.fault s.disk.clock = some torn ∧ BufferPool.flushOne env id s = .error Stop.io
      (s.flushed env id buf (s.disk.pageWritten s.pager id (stamped env buf) torn))) := by
  rw [BufferPool.flushOne, Hoare.get_bind]
  simp only [found]
  rcases writeDataPage_cases env
    (fun b (s : BufferPool) => { s with entries := s.entries.insert id b }) id long s
    rfl rfl with ⟨works, run⟩ | ⟨torn, fails, run⟩
  · exact Or.inl ⟨works, run⟩
  · exact Or.inr ⟨torn, fails, run⟩

/-- The flushed copy is cached, whatever reached the file; the other pages stay. -/
theorem During.flushed (h : During env o v n s) {id : Nat} {buf : Bytes} (torn : Torn)
    (found : s.entries.lookup id = some buf) (may : o.writable id)
    (dirty : id ∈ s.dirty ∨ torn = Torn.whole (stamped env buf)) :
    During env o v n (s.flushed env id buf (s.disk.pageWritten s.pager id (stamped env buf) torn)) := by
  have len := h.sound.lengths id buf found
  have long := s.pager.pageSize.bounds.1
  have two := o.two id may
  have stampedLen : (stamped env buf).length = s.pager.pageSize.bytes := by
    rw [length_stamped (by omega), len]
  have member : id ∈ s.entries.keys :=
    AList.mem_keys.mp (AList.lookup_isSome.mp (by rw [found]; rfl))
  have lookupOther : ∀ {id'}, id' ≠ id →
      (s.entries.insert id (stamped env buf)).lookup id' = s.entries.lookup id' :=
    fun ne => AList.lookup_insert_ne ne
  have diskOther : ∀ {id' content}, firstDataPageId ≤ id' → id' ≠ id →
      diskPage env s.pager.pageSize s.disk.file id' = some content →
      diskPage env s.pager.pageSize (s.disk.pageWritten s.pager id (stamped env buf) torn).file id' =
        some content :=
    fun low ne known => diskPage_store_other two low (Ne.symm ne) stampedLen known
  -- the write moves the disk by one page that may be written, and stamps what is cached
  refine h.step rfl rfl rfl ⟨?_, h.sound.positive, ?_, ?_, ?_⟩ h.dirty ?_ h.keeps
    (Or.inr (Or.inr ⟨id, _, torn, may, stampedLen, rfl⟩))
  · show s.recency.Perm (s.entries.insert id (stamped env buf)).keys
    rw [AList.keys_insert]
    exact h.sound.recency.trans (List.perm_cons_erase member)
  · show (s.entries.insert id (stamped env buf)).keys.length ≤ s.capacity
    rw [AList.keys_insert, List.length_cons, List.length_erase_of_mem member]
    have := h.sound.size
    have := List.length_pos_of_mem member
    omega
  · intro id' buf' found'
    by_cases same : id' = id
    · subst same
      rw [BufferPool.flushed, AList.lookup_insert, Option.some.injEq] at found'
      rw [← found']
      exact stampedLen
    · exact h.sound.lengths id' buf' ((lookupOther same).symm.trans found')
  -- a page that is not dirty was stored as a whole
  · intro id' buf' low found' clean
    by_cases same : id' = id
    · subst same
      rw [BufferPool.flushed, AList.lookup_insert, Option.some.injEq] at found'
      rcases dirty with dirty | rfl
      · exact absurd dirty clean
      · rw [← found', body_stamped (by omega)]
        exact diskPage_write_same len
    · exact diskOther low same (h.sound.clean id' buf' low ((lookupOther same).symm.trans found') clean)
  -- stamping a page leaves its body as it was
  · intro id' content known
    obtain ⟨low, page⟩ := h.agree id' content known
    refine ⟨low, ?_⟩
    by_cases same : id' = id
    · subst same
      rw [page_cached found] at page
      rw [page_cached (AList.lookup_insert _), body_stamped (by omega)]
      exact page
    · cases cached : s.entries.lookup id' with
      | some buf' =>
        rw [page_cached ((lookupOther same).trans cached)]
        rwa [page_cached cached] at page
      | none =>
        rw [page_uncached ((lookupOther same).trans cached)]
        rw [page_uncached cached] at page
        exact diskOther low same page

/-- A page that was flushed need not be dirty any more. -/
theorem During.cleaned (h : During env o v n s) (id : Nat)
    (onDisk : ∀ buf, firstDataPageId ≤ id → s.entries.lookup id = some buf →
      diskPage env s.pager.pageSize s.disk.file id = some (body buf)) :
    During env o v n { s with dirty := s.dirty.erase id } := by
  refine h.step rfl rfl rfl { h.sound with clean := ?_ }
    (fun id' dirty => h.dirty id' (Finset.mem_of_mem_erase dirty))
    h.agree h.keeps (Or.inl rfl)
  intro id' buf low found clean
  by_cases same : id' = id
  · subst same
    exact onDisk buf low found
  · exact h.sound.clean id' buf low found (fun dirty => clean (Finset.mem_erase.mpr ⟨same, dirty⟩))

theorem flushIds_ends (ids : List Nat) (h : During env o v n s) (nodup : ids.Nodup)
    (dirty : ∀ id ∈ ids, id ∈ s.dirty) :
    Ends (fun _ s' => During env o v n s' ∧ ∀ id, id ∈ s'.dirty ↔ id ∈ s.dirty ∧ id ∉ ids)
      (KeptIo env o v n) (BufferPool.flushIds env ids s) := by
  induction ids generalizing s with
  | nil => exact ⟨h, fun id => by simp⟩
  | cons id ids ih =>
    rw [BufferPool.flushIds]
    have dirtyId := dirty id List.mem_cons_self
    have highId := h.dirty id dirtyId
    obtain ⟨notIn, nodup⟩ := List.nodup_cons.mp nodup
    -- the tail, from a state in which `id` need not be dirty any more
    have tail : ∀ s', During env o v n s' → s'.dirty = s.dirty →
        (∀ buf, firstDataPageId ≤ id → s'.entries.lookup id = some buf →
          diskPage env s'.pager.pageSize s'.disk.file id = some (body buf)) →
        Ends (fun _ s'' => During env o v n s'' ∧ ∀ id', id' ∈ s''.dirty ↔ id' ∈ s.dirty ∧
          id' ∉ id :: ids)
          (KeptIo env o v n) ((do
            modify fun s : BufferPool => { s with dirty := s.dirty.erase id }
            BufferPool.flushIds env ids) s') := by
      intro s' during sameDirty onDisk
      rw [Hoare.modify_bind]
      have rest := ih (during.cleaned id onDisk) nodup (fun id' member => by
        refine Finset.mem_erase.mpr ⟨?_, sameDirty ▸ dirty id' (List.mem_cons_of_mem _ member)⟩
        rintro rfl
        exact notIn member)
      cases run : BufferPool.flushIds env ids { s' with dirty := s'.dirty.erase id } with
      | error e s'' => rw [run] at rest; exact rest
      | ok _ s'' =>
        rw [run] at rest
        refine ⟨rest.1, fun id' => ?_⟩
        rw [rest.2 id', Finset.mem_erase, sameDirty, List.mem_cons, not_or]
        exact ⟨fun ⟨⟨ne, mem⟩, notIn⟩ => ⟨mem, ne, notIn⟩, fun ⟨mem, ne, notIn⟩ => ⟨⟨ne, mem⟩, notIn⟩⟩
    cases cached : s.entries.lookup id with
    | none =>
      have run : BufferPool.flushOne env id s = .ok ⟨⟩ s := by
        rw [BufferPool.flushOne, Hoare.get_bind]
        simp only [cached]
        rfl
      rw [Hoare.bind_ok run]
      exact tail s h rfl (fun buf _ found => by cases cached.symm.trans found)
    | some buf =>
      have len := h.sound.lengths id buf cached
      have long := h.sound.long cached
      rcases flushOne_cases env cached long with ⟨-, run⟩ | ⟨torn, fails, run⟩
      · rw [Hoare.bind_ok run]
        refine tail _ (h.flushed _ cached highId (Or.inr rfl)) rfl (fun buf' _ found => ?_)
        rw [BufferPool.flushed, AList.lookup_insert, Option.some.injEq] at found
        rw [← found, body_stamped long]
        exact diskPage_write_same len
      · rw [Hoare.bind_error run]
        have during := h.flushed torn cached highId (Or.inl dirtyId)
        exact ⟨rfl, ⟨s.disk.clock, h.clock, Nat.lt_succ_self _, by rw [fails]; rfl⟩, during⟩

theorem During.synced (h : During env o v n s) :
    During env o v n (s.over s.disk.synced) where
  sound := { h.sound with }
  pager := h.pager
  capacity := h.capacity
  present := h.present
  next := h.next
  grown := h.grown
  dirty := h.dirty
  agree := h.agree
  keeps := h.keeps
  framed := h.framed
  clock := Nat.le_succ_of_le h.clock
  trace := by
    obtain ⟨ext, split, events, ids⟩ := h.trace
    refine ⟨ext ++ [.sync s.disk.file], ?_, ?_, ?_⟩
    · show s.disk.trace ++ [.sync s.disk.file] = _
      rw [split, List.append_assoc]
    · intro e member
      rcases List.mem_append.mp member with old | new
      · exact events e old
      · rw [List.mem_singleton.mp new]
        exact h.framed
    · rw [allocated_append, ids]
      simp [allocated]

/-- After `flush_all_dirty` nothing is dirty and the file is as it was at a completed sync. -/
theorem flushAllDirty_ends (h : During env o v n s) :
    Ends (fun _ s' => During env o v n s' ∧ s'.dirty = ∅ ∧
        ∃ before, s'.disk.trace = before ++ [.sync s'.disk.file])
      (KeptIo env o v n) (BufferPool.flushAllDirty env s) := by
  rw [BufferPool.flushAllDirty, Hoare.get_bind]
  have flushed := flushIds_ends (env.order s.disk.clock s.dirty) h (env.order_nodup _ _)
    (fun id member => (env.mem_order _ _ _).mp member)
  cases run : BufferPool.flushIds env (env.order s.disk.clock s.dirty) s with
  | error e s' =>
    rw [run] at flushed
    rw [Hoare.bind_error run]
    exact flushed
  | ok _ s' =>
    rw [run] at flushed
    rw [Hoare.bind_ok run]
    obtain ⟨during, dirty⟩ := flushed
    have clean : s'.dirty = ∅ := by
      apply Finset.eq_empty_of_forall_notMem
      intro id member
      obtain ⟨old, notIn⟩ := (dirty id).mp member
      exact notIn ((env.mem_order _ _ _).mpr old)
    rcases sync_apply env s'.disk with ⟨-, synced⟩ | ⟨fails, failed⟩
    · rw [onDisk_ok synced]
      exact ⟨during.synced, clean, s'.disk.trace, rfl⟩
    · rw [onDisk_error failed]
      have ticked : During env o v n (s'.over s'.disk.tick) :=
        during.step rfl rfl rfl { during.sound with } during.dirty during.agree during.keeps
          (Or.inr (Or.inl rfl))
      exact ⟨rfl, ⟨s'.disk.clock, during.clock, Nat.lt_succ_self _, fails⟩, ticked⟩

/-! ## A flush whose first I/O call fails -/

/-- Before its first write the loop does nothing to the file. -/
theorem flushIds_fails (fails : (env.fault s.disk.clock).isSome = true) (ids : List Nat)
    (long : ∀ id buf, s.entries.lookup id = some buf → 8 ≤ buf.length) :
    (∃ s', BufferPool.flushIds env ids s = .error .io s') ∨
      ∃ s', BufferPool.flushIds env ids s = .ok ⟨⟩ s' ∧ s'.disk = s.disk := by
  induction ids generalizing s with
  | nil => exact Or.inr ⟨s, rfl, rfl⟩
  | cons id ids ih =>
    rw [BufferPool.flushIds]
    cases cached : s.entries.lookup id with
    | none =>
      have run : BufferPool.flushOne env id s = .ok ⟨⟩ s := by
        rw [BufferPool.flushOne, Hoare.get_bind]
        simp only [cached]
        rfl
      rw [Hoare.bind_ok run, Hoare.modify_bind]
      exact ih (s := { s with dirty := s.dirty.erase id }) fails long
    | some buf =>
      rcases flushOne_cases env cached (long id buf cached) with ⟨works, -⟩ | ⟨torn, -, run⟩
      · rw [works] at fails
        cases fails
      · exact Or.inl ⟨_, Hoare.bind_error run⟩

theorem flushAllDirty_fails (sound : Sound env s) (fails : (env.fault s.disk.clock).isSome = true) :
    ∃ s', BufferPool.flushAllDirty env s = .error .io s' := by
  rw [BufferPool.flushAllDirty, Hoare.get_bind]
  cases flushIds_fails fails (env.order s.disk.clock s.dirty) fun _ _ found => sound.long found with
  | inl stopped =>
    obtain ⟨s', run⟩ := stopped
    exact ⟨s', Hoare.bind_error run⟩
  | inr finished =>
    -- nothing was dirty, so that the sync is the first I/O call
    obtain ⟨s', run, disk⟩ := finished
    rw [Hoare.bind_ok run]
    rcases sync_apply env s'.disk with ⟨works, -⟩ | ⟨-, failed⟩
    · rw [disk] at works
      rw [works] at fails
      cases fails
    · exact ⟨_, onDisk_error failed⟩

end Pinax
