import Pinax.Library.Lru
import Pinax.Verified.Recency
import Pinax.Verified.WriteBack

/-! # The I/O calls of the pool

Where the I/O works, the pool is a write-back cache in the order of last use, and what that moves
are the pool's I/O calls. A larger pool therefore never makes more of them.
-/

namespace Pinax

open Hoare (final)

variable {env env' : Env} {s s' : BufferPool} {log log' : List Nat} {id : Nat} {ps : PageSize}
  {start : File} {m : PoolModel}

/-- The pool as a cache of page ids, without the pages. -/
def BufferPool.lru (s : BufferPool) : Lru Nat := ⟨s.capacity, s.recency, s.dirty, s.disk.clock⟩

theorem Cache.sane (cache : Cache s log) : s.lru.Sane where
  positive := cache.positive
  distinct := cache.distinct
  size := by
    show s.recency.length ≤ s.capacity
    rw [cache.perm.length_eq]
    exact cache.size
  dirty := fun id dirty => (cache.keys id).mpr (cache.dirty id dirty)

/-! ## One call -/

section works

variable (works : ∀ k, env.fault k = none)
include works

theorem evictWhileFull_lru (cache : Cache s log) (sound : Sound env s) {bound : Nat}
    (enough : s.entries.keys.length < bound) :
    ∃ s', BufferPool.evictWhileFull env bound s = .ok ⟨⟩ s' ∧ s'.lru = s.lru.room := by
  have same : s.recency.length = s.entries.keys.length := cache.perm.length_eq
  cases cache.sane.cases with
  | inl space =>
    have room : s.entries.keys.length < s.capacity := by
      rw [← same]
      exact space
    exact ⟨s, evictWhileFull_room env (by omega) room, (Lru.room_of_lt space).symm⟩
  | inr full =>
    obtain ⟨full, id, rest, oldest⟩ := full
    have oldest : s.recency = id :: rest := oldest
    have full : s.capacity ≤ s.entries.keys.length := by
      rw [← same]
      exact full
    obtain ⟨bound, rfl⟩ : ∃ n, bound = n + 2 := ⟨bound - 2, by have := cache.positive; omega⟩
    have member : id ∈ s.entries := (cache.keys id).mp (by rw [oldest]; exact List.mem_cons_self)
    obtain ⟨buf, found⟩ := Option.isSome_iff_exists.mp (AList.lookup_isSome.mpr member)
    rw [Lru.room_of_full (by rw [← same] at full; exact full) oldest, BufferPool.evictWhileFull,
      Hoare.get_bind, if_pos full]
    -- the second round finds room
    have after : ∀ d, BufferPool.evictOne env s = .ok ⟨⟩ (s.evicted id rest d) →
        (BufferPool.evictOne env >>= fun _ => BufferPool.evictWhileFull env (bound + 1)) s =
          .ok ⟨⟩ (s.evicted id rest d) := by
      intro d run
      have shorter := (cache.evicted oldest ⟨d, rfl⟩).2
      have size := cache.size
      rw [Hoare.bind_ok run]
      refine evictWhileFull_room env (Nat.le_add_left 1 bound) ?_
      show (s.evicted id rest d).entries.keys.length < s.capacity
      omega
    rcases evictOne_cases env oldest found (sound.long found) with ⟨clean, run⟩ | ⟨dirty, -, run⟩ |
      ⟨-, torn, fails, -⟩
    · refine ⟨_, after _ run, ?_⟩
      simp [BufferPool.lru, BufferPool.evicted, clean]
    · refine ⟨_, after _ run, ?_⟩
      simp [BufferPool.lru, BufferPool.evicted, Disk.pageWritten, dirty]
    · cases (works _).symm.trans fails

theorem insertCached_lru (cache : Cache s log) (sound : Sound env s) (id : Nat) (buf : Bytes)
    (dirty : Bool) :
    ∃ s', BufferPool.insertCached env id buf dirty s = .ok ⟨⟩ s' ∧
      s'.lru = if dirty = true then s.lru.write id else s.lru.use id := by
  have finish : ∀ t : BufferPool, ({ t.lru with queue := t.lru.queue ++ [id] } : Lru Nat) = s.lru.use id →
      (t.cached id buf dirty).lru = if dirty = true then s.lru.write id else s.lru.use id := by
    intro t used
    cases dirty with
    | false => exact used
    | true =>
      rw [if_pos rfl, Lru.write, ← used]
      rfl
  rw [insertCached_eq sound]
  by_cases member : id ∈ s.entries
  · have room := evictWhileFull_room env (Nat.le_add_left 1 (s.uncached id).entries.keys.length)
      (sound.room_uncached member)
    rw [Hoare.bind_ok room]
    exact ⟨_, rfl, finish _ (if_pos ((cache.keys id).mpr member)).symm⟩
  · obtain ⟨s', run, room⟩ :=
      evictWhileFull_lru works cache sound (Nat.lt_succ_self s.entries.keys.length)
    rw [uncached_of_absent sound member, Hoare.bind_ok run]
    refine ⟨_, rfl, finish _ ?_⟩
    rw [room]
    exact (if_neg fun queued => member ((cache.keys id).mp queued)).symm

theorem get_lru (cache : Cache s log) (sound : Sound env s) {buf : Bytes}
    (run : BufferPool.get env id s = .ok buf s') :
    s'.lru = s.lru.read id := by
  rw [BufferPool.get, Hoare.get_bind] at run
  cases cached : s.entries.lookup id with
  | some found =>
    have member : id ∈ s.recency := (cache.keys id).mpr (AList.lookup_isSome.mp (by rw [cached]; rfl))
    rw [Lru.read_hit member]
    simp only [cached] at run
    obtain ⟨-, rfl⟩ := EStateM.Result.ok.inj run
    rfl
  | none =>
    have absent : id ∉ s.recency := fun queued => by
      have inside := AList.lookup_isSome.mpr ((cache.keys id).mp queued)
      rw [cached] at inside
      cases inside
    simp only [cached] at run
    rcases readDataPage_cases env s.pager id s.disk with ⟨page, read, -, -⟩ | ⟨e, read, -⟩
    · have sound' : Sound env (s.over s.disk.tick) := { sound with }
      obtain ⟨t, inserted, lru⟩ := insertCached_lru works (cache.over s.disk.tick) sound' id page false
      rw [Hoare.bind_ok (onDisk_ok read), Hoare.bind_ok inserted] at run
      obtain ⟨-, rfl⟩ := EStateM.Result.ok.inj run
      rw [lru, Lru.read, if_neg (show id ∉ s.lru.queue from absent)]
      rfl
    · rw [Hoare.bind_error (onDisk_error read)] at run
      cases run

theorem flushIds_lru {ids : List Nat} (cached : ∀ id ∈ ids, id ∈ s.entries)
    (long : ∀ id buf, s.entries.lookup id = some buf → 8 ≤ buf.length) :
    ∃ s', BufferPool.flushIds env ids s = .ok ⟨⟩ s' ∧ s'.pager = s.pager ∧ s'.capacity = s.capacity ∧
      s'.recency = s.recency ∧
      s'.disk.clock = s.disk.clock + ids.length ∧ ∀ id ∈ s'.dirty, id ∈ s.dirty ∧ id ∉ ids := by
  induction ids generalizing s with
  | nil => exact ⟨s, rfl, rfl, rfl, rfl, rfl, fun id dirty => ⟨dirty, List.not_mem_nil⟩⟩
  | cons id ids ih =>
    obtain ⟨buf, found⟩ :=
      Option.isSome_iff_exists.mp (AList.lookup_isSome.mpr (cached id List.mem_cons_self))
    have stampedLong : 8 ≤ (stamped env buf).length := by
      rw [length_stamped (long id buf found)]
      exact long id buf found
    rw [BufferPool.flushIds]
    rcases flushOne_cases env found (long id buf found) with ⟨-, run⟩ | ⟨torn, fails, -⟩
    · rw [Hoare.bind_ok run, Hoare.modify_bind]
      obtain ⟨s', rest, pager, capacity, recency, clock, dirty⟩ :=
        ih (s := { s.flushed env id buf _ with dirty := s.dirty.erase id })
        (fun id' member => (AList.mem_insert _).mpr
          (Or.inr (cached id' (List.mem_cons_of_mem id member)))) (fun id' buf' found' => by
          by_cases same : id' = id
          · subst same
            rw [BufferPool.flushed, AList.lookup_insert, Option.some.injEq] at found'
            rw [← found']
            exact stampedLong
          · rw [BufferPool.flushed, AList.lookup_insert_ne same] at found'
            exact long id' buf' found')
      refine ⟨s', rest, pager, capacity, recency, ?_, fun id' member => ?_⟩
      · rw [clock, List.length_cons]
        show s.disk.clock + 1 + ids.length = _
        omega
      · obtain ⟨old, later⟩ := dirty id' member
        obtain ⟨different, old⟩ := Finset.mem_erase.mp old
        exact ⟨old, List.not_mem_cons_of_ne_of_not_mem different later⟩
    · cases (works _).symm.trans fails

theorem flushAllDirty_lru (cache : Cache s log) (sound : Sound env s) :
    ∃ s', BufferPool.flushAllDirty env s = .ok ⟨⟩ s' ∧ s'.pager = s.pager ∧ s'.lru = s.lru.flush 1 := by
  have ids : (env.order s.disk.clock s.dirty).length = s.dirty.card := by
    rw [← List.toFinset_card_of_nodup (env.order_nodup _ _)]
    congr 1
    ext id
    rw [List.mem_toFinset, env.mem_order]
  have cached : ∀ id ∈ env.order s.disk.clock s.dirty, id ∈ s.entries := fun id member =>
    cache.dirty id ((env.mem_order _ _ id).mp member)
  obtain ⟨t, run, pager, capacity, recency, clock, dirty⟩ :=
    flushIds_lru works cached fun id buf found => sound.long found
  have synced : onDisk (sync env) t = .ok ⟨⟩ (t.over t.disk.synced) := by
    rcases sync_apply env t.disk with ⟨-, synced⟩ | ⟨fails, -⟩
    · exact onDisk_ok synced
    · rw [works] at fails
      cases fails
  have flushed : BufferPool.flushAllDirty env s = .ok ⟨⟩ (t.over t.disk.synced) := by
    rw [BufferPool.flushAllDirty, Hoare.get_bind, Hoare.bind_ok run]
    exact synced
  have clean : t.dirty = ∅ := by
    refine Finset.eq_empty_of_forall_notMem fun id member => ?_
    obtain ⟨old, missed⟩ := dirty id member
    exact missed ((env.mem_order _ _ id).mpr old)
  refine ⟨_, flushed, pager, ?_⟩
  show (⟨t.capacity, t.recency, t.dirty, t.disk.clock + 1⟩ : Lru Nat)
    = ⟨s.capacity, s.recency, ∅, s.disk.clock + s.dirty.card + 1⟩
  rw [capacity, recency, clean, clock, ids]

theorem commit_lru (cache : Cache s log) (sound : Sound env s) (root : Nat) :
    ((final (BufferPool.commit env root s)).lru = s.lru.flush 2 ∧ s.pager.TxnOverflow env) ∨
    ((final (BufferPool.commit env root s)).lru = s.lru.flush 4 ∧ ¬ s.pager.TxnOverflow env) := by
  obtain ⟨t, run, pager, lru⟩ := flushAllDirty_lru works cache sound
  -- the calls of the pager come after the flush
  have later : ∀ {n : Nat} {p : Pager} {d : Disk}, d.clock = t.disk.clock + n →
      ({ t.over d with pager := p } : BufferPool).lru = s.lru.flush (1 + n) := by
    intro n p d clock
    show ({ t.lru with moved := d.clock } : Lru Nat) = _
    rw [clock, show t.disk.clock = t.lru.moved from rfl, lru]
    simp only [Lru.flush, Nat.add_assoc]
  rw [BufferPool.commit, Hoare.bind_ok run, Hoare.get_bind, ← pager]
  rcases Pager.commit_cases env t.pager root t.nextPageId t.disk with
    ⟨⟨txn, -⟩, done⟩ | ⟨fails, -⟩ | ⟨overflow, panics⟩ | ⟨torn, ⟨-, fails⟩, -⟩ | ⟨⟨-, -, fails⟩, -⟩
  · rw [Hoare.bind_ok (onDisk_ok done)]
    exact Or.inr ⟨later (n := 3) rfl, txn⟩
  · rw [works] at fails
    cases fails
  · rw [Hoare.bind_error (onDisk_error panics)]
    exact Or.inl ⟨later (n := 1) rfl, overflow⟩
  · cases (works _).symm.trans fails
  · rw [works] at fails
    cases fails

/-- The operations of a call on the cache. -/
def PoolCall.ops (overflow : Bool) : PoolCall → List (Lru.Op Nat)
  | .allocate => []
  | .put id _ => [.write id]
  | .get id => [.read id]
  | .flush => [.flush 1]
  | .commit _ => [.flush (if overflow then 2 else 4)]

/-- What a call does to the cache. -/
theorem call_lru (cache : Cache s log) (holding : Holding env ps start m s) {call : PoolCall}
    (fits : call = .allocate → m.next + 1 < 2 ^ 32)
    (found : ∀ id, call = .get id → ∃ content, answerOf (call.run env s) = .ok (.page content)) :
    (final (call.run env s)).lru = s.lru.run (call.ops (m.TxnOverflow env)) := by
  cases call with
  | allocate =>
    -- no page is read or moved for an id
    rcases allocatePageId_apply env s with ⟨-, run⟩ | ⟨large, -⟩
    · have ran : PoolCall.allocate.run env s = .ok (.id s.nextPageId) s.handedOut := Hoare.bind_ok run
      rw [ran]
      rfl
    · rw [holding.next] at large
      exact absurd (fits rfl) (Nat.not_lt.mpr large)
  | put id buf =>
    obtain ⟨s', run, lru⟩ := insertCached_lru works cache holding.sound id buf true
    have ran : (PoolCall.put id buf).run env s = .ok .done s' := Hoare.bind_ok run
    rw [ran]
    exact lru
  | get id =>
    -- the read did not fail, so the page was cached or came from the file
    obtain ⟨content, answer⟩ := found id rfl
    have ran : (PoolCall.get id).run env s =
      (do return .page (body (← BufferPool.get env id)) : PoolM PoolAnswer) s := rfl
    rw [ran] at answer ⊢
    cases run : BufferPool.get env id s with
    | error e s' =>
      rw [Hoare.bind_error run] at answer
      cases answer
    | ok buf s' =>
      rw [Hoare.bind_ok run]
      exact get_lru works cache holding.sound run
  | flush =>
    obtain ⟨s', run, -, lru⟩ := flushAllDirty_lru works cache holding.sound
    have ran : PoolCall.flush.run env s = .ok .done s' := Hoare.bind_ok run
    rw [ran]
    exact lru
  | commit root =>
    -- a commit flushes unless the transaction id overflows, in the pool as in the model
    have same : s.pager.TxnOverflow env ↔ m.TxnOverflow env := by
      rw [Pager.TxnOverflow, PoolModel.TxnOverflow, holding.txnId]
    have ended : final ((PoolCall.commit root).run env s) = final (BufferPool.commit env root s) := by
      show final ((BufferPool.commit env root >>= fun _ => pure PoolAnswer.done) s) = _
      cases run : BufferPool.commit env root s with
      | ok u s' => rw [Hoare.bind_ok run]; rfl
      | error e s' => rw [Hoare.bind_error run]; rfl
    rw [ended]
    cases commit_lru works cache holding.sound root with
    | inl overflow => rw [overflow.1, PoolCall.ops, decide_eq_true (same.mp overflow.2)]; rfl
    | inr fits =>
      rw [fits.1, PoolCall.ops, decide_eq_false fun overflow => fits.2 (same.mpr overflow)]; rfl

end works

/-! ## Two pools -/

theorem BufferPool.new_lru (env : Env) {disk : Disk} {pager : Pager} {capacity : Nat}
    (made : new disk pager capacity = .ok s) :
    1 ≤ capacity ∧ Cache s [] ∧ s.lru = ⟨capacity, [], ∅, disk.clock⟩ := by
  have run : PoolRun env s [] := .new made
  have cache := run.cache
  obtain ⟨rfl, sound⟩ := new_ok env made
  exact ⟨sound.positive, cache, rfl⟩

theorem Cache.call (cache : Cache s log) (env : Env) (call : PoolCall) :
    ∃ log', Cache (final (call.run env s)) log' := by
  have ends := call_cache env cache call
  cases run : call.run env s with
  | ok answer s' =>
    rw [run] at ends
    exact ⟨_, ends.1⟩
  | error e s' =>
    rw [run] at ends
    exact ⟨_, ends.2.1⟩

theorem Holding.found (works : ∀ k, env.fault k = none) (holding : Holding env ps start m s)
    {call : PoolCall} (sized : call.Sized ps)
    (held : ∀ id, call = .get id → m.page env ps start id ≠ none) (id : Nat) (gets : call = .get id) :
    ∃ content, answerOf (call.run env s) = .ok (.page content) := by
  subst gets
  obtain ⟨content, known⟩ := Option.ne_none_iff_exists'.mp (held id rfl)
  have answers := (holding.call works sized nofun).1
  rw [PoolModel.Answers, known] at answers
  exact ⟨content, answers⟩

theorem PoolModel.next_step (env : Env) (m : PoolModel) (call : PoolCall) (calls : List PoolCall) :
    (m.step env call).next + calls.count .allocate = m.next + (call :: calls).count .allocate := by
  cases call with
  | allocate =>
    rw [List.count_cons_self]
    show m.next + 1 + _ = _
    omega
  | commit root =>
    rw [List.count_cons_of_ne (by simp), PoolModel.step]
    split <;> rfl
  | put id buf => rw [List.count_cons_of_ne (by simp)]; rfl
  | get id => rw [List.count_cons_of_ne (by simp)]; rfl
  | flush => rw [List.count_cons_of_ne (by simp)]; rfl

/-- A larger pool, and a smaller one that holds the same pages. -/
structure Smaller (env env' : Env) (ps : PageSize) (start : File) (m : PoolModel)
    (s s' : BufferPool) : Prop where
  cache : ∃ log, Cache s log
  cache' : ∃ log, Cache s' log
  holding : Holding env ps start m s
  holding' : Holding env' ps start m s'
  below : Lru.Below s.lru s'.lru

section runs

variable (sameHash : env'.xxh3 = env.xxh3) (sameProfile : env'.profile = env.profile)
  (works : ∀ k, env.fault k = none) (works' : ∀ k, env'.fault k = none)
include sameHash sameProfile works works'

theorem Smaller.call (smaller : Smaller env env' ps start m s s') {call : PoolCall}
    (sized : call.Sized ps) (fits : call = .allocate → m.next + 1 < 2 ^ 32)
    (held : ∀ id, call = .get id → m.page env ps start id ≠ none) :
    answerOf (call.run env s) = answerOf (call.run env' s') ∧
      Smaller env env' ps start (m.step env call) (final (call.run env s))
        (final (call.run env' s')) := by
  obtain ⟨⟨log, cache⟩, ⟨log', cache'⟩, holding, holding', below⟩ := smaller
  have step : m.step env' call = m.step env call := after_congr sameProfile [call]
  have page : m.page env' ps start = m.page env ps start := by
    have checks : ∀ buf, verifies env' buf = verifies env buf := fun buf => by
      simp only [verifies, computeChecksum, sameHash]
    funext id
    simp only [PoolModel.page, diskPage, checks]
  have overflow : m.TxnOverflow env' ↔ m.TxnOverflow env := by
    simp only [PoolModel.TxnOverflow, sameProfile]
  have held' : ∀ id, call = .get id → m.page env' ps start id ≠ none := by rwa [page]
  obtain ⟨answers, next, -⟩ := holding.call works sized fits
  obtain ⟨answers', next', -⟩ := holding'.call works' sized fits
  have lru := call_lru works cache holding fits (holding.found works sized held)
  have lru' := call_lru works' cache' holding' fits (holding'.found works' sized held')
  have after := below.run (call.ops (m.TxnOverflow env))
  rw [step] at next'
  rw [decide_eq_decide.mpr overflow] at lru'
  rw [← lru, ← lru'] at after
  refine ⟨?_, cache.call env call, cache'.call env' call, next, next', after⟩
  rcases Answers.agree sameHash sameProfile answers answers' with same | ⟨id, gets, -, failed⟩
  · exact same
  · obtain ⟨content, found⟩ := holding.found works sized held id gets
    obtain ⟨content', found'⟩ := holding'.found works' sized held' id gets
    rw [found, found'] at failed
    rcases failed with failed | failed <;> cases failed

/-- The same sequence of calls keeps the larger pool larger. -/
theorem runCalls_smaller (calls : List PoolCall) (smaller : Smaller env env' ps start m s s')
    (sized : ∀ call ∈ calls, call.Sized ps) (fits : m.next + calls.count .allocate < 2 ^ 32)
    (held : ∀ i id, calls[i]? = some (.get id) →
      (m.after env (calls.take i)).page env ps start id ≠ none) {i : Nat} {call : PoolCall}
    (at' : calls[i]? = some call) :
    ∃ a t t', (runCalls env calls s)[i]? = some (a, t) ∧ (runCalls env' calls s')[i]? = some (a, t') ∧
      ∃ m', Smaller env env' ps start m' t t' := by
  induction calls generalizing m s s' i with
  | nil => cases at'
  | cons first calls ih =>
    obtain ⟨answer, next⟩ :=
      smaller.call sameHash sameProfile works works' (sized first List.mem_cons_self) (by
      rintro rfl
      rw [List.count_cons_self] at fits
      omega) fun id gets => held 0 id (congrArg some gets)
    cases i with
    | zero => exact ⟨_, _, _, rfl, by rw [answer]; rfl, _, next⟩
    | succ i =>
      refine ih next (fun call member => sized call (List.mem_cons_of_mem _ member)) ?_
        (fun i id gets => held (i + 1) id gets) at'
      rwa [PoolModel.next_step]

end runs

/-- A larger pool never makes more I/O calls.  Two pools over the same file, the second at least as
large, that run the same calls in two orders of flushing, without a failing I/O call and getting
only pages that were put or that the file holds: after every call they gave the same answers, what
the smaller pool has cached the larger one has too, and the larger one made at most as many I/O
calls. -/
theorem larger_pool_fewer_io (sameHash : env'.xxh3 = env.xxh3) (sameProfile : env'.profile = env.profile)
    (works : ∀ k, env.fault k = none) (works' : ∀ k, env'.fault k = none) {disk : Disk}
    {pager : Pager} {capacity capacity' : Nat} {pool pool' : BufferPool}
    (opened : BufferPool.new disk pager capacity = .ok pool)
    (opened' : BufferPool.new disk pager capacity' = .ok pool') (larger : capacity ≤ capacity')
    {calls : List PoolCall} (sized : ∀ call ∈ calls, call.Sized pager.pageSize)
    (fits : pager.pageCount + calls.count .allocate ≤ u32Max) (held : ∀ i id, calls[i]? = some (.get id) →
      lastPut (calls.take i) id ≠ none ∨ diskPage env pager.pageSize disk.file id ≠ none)
    {i : Nat} {call : PoolCall} (at' : calls[i]? = some call) :
    ∃ a s s', (runCalls env calls pool)[i]? = some (a, s) ∧
      (runCalls env' calls pool')[i]? = some (a, s') ∧
      (∀ id ∈ s.entries, id ∈ s'.entries) ∧ s'.disk.clock ≤ s.disk.clock := by
  have small : (PoolModel.new pager).next + calls.count .allocate < 2 ^ 32 := by
    simp only [PoolModel.new, u32Max] at *
    omega
  have known : ∀ i id, calls[i]? = some (.get id) →
      ((PoolModel.new pager).after env (calls.take i)).page env pager.pageSize disk.file id ≠ none := by
    intro i id gets none
    have low : firstDataPageId ≤ id := sized _ (List.mem_of_getElem? gets)
    rw [PoolModel.page, if_pos low, Option.or_eq_none_iff, after_puts, Option.or_eq_none_iff] at none
    cases held i id gets with
    | inl put => exact put none.1.1
    | inr readable => exact readable none.2
  obtain ⟨positive, cache, lru⟩ := BufferPool.new_lru env opened
  obtain ⟨-, cache', lru'⟩ := BufferPool.new_lru env opened'
  have smaller : Smaller env env' pager.pageSize disk.file (PoolModel.new pager) pool pool' := by
    refine ⟨⟨_, cache⟩, ⟨_, cache'⟩, .new env opened, .new env' opened', ?_⟩
    rw [lru, lru']
    exact .empty positive larger
  obtain ⟨a, s, s', run, run', m', after⟩ :=
    runCalls_smaller sameHash sameProfile works works' calls smaller sized small known at'
  obtain ⟨⟨log, cache⟩, ⟨log', cache'⟩, -, -, below⟩ := after
  exact ⟨a, s, s', run, run', fun id member => (cache'.keys id).mp
    (below.queue.subset ((cache.keys id).mpr member)), below.moved_le⟩

/-- A pool of one page and one of two that put two pages and get the first one. -/
theorem larger_pool_fewer_io_two_pages :
    let env := Env.faultless .dev fun _ => 0
    let pool (capacity : Nat) : BufferPool :=
      ⟨⟨true, File.empty, 0, []⟩, ⟨.default, 0, 0, 0, 2⟩, capacity, ∅, ∅, [], 2⟩
    let calls : List PoolCall :=
      [.allocate, .put 2 (List.replicate 4096 7), .allocate, .put 3 (List.replicate 4096 8), .get 2]
    ∃ a s s', (runCalls env calls (pool 1))[4]? = some (a, s) ∧
      (runCalls env calls (pool 2))[4]? = some (a, s') ∧
      (∀ id ∈ s.entries, id ∈ s'.entries) ∧ s'.disk.clock ≤ s.disk.clock := by
  intro env pool calls
  have sized : ∀ call ∈ calls, call.Sized .default := by
    intro call member
    simp only [calls, List.mem_cons, List.not_mem_nil, or_false] at member
    rcases member with rfl | rfl | rfl | rfl | rfl
    · trivial
    · exact ⟨Nat.le_refl _, List.length_replicate⟩
    · trivial
    · exact ⟨by decide, List.length_replicate⟩
    · exact Nat.le_refl _
  have held : ∀ i id, calls[i]? = some (.get id) →
      lastPut (calls.take i) id ≠ none ∨ diskPage env .default File.empty id ≠ none := by
    intro i id gets
    obtain ⟨rfl, rfl⟩ : i = 4 ∧ id = 2 := by
      match i, gets with
      | 4, gets => exact ⟨rfl, (PoolCall.get.inj (Option.some.inj gets)).symm⟩
    exact Or.inl nofun
  have opened : BufferPool.new ⟨true, File.empty, 0, []⟩ ⟨.default, 0, 0, 0, 2⟩ 1 = .ok (pool 1) := rfl
  have opened' : BufferPool.new ⟨true, File.empty, 0, []⟩ ⟨.default, 0, 0, 0, 2⟩ 2 = .ok (pool 2) := rfl
  exact larger_pool_fewer_io rfl rfl (fun _ => rfl) (fun _ => rfl) opened opened' (by decide) sized
    (by decide) held rfl

end Pinax
