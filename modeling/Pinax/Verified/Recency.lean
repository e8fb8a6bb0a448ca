import Pinax.Verified.Transparency
import Pinax.Verified.Opening
import Mathlib.Data.List.Dedup

/-! # The pool evicts what was not used for longest

The three collections of the pool describe one cache in every state a pool can be in, whichever I/O
calls fail and whatever the pages hold, and `recency` is the order in which the cached pages were
last used.
-/

namespace Pinax

open Hoare (Ends final)

variable {env : Env} {s s' : BufferPool} {log : List Nat} {id : Nat} {rest : List Nat}

/-- The page a call used, if it returned `Ok`. -/
def usedBy : PoolCall → Except Stop PoolAnswer → List Nat
  | .put id _, .ok _ => [id]
  | .get id, .ok _ => [id]
  | _, _ => []

/-- The pools that calls lead to, failing ones among them, each with the pages that were used. -/
inductive PoolRun (env : Env) : BufferPool → List Nat → Prop
  | new {disk : Disk} {pager : Pager} {capacity : Nat} {s : BufferPool}
      (made : BufferPool.new disk pager capacity = .ok s) : PoolRun env s []
  | call {s : BufferPool} {log : List Nat} (before : PoolRun env s log) (call : PoolCall) :
      PoolRun env (final (call.run env s)) (log ++ usedBy call (answerOf (call.run env s)))

/-- The three collections are one cache, and `recency` is the order of last use. -/
structure Cache (s : BufferPool) (log : List Nat) : Prop where
  distinct : s.recency.Nodup
  keys : ∀ id, id ∈ s.recency ↔ id ∈ s.entries
  dirty : ∀ id ∈ s.dirty, id ∈ s.entries
  positive : 1 ≤ s.capacity
  size : s.entries.keys.length ≤ s.capacity
  order : s.recency = log.dedup.filter (fun id => id ∈ s.entries)

/-- An error of `x` is not that the pool broke its own invariant, nor a loop that goes on. -/
def SoundStop (e : Stop) : Prop := e ≠ .fatal .poolInvariantViolated ∧ e ≠ .running

theorem SoundStop.io : SoundStop .io := ⟨nofun, nofun⟩
theorem SoundStop.panic : SoundStop .panic := ⟨nofun, nofun⟩

theorem dedup_concat (l : List Nat) (a : Nat) : (l ++ [a]).dedup = l.dedup.filter (· ≠ a) ++ [a] := by
  induction l with
  | nil => rfl
  | cons b l ih =>
    rw [List.cons_append]
    by_cases again : b ∈ l
    · rw [List.dedup_cons_of_mem (List.mem_append_left _ again), ih, List.dedup_cons_of_mem again]
    · rw [List.dedup_cons_of_notMem again]
      by_cases same : b = a
      · subst same
        rw [List.dedup_cons_of_mem (List.mem_append_right _ (List.mem_singleton_self _)), ih,
          List.filter_cons_of_neg (by simp)]
      · rw [List.dedup_cons_of_notMem (by simp [again, same]), ih,
          List.filter_cons_of_pos (by simpa using same)]
        rfl

namespace Cache

theorem perm (h : Cache s log) : s.recency.Perm s.entries.keys :=
  (List.perm_ext_iff_of_nodup h.distinct s.entries.nodupKeys).mpr fun id =>
    (h.keys id).trans AList.mem_keys.symm

/-- The collections alone matter. -/
theorem congr (h : Cache s log) (capacity : s'.capacity = s.capacity)
    (entries : ∀ id, id ∈ s'.entries ↔ id ∈ s.entries)
    (size : s'.entries.keys.length = s.entries.keys.length) (dirty : s'.dirty ⊆ s.dirty)
    (recency : s'.recency = s.recency) : Cache s' log where
  distinct := by rw [recency]; exact h.distinct
  keys := fun id => by rw [recency, entries]; exact h.keys id
  dirty := fun id member => (entries id).mpr (h.dirty id (dirty member))
  positive := by rw [capacity]; exact h.positive
  size := by rw [capacity, size]; exact h.size
  order := by rw [recency, h.order]; simp only [entries]

end Cache

/-! ## Writing a page back touches no collection -/

theorem writeBytes_stop {buf bytes : Bytes} {at' : Nat} {e : Stop}
    (h : writeBytes buf at' bytes = .error e) :
    SoundStop e := by
  rw [writeBytes] at h
  split at h
  · cases h
  · injection h with h
    subst h
    exact ⟨fun h => (by cases h), fun h => (by cases h)⟩

/-- A property of the collections survives a write-back, whether it succeeds or not. -/
theorem writeDataPage_ends {f : Bytes → BufferPool → BufferPool} {P : BufferPool → Prop}
    (id : Nat) (buf : Bytes) (start : P s) (kept : ∀ b s, P s → P (f b s))
    (ticks : ∀ d s, P s → P (s.over d)) :
    Ends (fun _ => P) (fun e s' => SoundStop e ∧ P s')
      (writeDataPage env (fun b => modify (f b)) id buf s) := by
  rw [writeDataPage]
  cases stamp : stampChecksum env buf with
  | error e =>
    rw [liftM_error, Hoare.bind_error (Hoare.throw_apply _ _)]
    exact ⟨writeBytes_stop stamp, start⟩
  | ok b =>
    rw [liftM_ok, Hoare.bind_ok (Hoare.pure_apply _ _), Hoare.modify_bind, Hoare.get_bind]
    rcases writeStamped_cases env (f b s).pager id b (f b s).disk with ⟨-, run⟩ | ⟨torn, -, run⟩
    · rw [onDisk_ok run]
      exact ticks _ _ (kept _ _ start)
    · rw [onDisk_error run]
      exact ⟨.io, ticks _ _ (kept _ _ start)⟩

/-- The state after the oldest page `id` was evicted, whatever happened to the file. -/
def Evicted (s : BufferPool) (id : Nat) (rest : List Nat) (s' : BufferPool) : Prop :=
  ∃ d, s' = s.evicted id rest d

theorem evictOne_ends (env : Env) (h : Cache s log) (oldest : s.recency = id :: rest) :
    Ends (fun _ => Evicted s id rest) (fun e s' => SoundStop e ∧ Evicted s id rest s')
      (BufferPool.evictOne env s) := by
  have member : id ∈ s.entries := (h.keys id).mp (by rw [oldest]; exact List.mem_cons_self)
  obtain ⟨buf, found⟩ := Option.isSome_iff_exists.mp (AList.lookup_isSome.mpr member)
  rw [BufferPool.evictOne, Hoare.get_bind]
  simp only [oldest]
  rw [Hoare.modify_bind]
  simp only [found]
  rw [Hoare.modify_bind]
  by_cases dirty : id ∈ s.dirty
  · rw [if_pos dirty, Hoare.modify_bind]
    exact writeDataPage_ends (f := fun _ s => s) id buf ⟨s.disk, rfl⟩ (fun _ _ evicted => evicted)
      (fun d s' ⟨_, evicted⟩ => ⟨d, by rw [evicted]; rfl⟩)
  · rw [if_neg dirty]
    exact ⟨s.disk, by rw [BufferPool.evicted, Finset.erase_eq_of_notMem dirty]⟩

theorem Cache.evicted (h : Cache s log) (oldest : s.recency = id :: rest)
    (evicted : Evicted s id rest s') :
    Cache s' log ∧ s'.entries.keys.length + 1 = s.entries.keys.length := by
  obtain ⟨d, rfl⟩ := evicted
  have distinct := h.distinct
  rw [oldest, List.nodup_cons] at distinct
  -- the oldest id is the first of the recency, and occurs once
  have inRest : ∀ id', id' ∈ rest ↔ id' ≠ id ∧ id' ∈ s.entries := fun id' => by
    have keys := h.keys id'
    rw [oldest, List.mem_cons] at keys
    constructor
    · intro member
      exact ⟨fun same => distinct.1 (same ▸ member), keys.mp (Or.inr member)⟩
    · rintro ⟨ne, member⟩
      exact (keys.mpr member).resolve_left ne
  have member : id ∈ s.entries.keys :=
    AList.mem_keys.mp ((h.keys id).mp (by rw [oldest]; exact List.mem_cons_self))
  have shorter : (s.entries.erase id).keys.length + 1 = s.entries.keys.length := by
    rw [AList.keys_erase, List.length_erase_of_mem member]
    have := List.length_pos_of_mem member
    omega
  refine ⟨⟨distinct.2, fun id' => (inRest id').trans AList.mem_erase.symm, ?_, h.positive,
    ?_, ?_⟩, shorter⟩
  · intro id' dirty
    obtain ⟨ne, dirty⟩ := Finset.mem_erase.mp dirty
    exact AList.mem_erase.mpr ⟨ne, h.dirty id' dirty⟩
  · have := h.size
    show (s.entries.erase id).keys.length ≤ s.capacity
    omega
  · have order := congrArg (List.filter fun id' => id' ≠ id) h.order
    rw [oldest, List.filter_cons_of_neg (by simp), List.filter_eq_self.mpr
      (fun id' inside => by simpa using ((inRest id').mp inside).1), List.filter_filter] at order
    show rest = _
    rw [order]
    refine List.filter_congr fun id' _ => ?_
    simp [BufferPool.evicted, AList.mem_erase]

/-! ## Making room -/

/-- What is evicted was the page that was used least recently. -/
def EvictsOldest (s s' : BufferPool) : Prop :=
  ∀ id ∈ s.entries, id ∉ s'.entries → s.recency.head? = some id

theorem EvictsOldest.of_evicted (oldest : s.recency = id :: rest) (evicted : Evicted s id rest s') :
    EvictsOldest s s' := by
  obtain ⟨d, rfl⟩ := evicted
  intro id' member gone
  by_cases same : id' = id
  · rw [oldest, same]
    rfl
  · exact absurd (AList.mem_erase.mpr ⟨same, member⟩) gone

theorem evictWhileFull_room (env : Env) {bound : Nat} (some : 1 ≤ bound)
    (room : s.entries.keys.length < s.capacity) :
    BufferPool.evictWhileFull env bound s = .ok ⟨⟩ s := by
  cases bound with
  | zero => exact absurd some (by omega)
  | succ bound =>
    rw [BufferPool.evictWhileFull, Hoare.get_bind, if_neg (by omega)]
    rfl

theorem insertCached_room (sound : Sound env s) {id : Nat} (absent : id ∉ s.entries)
    (room : s.entries.keys.length < s.capacity) (buf : Bytes) (dirty : Bool) :
    BufferPool.insertCached env id buf dirty s = .ok ⟨⟩ (s.cached id buf dirty) := by
  rw [insertCached_eq sound, uncached_of_absent sound absent,
    Hoare.bind_ok (evictWhileFull_room env (Nat.le_add_left 1 _) room)]
  rfl

/-- A full cache evicts before it takes the page. -/
theorem insertCached_full (sound : Sound env s) {id : Nat} (absent : id ∉ s.entries)
    (full : s.capacity ≤ s.entries.keys.length) (buf : Bytes) (dirty : Bool) :
    BufferPool.insertCached env id buf dirty s = (do
      BufferPool.evictOne env
      BufferPool.evictWhileFull env s.entries.keys.length
      modify fun s : BufferPool => s.cached id buf dirty) s := by
  rw [insertCached_eq sound, uncached_of_absent sound absent, BufferPool.evictWhileFull,
    bind_assoc, Hoare.get_bind, if_pos full, bind_assoc]

/-- A full cache loses its oldest page, and no more than that. -/
theorem evictWhileFull_full (env : Env) (h : Cache s log) {bound : Nat} (enough : 2 ≤ bound)
    (full : s.capacity ≤ s.entries.keys.length) :
    ∃ id rest, s.recency = id :: rest ∧ Ends (fun _ => Evicted s id rest)
      (fun e s' => SoundStop e ∧ Evicted s id rest s') (BufferPool.evictWhileFull env bound s) := by
  have positive := h.positive
  cases order : s.recency with
  | nil =>
    have perm := h.perm
    rw [order] at perm
    rw [← perm.length_eq] at full
    exact absurd full (by simp only [List.length_nil]; omega)
  | cons id rest =>
    refine ⟨id, rest, rfl, ?_⟩
    obtain ⟨bound, rfl⟩ : ∃ n, bound = n + 2 := ⟨bound - 2, by omega⟩
    rw [BufferPool.evictWhileFull, Hoare.get_bind, if_pos full]
    have one := evictOne_ends env h order
    cases run : BufferPool.evictOne env s with
    | error e s' =>
      rw [run] at one
      rw [Hoare.bind_error run]
      exact one
    | ok _ s' =>
      rw [run] at one
      have shorter := (h.evicted order one).2
      have size := h.size
      have capacity : s'.capacity = s.capacity := by
        obtain ⟨d, rfl⟩ := one
        rfl
      rw [Hoare.bind_ok run, evictWhileFull_room env (by omega) (by omega)]
      exact one

/-! ## Using a page -/

/-- A page that is put last was used last. -/
theorem Cache.cached (h : Cache s log) (absent : id ∉ s.entries)
    (room : s.entries.keys.length < s.capacity) (buf : Bytes) (dirty : Bool) :
    Cache (s.cached id buf dirty) (log ++ [id]) := by
  have fresh : id ∉ s.entries.keys := fun member => absent (AList.mem_keys.mpr member)
  have inserted : ∀ id', id' ∈ s.entries.insert id buf ↔ id' = id ∨ id' ∈ s.entries := fun id' =>
    AList.mem_insert s.entries
  refine ⟨?_, ?_, ?_, h.positive, ?_, ?_⟩
  · show (s.recency ++ [id]).Nodup
    refine List.nodup_append.mpr ⟨h.distinct, List.nodup_singleton _, fun a inside b last => ?_⟩
    rw [List.mem_singleton] at last
    rintro rfl
    exact absent ((h.keys id).mp (last ▸ inside))
  · intro id'
    show id' ∈ s.recency ++ [id] ↔ id' ∈ s.entries.insert id buf
    rw [List.mem_append, List.mem_singleton, inserted, h.keys]
    exact or_comm
  · intro id' member
    refine (inserted id').mpr ?_
    cases dirty with
    | false => exact Or.inr (h.dirty id' member)
    | true => exact (Finset.mem_insert.mp member).imp_right (h.dirty id')
  · show (s.entries.insert id buf).keys.length ≤ s.capacity
    rw [AList.keys_insert, List.erase_of_not_mem fresh, List.length_cons]
    exact room
  · show s.recency ++ [id] = (log ++ [id]).dedup.filter fun id' => id' ∈ s.entries.insert id buf
    rw [dedup_concat, List.filter_append, List.filter_filter, List.filter_cons_of_pos (by simp),
      List.filter_nil, h.order]
    congr 1
    refine List.filter_congr fun id' _ => ?_
    by_cases same : id' = id
    · simp [same, absent]
    · simp [same]

theorem Cache.uncached (h : Cache s log) (member : id ∈ s.entries) :
    ∃ t : BufferPool, t.recency = s.recency.filter (· ≠ id) ∧
      t = { s.uncached id with dirty := s.dirty.erase id } ∧
      Cache t log ∧ id ∉ t.entries ∧ t.entries.keys.length < t.capacity := by
  have listed : id ∈ s.entries.keys := AList.mem_keys.mp member
  have short : (s.entries.erase id).keys.length < s.capacity := by
    rw [AList.keys_erase, List.length_erase_of_mem listed]
    have := List.length_pos_of_mem listed
    have := h.size
    omega
  refine ⟨_, rfl, rfl, ⟨h.distinct.filter _, ?_, ?_, h.positive, Nat.le_of_lt short, ?_⟩,
    fun inside => (AList.mem_erase.mp inside).1 rfl, short⟩
  · intro id'
    show id' ∈ s.recency.filter _ ↔ id' ∈ s.entries.erase id
    rw [List.mem_filter, AList.mem_erase, h.keys, and_comm]
    simp
  · intro id' dirty
    obtain ⟨ne, dirty⟩ := Finset.mem_erase.mp dirty
    exact AList.mem_erase.mpr ⟨ne, h.dirty id' dirty⟩
  · show s.recency.filter _ = log.dedup.filter fun id' => id' ∈ s.entries.erase id
    rw [h.order, List.filter_filter]
    refine List.filter_congr fun id' _ => ?_
    simp [AList.mem_erase]

theorem Cache.over (h : Cache s log) (d : Disk) : Cache (s.over d) log := { h with }

/-- Putting a page into the cache: when it fails, the page was not cached before either. -/
theorem insertCached_cache (env : Env) (h : Cache s log) (id : Nat) (buf : Bytes) (dirty : Bool) :
    Ends (fun _ s' => Cache s' (log ++ [id]) ∧ EvictsOldest s s')
      (fun e s' => SoundStop e ∧ Cache s' log ∧ EvictsOldest s s')
        (BufferPool.insertCached env id buf dirty s) := by
  -- what is left to do once there is room
  have finish : ∀ (t : BufferPool) (x : Unit), ((do
      modify fun s => if dirty then { s with dirty := insert id s.dirty } else s
      modify fun s =>
        { s with entries := s.entries.insert id buf, recency := s.recency ++ [id] } : PoolM Unit) t)
      = .ok x (t.cached id buf dirty) := fun t x => by
    rw [Hoare.modify_bind]
    cases dirty <;> rfl
  have keptOldest : ∀ {t : BufferPool}, EvictsOldest s t → EvictsOldest s (t.cached id buf dirty) := by
    intro t oldest id' member gone
    exact oldest id' member fun inside => gone ((AList.mem_insert _).mpr (Or.inr inside))
  rw [BufferPool.insertCached, Hoare.modify_bind]
  by_cases member : id ∈ s.entries
  · rw [if_pos member, Hoare.get_bind]
    obtain ⟨t, -, rfl, cache, absent, room⟩ := h.uncached member
    -- the page took its own place, so no other page has to leave
    have made : BufferPool.evictWhileFull env ((s.entries.erase id).keys.length + 1) (s.uncached id)
        = .ok ⟨⟩ (s.uncached id) := evictWhileFull_room env (by omega) room
    show Ends _ _ ((BufferPool.evictWhileFull env ((s.entries.erase id).keys.length + 1) >>= _)
      (s.uncached id))
    rw [Hoare.bind_ok made, finish (s.uncached id) ⟨⟩]
    refine ⟨(cache.cached absent room buf true).congr rfl (fun _ => Iff.rfl) rfl ?_ rfl,
      fun id' inside gone => ?_⟩
    · intro id' inside
      show id' ∈ insert id (s.dirty.erase id)
      by_cases same : id' = id
      · rw [same]
        exact Finset.mem_insert_self _ _
      · refine Finset.mem_insert_of_mem (Finset.mem_erase.mpr ⟨same, ?_⟩)
        cases dirty with
        | false => exact inside
        | true => exact (Finset.mem_insert.mp inside).resolve_left same
    · refine absurd ((AList.mem_insert _).mpr ?_) gone
      by_cases same : id' = id
      · exact Or.inl same
      · exact Or.inr (AList.mem_erase.mpr ⟨same, inside⟩)
  · rw [if_neg member, Hoare.get_bind]
    by_cases full : s.capacity ≤ s.entries.keys.length
    -- one page leaves a full cache, the oldest; its write may fail
    · obtain ⟨old, rest, oldest, evicting⟩ := evictWhileFull_full env h
        (show 2 ≤ s.entries.keys.length + 1 by have := h.positive; omega) full
      cases run : BufferPool.evictWhileFull env (s.entries.keys.length + 1) s with
      | error e s' =>
        rw [run] at evicting
        rw [Hoare.bind_error run]
        exact ⟨evicting.1, (h.evicted oldest evicting.2).1, EvictsOldest.of_evicted oldest evicting.2⟩
      | ok _ s' =>
        rw [run] at evicting
        obtain ⟨cache, shorter⟩ := h.evicted oldest evicting
        have evicts := EvictsOldest.of_evicted oldest evicting
        have capacity := h.size
        obtain ⟨d, rfl⟩ := evicting
        have absent : id ∉ (s.evicted old rest d).entries :=
          fun inside => member (AList.mem_erase.mp inside).2
        rw [Hoare.bind_ok run, finish _ ⟨⟩]
        refine ⟨cache.cached absent ?_ buf dirty, keptOldest evicts⟩
        show (s.evicted old rest d).entries.keys.length < s.capacity
        omega
    · rw [Hoare.bind_ok (evictWhileFull_room env (by omega) (by omega)), finish s ⟨⟩]
      exact ⟨h.cached member (by omega) buf dirty, keptOldest fun id' inside gone => absurd inside gone⟩

/-- Reading a page through the cache. -/
theorem get_cache (env : Env) (h : Cache s log) (id : Nat) :
    Ends (fun _ s' => Cache s' (log ++ [id]) ∧ EvictsOldest s s')
      (fun e s' => SoundStop e ∧ Cache s' log ∧ EvictsOldest s s') (BufferPool.get env id s) := by
  have none : ∀ {d : Disk}, EvictsOldest s (s.over d) := fun id' inside gone => absurd inside gone
  rw [BufferPool.get, Hoare.get_bind]
  cases cached : s.entries.lookup id with
  | some buf =>
    -- a hit moves the id to the end of the recency, and nothing leaves
    have member : id ∈ s.entries := AList.lookup_isSome.mp (by rw [cached]; rfl)
    refine ⟨⟨?_, fun id' => ?_, h.dirty, h.positive, h.size, ?_⟩,
      fun id' inside gone => absurd inside gone⟩
    · show (s.recency.filter (· ≠ id) ++ [id]).Nodup
      refine List.nodup_append.mpr ⟨h.distinct.filter _, List.nodup_singleton _,
        fun a inside b last => ?_⟩
      rw [List.mem_singleton] at last
      rw [last]
      simpa using (List.mem_filter.mp inside).2
    · show id' ∈ s.recency.filter (· ≠ id) ++ [id] ↔ id' ∈ s.entries
      rw [List.mem_append, List.mem_singleton, List.mem_filter, h.keys]
      by_cases same : id' = id
      · simp [same, member]
      · simp [same]
    · show s.recency.filter (· ≠ id) ++ [id] = (log ++ [id]).dedup.filter fun id' => id' ∈ s.entries
      rw [dedup_concat, List.filter_append, h.order, List.filter_filter, List.filter_filter,
        List.filter_cons_of_pos (by simpa using member), List.filter_nil]
      congr 1
      exact List.filter_congr fun id' _ => Bool.and_comm _ _
  | none =>
    simp only
    -- a miss: the page is read before it takes a place, so a failed read moves nothing
    rcases readDataPage_cases env s.pager id s.disk with ⟨buf, run, -⟩ | ⟨e, run, why⟩
    · rw [Hoare.bind_ok (onDisk_ok run)]
      have inserted := insertCached_cache env (h.over s.disk.tick) id buf false
      cases insert : BufferPool.insertCached env id buf false (s.over s.disk.tick) with
      | ok _ s' =>
        rw [insert] at inserted
        rw [Hoare.bind_ok insert]
        exact inserted
      | error e s' =>
        rw [insert] at inserted
        rw [Hoare.bind_error insert]
        exact inserted
    · rw [Hoare.bind_error (onDisk_error run)]
      refine ⟨?_, h.over _, none⟩
      rcases why with ⟨rfl, -⟩ | ⟨-, ⟨rfl, -⟩ | ⟨rfl, -⟩⟩
      · exact .io
      · exact .io
      · exact ⟨fun h => (by cases h), fun h => (by cases h)⟩

/-! ## Flushing -/

/-- No page enters or leaves the cache. -/
def Resident (s : BufferPool) (log : List Nat) (s' : BufferPool) : Prop :=
  Cache s' log ∧ ∀ id, id ∈ s'.entries ↔ id ∈ s.entries

theorem Resident.over (h : Resident s log s') (d : Disk) : Resident s log (s'.over d) := ⟨h.1.over d, h.2⟩

theorem Resident.oldest (h : Resident s log s') : EvictsOldest s s' :=
  fun id member gone => absurd ((h.2 id).mpr member) gone

/-- The stamped copy takes the place of the page. -/
theorem Resident.replace (h : Resident s log s') (member : id ∈ s'.entries) (buf : Bytes) :
    Resident s log { s' with entries := s'.entries.insert id buf } := by
  have keys : ∀ id', id' ∈ s'.entries.insert id buf ↔ id' ∈ s'.entries := fun id' => by
    rw [AList.mem_insert]
    constructor
    · rintro (same | inside)
      · exact same ▸ member
      · exact inside
    · exact Or.inr
  have listed := AList.mem_keys.mp member
  refine ⟨h.1.congr rfl keys ?_ (Finset.Subset.refl _) rfl, fun id' => (keys id').trans (h.2 id')⟩
  show (s'.entries.insert id buf).keys.length = _
  rw [AList.keys_insert, List.length_cons, List.length_erase_of_mem listed]
  have := List.length_pos_of_mem listed
  omega

theorem flushIds_cache (env : Env) (ids : List Nat) (h : Resident s log s') :
    Ends (fun _ => Resident s log) (fun e s'' => SoundStop e ∧ Resident s log s'')
      (BufferPool.flushIds env ids s') := by
  induction ids generalizing s' with
  | nil => exact h
  | cons id ids ih =>
    have one : Ends (fun _ => Resident s log) (fun e s'' => SoundStop e ∧ Resident s log s'')
        (BufferPool.flushOne env id s') := by
      rw [BufferPool.flushOne, Hoare.get_bind]
      cases cached : s'.entries.lookup id with
      | none => exact h
      | some buf =>
        have member : id ∈ s'.entries := AList.lookup_isSome.mp (by rw [cached]; rfl)
        let replace : Bytes → BufferPool → BufferPool :=
          fun b t => { t with entries := t.entries.insert id b }
        have ends : Ends (fun _ t => Resident s log t ∧ id ∈ t.entries)
            (fun e t => SoundStop e ∧ Resident s log t ∧ id ∈ t.entries)
            (writeDataPage env (fun b => modify (replace b)) id buf s') :=
          writeDataPage_ends id buf ⟨h, member⟩
            (fun b t both => ⟨both.1.replace both.2 b, (AList.mem_insert _).mpr (Or.inl rfl)⟩)
            (fun d t both => ⟨both.1.over d, both.2⟩)
        exact Ends.imp ends (fun _ _ both => both.1) (fun _ _ both => ⟨both.1, both.2.1⟩)
    rw [BufferPool.flushIds]
    cases run : BufferPool.flushOne env id s' with
    | error e s'' =>
      rw [run] at one
      rw [Hoare.bind_error run]
      exact one
    | ok _ s'' =>
      rw [run] at one
      rw [Hoare.bind_ok run, Hoare.modify_bind]
      exact ih ⟨one.1.congr rfl (fun _ => Iff.rfl) rfl (Finset.erase_subset _ _) rfl, one.2⟩

theorem flushAllDirty_cache (env : Env) (h : Cache s log) :
    Ends (fun _ => Resident s log) (fun e s' => SoundStop e ∧ Resident s log s')
      (BufferPool.flushAllDirty env s) := by
  have start : Resident s log s := ⟨h, fun _ => Iff.rfl⟩
  rw [BufferPool.flushAllDirty, Hoare.get_bind]
  have ids := flushIds_cache env (env.order s.disk.clock s.dirty) start
  cases run : BufferPool.flushIds env (env.order s.disk.clock s.dirty) s with
  | error e s' =>
    rw [run] at ids
    rw [Hoare.bind_error run]
    exact ids
  | ok _ s' =>
    rw [run] at ids
    rw [Hoare.bind_ok run]
    rcases sync_apply env s'.disk with ⟨-, synced⟩ | ⟨-, failed⟩
    · rw [onDisk_ok synced]
      exact ids.over _
    · rw [onDisk_error failed]
      exact ⟨.io, ids.over _⟩

theorem commit_cache (env : Env) (h : Cache s log) (root : Nat) :
    Ends (fun _ => Resident s log) (fun e s' => SoundStop e ∧ Resident s log s')
      (BufferPool.commit env root s) := by
  have flushed := flushAllDirty_cache env h
  rw [BufferPool.commit]
  cases run : BufferPool.flushAllDirty env s with
  | error e s' =>
    rw [run] at flushed
    rw [Hoare.bind_error run]
    exact flushed
  | ok _ s' =>
    rw [run] at flushed
    rw [Hoare.bind_ok run, Hoare.get_bind]
    have failed : ∀ {e : Stop} {d : Disk}, SoundStop e →
      s'.pager.commit env root s'.nextPageId s'.disk = .error e d →
        Ends (fun _ => Resident s log) (fun e s'' => SoundStop e ∧ Resident s log s'')
          ((onDisk (s'.pager.commit env root s'.nextPageId) >>= fun pager =>
            (modify fun s => { s with pager } : PoolM PUnit)) s') := fun sound run => by
      rw [Hoare.bind_error (onDisk_error run)]
      exact ⟨sound, flushed.over _⟩
    rcases Pager.commit_cases env s'.pager root s'.nextPageId s'.disk with
      ⟨-, done⟩ | ⟨-, fails⟩ | ⟨-, fails⟩ | ⟨_, -, fails⟩ | ⟨-, fails⟩
    · rw [Hoare.bind_ok (onDisk_ok done)]
      exact ⟨{ flushed.1 with }, flushed.2⟩
    · exact failed .io fails
    · exact failed .panic fails
    · exact failed .io fails
    · exact failed .io fails

/-! ## Whole runs -/

theorem allocatePageId_resident (env : Env) (h : Cache s log) :
    Ends (fun _ => Resident s log) (fun e s' => SoundStop e ∧ Resident s log s')
      (BufferPool.allocatePageId env s) := by
  have start : Resident s log s := ⟨h, fun _ => Iff.rfl⟩
  rw [BufferPool.allocatePageId, Hoare.get_bind]
  have recorded : onDisk (record (.alloc s.nextPageId)) s
      = .ok ⟨⟩ (s.over { s.disk with trace := s.disk.trace ++ [.alloc s.nextPageId] }) := rfl
  rw [Hoare.bind_ok recorded, addW]
  split
  · exact ⟨{ h with }, fun _ => Iff.rfl⟩
  · cases env.profile with
    | dev => exact ⟨.panic, start.over _⟩
    | release => exact ⟨{ h with }, fun _ => Iff.rfl⟩

theorem Resident.unused (h : Resident s log s') : Cache s' (log ++ []) ∧ EvictsOldest s s' :=
  ⟨by rw [List.append_nil]; exact h.1, h.oldest⟩

/-- One call, successful or not. -/
theorem call_cache (env : Env) (h : Cache s log) (call : PoolCall) :
    Ends (fun answer s' => Cache s' (log ++ usedBy call (.ok answer)) ∧ EvictsOldest s s')
      (fun e s' => SoundStop e ∧ Cache s' log ∧ EvictsOldest s s') (call.run env s) := by
  have resident : ∀ {α : Type} {r : EStateM.Result Stop BufferPool α},
      Ends (fun _ => Resident s log) (fun e s' => SoundStop e ∧ Resident s log s') r →
      Ends (fun _ s' => Cache s' (log ++ []) ∧ EvictsOldest s s')
        (fun e s' => SoundStop e ∧ Cache s' log ∧ EvictsOldest s s') r :=
    fun ends => ends.imp (fun _ _ h => h.unused) (fun _ _ h => ⟨h.1, h.2.1, h.2.oldest⟩)
  cases call with
  | allocate => exact Ends.map (resident (allocatePageId_resident env h))
  | put id buf => exact Ends.map (insertCached_cache env h id buf true)
  | get id => exact Ends.map (get_cache env h id)
  | flush => exact Ends.map (resident (flushAllDirty_cache env h))
  | commit root => exact Ends.map (resident (commit_cache env h root))

theorem usedBy_error (call : PoolCall) (e : Stop) : usedBy call (.error e) = [] := by cases call <;> rfl

theorem PoolRun.cache (h : PoolRun env s log) : Cache s log := by
  induction h with
  | new made =>
    obtain ⟨rfl, sound⟩ := new_ok env made
    exact ⟨List.nodup_nil, fun id => ⟨fun member => absurd member List.not_mem_nil,
      fun member => absurd member (AList.notMem_empty id)⟩,
      fun id member => absurd member (Finset.notMem_empty id), sound.positive, sound.size, rfl⟩
  | @call s log _ call ih =>
    have ends := call_cache env ih call
    cases run : call.run env s with
    | ok answer s' =>
      rw [run] at ends
      exact ends.1
    | error e s' =>
      rw [run] at ends
      rw [answerOf, usedBy_error, List.append_nil]
      exact ends.2.1

/-- A pool that was just made. -/
def emptyPool (disk : Disk) (capacity : Nat) : BufferPool where
  disk
  pager := (MetaContent.initial PageSize.default).pager 0
  capacity
  entries := ∅
  dirty := ∅
  recency := []
  nextPageId := firstDataPageId

theorem emptyPool_sound (env : Env) (disk : Disk) {capacity : Nat} (positive : 1 ≤ capacity) :
    Sound env (emptyPool disk capacity) :=
  (new_ok env (if_pos positive)).2

theorem emptyPool_put (env : Env) (disk : Disk) {capacity : Nat} (positive : 1 ≤ capacity)
    (id : Nat) (buf : Bytes) :
    (PoolCall.put id buf).run env (emptyPool disk capacity)
      = .ok .done ((emptyPool disk capacity).cached id buf true) := by
  have put :=
    insertCached_room (emptyPool_sound env disk positive) (AList.notMem_empty id) positive buf true
  exact Hoare.bind_ok put

theorem emptyPool_run (env : Env) (disk : Disk) {capacity : Nat} (positive : 1 ≤ capacity) :
    PoolRun env (emptyPool disk capacity) [] :=
  .new (if_pos positive : BufferPool.new disk
    ((MetaContent.initial PageSize.default).pager 0) capacity = _)

/-- A call that returned `Ok`. -/
theorem PoolRun.ok (h : PoolRun env s log) {call : PoolCall} {answer : PoolAnswer}
    (run : call.run env s = .ok answer s') :
    PoolRun env s' (log ++ usedBy call (.ok answer)) := by
  have next := h.call call
  rwa [run] at next

/-- In every state calls lead to, the collections are one cache ordered by last use; every call
evicts at most the page that was used least recently, none finds the cache inconsistent, and none
goes on for ever. -/
theorem pool_exact_lru (h : PoolRun env s log) :
    Cache s log ∧ ∀ call : PoolCall, EvictsOldest s (final (call.run env s)) ∧
      answerOf (call.run env s) ≠ .error (.fatal .poolInvariantViolated) ∧
        answerOf (call.run env s) ≠ .error .running := by
  refine ⟨h.cache, fun call => ?_⟩
  have ends := call_cache env h.cache call
  cases run : call.run env s with
  | ok answer s' =>
    rw [run] at ends
    exact ⟨ends.2, nofun, nofun⟩
  | error e s' =>
    rw [run] at ends
    obtain ⟨⟨sound, stops⟩, -, oldest⟩ := ends
    exact ⟨oldest, fun same => sound (Except.error.inj same), fun same => stops (Except.error.inj same)⟩

/-- A pool of two pages that holds 2 and 3 and then used 2 again: putting page 4 evicts page 3. -/
theorem pool_exact_lru_evicts :
    let env := Env.faultless .dev fun _ => 0
    let page : Bytes := List.replicate 4096 0
    ∃ s s', PoolRun env s [2, 3, 2] ∧ s.capacity = 2 ∧ (PoolCall.put 4 page).run env s = .ok .done s' ∧
      s.recency = [3, 2] ∧ s'.recency = [2, 4] ∧ Cache s [2, 3, 2] ∧ EvictsOldest s s' ∧
        3 ∈ s.entries ∧ 3 ∉ s'.entries := by
  intro env page
  have len : page.length = PageSize.default.bytes := List.length_replicate
  clear_value page
  let disk : Disk := ⟨true, File.empty, 0, []⟩
  let s₀ := emptyPool disk 2
  let s₁ := s₀.cached 2 page true
  let s₂ := s₁.cached 3 page true
  let s₃ : BufferPool := { s₂ with recency := [3, 2] }
  let s₄ :=
    s₃.evicted 3 [2] (s₃.disk.pageWritten s₃.pager 3 (stamped env page) (Torn.whole (stamped env page)))
  have sound₀ : Sound env s₀ := emptyPool_sound env disk (by decide)
  have sound₁ : Sound env s₁ := sound₀.cached rfl (Nat.succ_pos 1) len nofun
  -- pages 2 and 3 fill the pool, and reading 2 makes 3 the oldest
  have put₁ : (PoolCall.put 2 page).run env s₀ = .ok .done s₁ := emptyPool_put env disk (by decide) 2 page
  have absent₁ : 3 ∉ s₁.entries := AList.lookup_eq_none.mp rfl
  have put₂ : (PoolCall.put 3 page).run env s₁ = .ok .done s₂ :=
    Hoare.bind_ok (insertCached_room sound₁ absent₁ (Nat.lt_succ_self 1) page true)
  have sound₂ : Sound env s₂ := sound₁.cached rfl (Nat.lt_succ_self 1) len nofun
  have get₃ : (PoolCall.get 2).run env s₂ = .ok (.page (body page)) s₃ := rfl
  have sound₃ : Sound env s₃ := { sound₂ with recency := (List.Perm.swap 2 3 []).trans sound₂.recency }
  have run₃ : PoolRun env s₃ [2, 3, 2] := (((emptyPool_run env disk (by decide)).ok put₁).ok put₂).ok get₃
  -- page 4 takes the place of page 3
  have absent₃ : 4 ∉ s₃.entries := AList.lookup_eq_none.mp rfl
  have evict : BufferPool.evictOne env s₃ = .ok ⟨⟩ s₄ := by
    rcases evictOne_cases env (show s₃.recency = [3, 2] from rfl)
      (show s₃.entries.lookup 3 = some page from rfl)
      (by rw [len]; decide) with ⟨clean, -⟩ | ⟨-, -, works⟩ | ⟨-, torn, fails, -⟩
    · exact absurd (Finset.mem_insert_self 3 _) clean
    · exact works
    · cases fails
  have put₄ : (PoolCall.put 4 page).run env s₃ = .ok .done (s₄.cached 4 page true) := by
    have room : BufferPool.evictWhileFull env s₃.entries.keys.length s₄ = .ok ⟨⟩ s₄ :=
      evictWhileFull_room env (Nat.succ_pos 1) (Nat.lt_succ_self 1)
    have inserted : BufferPool.insertCached env 4 page true s₃ = .ok ⟨⟩ (s₄.cached 4 page true) := by
      rw [insertCached_full sound₃ absent₃ (Nat.le_refl 2), Hoare.bind_ok evict, Hoare.bind_ok room]
      rfl
    exact Hoare.bind_ok inserted
  obtain ⟨cache, lru⟩ := pool_exact_lru run₃
  have oldest := (lru (.put 4 page)).1
  rw [put₄] at oldest
  exact ⟨s₃, _, run₃, rfl, put₄, rfl, rfl, cache, oldest, AList.lookup_isSome.mp rfl,
    AList.lookup_eq_none.mp rfl⟩

end Pinax
