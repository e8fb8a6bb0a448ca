import Pinax.Verified.Recency
import Pinax.Verified.CommitFailure

/-! # Write-backs that fail

`evict_one` takes its victim out of the cache before it writes it.  A pool operation that fails
keeps every page that was put, but for a victim whose write failed without storing the page.
-/

namespace Pinax

open Hoare (Ends final)

variable (env : Env)

/-- Making room for one page now would evict a dirty page, and its write would fail without storing
it. -/
def BufferPool.LosesVictim (s : BufferPool) : Prop :=
  s.capacity ≤ s.entries.keys.length ∧ ∃ victim rest buf torn, s.recency = victim :: rest ∧
    victim ∈ s.dirty ∧
    s.entries.lookup victim = some buf ∧ env.fault s.disk.clock = some torn ∧
    diskPage env s.pager.pageSize (s.disk.file.store (Pager.fileOffset s.pager.pageSize victim)
      (stamped env buf) torn)
      victim ≠ some (body buf)

/-- The call loses a page: it makes room, before a put or after the read of a page, in a cache that
`LosesVictim`. -/
def PoolCall.Loses (s : BufferPool) : PoolCall → Prop
  | .put id _ => id ∉ s.entries ∧ s.LosesVictim env
  | .get id => id ∉ s.entries ∧ env.fault s.disk.clock = none ∧
      diskPage env s.pager.pageSize s.disk.file id ≠ none ∧ (s.over s.disk.tick).LosesVictim env
  | _ => False

/-- The last content that was put under each id, after a call that ended with `answer`. -/
def PoolCall.putBy (puts : Nat → Option Bytes) : PoolCall → Except Stop PoolAnswer → Nat → Option Bytes
  | .put id buf, .ok _ => withPage puts id (body buf)
  | _, _ => puts

/-- The pools that calls lead to, failing ones among them, with what was put: none of the calls
loses a page. -/
inductive KeepingRun : BufferPool → (Nat → Option Bytes) → Prop
  | new {disk : Disk} {pager : Pager} {capacity : Nat} {s : BufferPool}
      (made : BufferPool.new disk pager capacity = .ok s) : KeepingRun s (fun _ => none)
  | call {s : BufferPool} {puts : Nat → Option Bytes} (before : KeepingRun s puts) (call : PoolCall)
      (sized : call.Sized s.pager.pageSize) (keeps : ¬ call.Loses env s) :
      KeepingRun (final (call.run env s)) (call.putBy puts (answerOf (call.run env s)))

/-- The page is cached as dirty, or it is in its place in the file. -/
def BufferPool.Held (s : BufferPool) (id : Nat) (content : Bytes) : Prop :=
  (∃ buf, s.entries.lookup id = some buf ∧ id ∈ s.dirty ∧ body buf = content) ∨
    diskPage env s.pager.pageSize s.disk.file id = some content

/-- A sound pool in which every page that was put can be read. -/
structure Keeping (ps : PageSize) (puts : Nat → Option Bytes) (s : BufferPool) : Prop where
  sound : Sound env s
  pageSize : s.pager.pageSize = ps
  dirty : ∀ id ∈ s.dirty, firstDataPageId ≤ id
  agree : ∀ id content, puts id = some content → firstDataPageId ≤ id ∧ s.page env id = some content

variable {env} {ps : PageSize} {puts : Nat → Option Bytes} {s s' : BufferPool} {o : Origin}
  {v : Nat → Option Bytes} {n : Nat}

theorem Keeping.held (h : Keeping env ps puts s) {id : Nat} {content : Bytes}
    (put : puts id = some content) :
    s.Held env id content := by
  obtain ⟨low, page⟩ := h.agree id content put
  cases cached : s.entries.lookup id with
  | none =>
    rw [page_uncached cached] at page
    exact Or.inr page
  | some buf =>
    rw [page_cached cached] at page
    obtain rfl := Option.some.inj page
    by_cases dirty : id ∈ s.dirty
    · exact Or.inl ⟨buf, cached, dirty, rfl⟩
    · exact Or.inr (h.sound.clean id buf low cached dirty)

/-- A call may write every data page, and no page is safe from it. -/
def anyPage (s : BufferPool) : Origin := callOrigin s (fun id => firstDataPageId ≤ id) fun _ low => low

theorem Keeping.during (h : Keeping env ps puts s) : During env (anyPage s) puts s.nextPageId s :=
  During.init h.sound rfl h.dirty h.agree (fun _ _ none => absurd none nofun)

theorem Keeping.of_during {t : BufferPool} (size : t.pager.pageSize = ps)
    (h : During env (anyPage t) puts n s) :
    Keeping env ps puts s :=
  ⟨h.sound, (congrArg Pager.pageSize h.pager).trans size, h.dirty, h.agree⟩

/-! ## Making room -/

/-- Making room fails only where its single eviction does, and then loses at most the victim. -/
theorem During.evictWhileFull_error (h : During env o v n s) {bound : Nat} {e : Stop}
    (enough : s.entries.keys.length < bound) (run : BufferPool.evictWhileFull env bound s = .error e s')
    (keeps : ¬ s.LosesVictim env) : During env o v n s' := by
  obtain ⟨bound, rfl⟩ : ∃ k, bound = k + 1 := ⟨bound - 1, by omega⟩
  have positive := h.sound.positive
  have size := h.sound.size
  rw [BufferPool.evictWhileFull, Hoare.get_bind] at run
  by_cases full : s.entries.keys.length ≥ s.capacity
  · rw [if_pos full] at run
    have filled : s.entries.keys ≠ [] := by
      intro none
      rw [none] at full
      simp only [List.length_nil] at full
      omega
    -- one page makes room, so only its own write can fail
    rcases h.evictOne filled with ⟨s₁, evict, during, shorter, -⟩ | ⟨s₁, evict, -⟩
    · have capacity : s₁.capacity = s.capacity := during.capacity.trans h.capacity.symm
      rw [Hoare.bind_ok evict, evictWhileFull_room env (by omega) (by omega)] at run
      cases run
    · rw [Hoare.bind_error evict] at run
      injection run with _ same
      subst same
      obtain ⟨id, rest, buf, oldest, -, found⟩ := h.sound.oldest filled
      have len := h.sound.lengths id buf found
      have pageLong := s.pager.pageSize.bounds.1
      rcases evictOne_cases env oldest found (by omega) with
        ⟨-, works⟩ | ⟨-, -, works⟩ | ⟨dirty, torn, fails, failed⟩
      · cases evict.symm.trans works
      · cases evict.symm.trans works
      · have same := evict.symm.trans failed
        injection same with _ same
        subst same
        have may := h.dirty id dirty
        -- the write failed: the page is known only if the file still holds it
        refine h.evicted oldest found (Or.inr ⟨o.two id may, _, rfl⟩) (Or.inr may)
          (fun _ _ known => known) ?_ h.keeps
        intro content known
        obtain ⟨-, rfl⟩ := h.cachedPage found known
        rw [page_uncached (AList.lookup_erase _ _)]
        by_contra lost
        exact keeps ⟨full, id, rest, buf, torn, oldest, dirty, found, fails, lost⟩
  · rw [if_neg full] at run
    cases run

/-- A page that is put again leaves room. -/
theorem Sound.room_uncached (sound : Sound env s) {id : Nat} (member : id ∈ s.entries) :
    (s.uncached id).entries.keys.length < (s.uncached id).capacity := by
  have listed := AList.mem_keys.mp member
  have size := sound.size
  have positive := List.length_pos_of_mem listed
  show (s.entries.erase id).keys.length < s.capacity
  rw [AList.keys_erase, List.length_erase_of_mem listed]
  omega

theorem During.insertCached_error (h : During env o v n s) {id : Nat} {buf : Bytes}
    {dirty : Bool} {e : Stop} (run : BufferPool.insertCached env id buf dirty s = .error e s')
    (keeps : ¬ (id ∉ s.entries ∧ s.LosesVictim env)) : During env o v n s' := by
  rw [insertCached_eq h.sound] at run
  by_cases member : id ∈ s.entries
  · have room := evictWhileFull_room env (Nat.le_add_left 1 (s.uncached id).entries.keys.length)
      (h.sound.room_uncached member)
    rw [Hoare.bind_ok room] at run
    cases run
  · rw [uncached_of_absent h.sound member] at run
    cases evict : BufferPool.evictWhileFull env (s.entries.keys.length + 1) s with
    | ok _ s₁ =>
      rw [Hoare.bind_ok evict] at run
      cases run
    | error e₁ s₁ =>
      rw [Hoare.bind_error evict] at run
      injection run with _ same
      subst same
      exact h.evictWhileFull_error (Nat.lt_succ_self _) evict fun loses => keeps ⟨member, loses⟩

/-- A page read that returns did not fail. -/
theorem readDataPage_works {pager : Pager} {id : Nat} {d d' : Disk} {buf : Bytes}
    (run : pager.readDataPage env id d = .ok buf d') : env.fault d.clock = none := by
  have read := readExactAt_apply env (Pager.fileOffset pager.pageSize id) pager.pageSize.bytes d
  cases fault : env.fault d.clock with
  | none => rfl
  | some torn =>
    rw [if_pos (Or.inl (by rw [fault]; rfl))] at read
    rw [Pager.readDataPage, Hoare.bind_error read] at run
    cases run

/-! ## One call -/

theorem Keeping.allocate (h : Keeping env ps puts s) :
    Ends (fun _ => Keeping env ps puts) (fun _ => Keeping env ps puts)
      (BufferPool.allocatePageId env s) := by
  rw [BufferPool.allocatePageId, Hoare.get_bind]
  have recorded : onDisk (record (.alloc s.nextPageId)) s
      = .ok ⟨⟩ (s.over { s.disk with trace := s.disk.trace ++ [.alloc s.nextPageId] }) := rfl
  rw [Hoare.bind_ok recorded, addW]
  split
  · exact ⟨{ h.sound with }, h.pageSize, h.dirty, h.agree⟩
  · cases env.profile with
    | dev => exact ⟨{ h.sound with }, h.pageSize, h.dirty, h.agree⟩
    | release => exact ⟨{ h.sound with }, h.pageSize, h.dirty, h.agree⟩

theorem Keeping.put (h : Keeping env ps puts s) {id : Nat} {buf : Bytes} (low : firstDataPageId ≤ id)
    (len : buf.length = s.pager.pageSize.bytes) (keeps : ¬ (id ∉ s.entries ∧ s.LosesVictim env)) :
    Ends (fun _ => Keeping env ps (withPage puts id (body buf))) (fun _ => Keeping env ps puts)
      (BufferPool.putNew env id buf s) := by
  have may : (anyPage s).writable id := low
  have ends := putNew_ends h.during may len
  cases run : BufferPool.putNew env id buf s with
  | ok _ s' =>
    rw [run] at ends
    exact Keeping.of_during h.pageSize ends
  | error e s' => exact Keeping.of_during h.pageSize (h.during.insertCached_error run keeps)

theorem Keeping.get (h : Keeping env ps puts s) {id : Nat} (keeps : ¬ (PoolCall.get id).Loses env s) :
    Ends (fun _ => Keeping env ps puts) (fun _ => Keeping env ps puts) (BufferPool.get env id s) := by
  have ends := get_ends h.during id
  cases run : BufferPool.get env id s with
  | ok buf s' =>
    rw [run] at ends
    exact Keeping.of_during h.pageSize ends.1
  | error e s' =>
    have ticked : During env (anyPage s) puts s.nextPageId (s.over s.disk.tick) :=
      h.during.step rfl rfl rfl { h.sound with } h.during.dirty h.during.agree h.during.keeps
        (Or.inr (Or.inl rfl))
    rw [BufferPool.get, Hoare.get_bind] at run
    cases cached : s.entries.lookup id with
    | some buf =>
      rw [cached] at run
      cases run
    | none =>
      rw [cached] at run
      simp only at run
      -- the read failed before the cache changed, or the write of what it evicts did
      rcases readDataPage_cases env s.pager id s.disk with ⟨buf, read, -, found⟩ | ⟨e', read, -⟩
      · rw [Hoare.bind_ok (onDisk_ok read)] at run
        cases insert : BufferPool.insertCached env id buf false (s.over s.disk.tick) with
        | ok _ s₁ =>
          rw [Hoare.bind_ok insert] at run
          cases run
        | error e₁ s₁ =>
          rw [Hoare.bind_error insert] at run
          injection run with _ same
          subst same
          refine Keeping.of_during h.pageSize
            (ticked.insertCached_error insert fun loses => keeps ⟨loses.1, ?_, ?_, loses.2⟩)
          · exact readDataPage_works read
          · rw [found]
            simp
      · rw [Hoare.bind_error (onDisk_error read)] at run
        injection run with _ same
        subst same
        exact Keeping.of_during h.pageSize ticked

theorem Keeping.flush (h : Keeping env ps puts s) :
    Ends (fun _ s' => Keeping env ps puts s' ∧ s'.dirty = ∅ ∧
      ∃ before, s'.disk.trace = before ++ [.sync s'.disk.file])
      (fun _ => Keeping env ps puts) (BufferPool.flushAllDirty env s) :=
  (flushAllDirty_ends h.during).imp
    (fun _ _ flushed => ⟨Keeping.of_during h.pageSize flushed.1, flushed.2⟩)
    fun _ _ kept => Keeping.of_during h.pageSize kept.2.2

theorem Keeping.commit (h : Keeping env ps puts s) (root : Nat) :
    Ends (fun _ => Keeping env ps puts) (fun _ => Keeping env ps puts)
      (BufferPool.commit env root s) := by
  refine (commit_ends h.during root).imp (fun _ s' committed => ?_) fun e s' failed => ?_
  · have clean := committed.2.dirty
    exact ⟨committed.2.sound, (congrArg Pager.pageSize committed.2.pager).trans h.pageSize,
      fun id dirty => absurd (clean ▸ dirty) (Finset.notMem_empty id), committed.2.agree⟩
  · rcases failed with kept | ⟨-, -, half⟩ | ⟨-, -, during, -⟩
    · exact Keeping.of_during h.pageSize kept.2.2
    · exact ⟨half.sound, (congrArg Pager.pageSize half.pager).trans h.pageSize,
        fun id dirty => absurd (half.dirty ▸ dirty) (Finset.notMem_empty id), half.agree⟩
    · exact Keeping.of_during h.pageSize during

theorem Keeping.call (h : Keeping env ps puts s) (call : PoolCall) (sized : call.Sized s.pager.pageSize)
    (keeps : ¬ call.Loses env s) :
    Keeping env ps (call.putBy puts (answerOf (call.run env s))) (final (call.run env s)) := by
  have ends : Ends (fun answer => Keeping env ps (call.putBy puts (.ok answer)))
      (fun e => Keeping env ps (call.putBy puts (.error e))) (call.run env s) := by
    cases call with
    | allocate => exact Ends.map h.allocate
    | put id buf => exact Ends.map (h.put sized.1 sized.2 keeps)
    | get id => exact Ends.map (h.get keeps)
    | flush => exact Ends.map (h.flush.imp (fun _ _ flushed => flushed.1) fun _ _ kept => kept)
    | commit root => exact Ends.map (h.commit root)
  cases run : call.run env s with
  | ok answer s' =>
    rw [run] at ends
    exact ends
  | error e s' =>
    rw [run] at ends
    exact ends

/-! ## Whole runs -/

theorem KeepingRun.keeping (h : KeepingRun env s puts) : Keeping env s.pager.pageSize puts s := by
  induction h with
  | new made =>
    obtain ⟨rfl, sound⟩ := new_ok env made
    exact ⟨sound, rfl, fun id dirty => absurd dirty (Finset.notMem_empty id),
      fun _ _ none => by cases none⟩
  | call _ call sized keeps ih =>
    have next := ih.call call sized keeps
    rw [next.pageSize]
    exact next

/-- A pool whose calls, failing ones among them, lost no victim holds every page that was put: it is
dirty in the cache or in its place in the file.  Once the I/O works it is read back, and the next
flush that returns `Ok` brings it into the synced file. -/
theorem failed_calls_keep_pages (h : KeepingRun env s puts) {id : Nat} {content : Bytes}
    (put : puts id = some content) : s.Held env id content ∧
      ((∀ k, s.disk.clock ≤ k → env.fault k = none) →
        ∃ buf s', BufferPool.get env id s = .ok buf s' ∧ body buf = content) ∧
      ∀ s', BufferPool.flushAllDirty env s = .ok ⟨⟩ s' →
        diskPage env s'.pager.pageSize s'.disk.file id = some content ∧
          ∃ before, s'.disk.trace = before ++ [.sync s'.disk.file] := by
  have keeping := h.keeping
  obtain ⟨low, page⟩ := keeping.agree id content put
  refine ⟨keeping.held put, fun works => ?_, fun s' run => ?_⟩
  · have ends := get_ends keeping.during id
    cases run : BufferPool.get env id s with
    | ok buf s' =>
      rw [run] at ends
      exact ⟨buf, s', rfl, Option.some.inj (ends.2.2.symm.trans page)⟩
    | error e s' =>
      rw [run] at ends
      rcases ends with ⟨-, ⟨k, late, -, fails⟩, -⟩ | ⟨-, none, -⟩
      · rw [works k late] at fails
        cases fails
      · cases page.symm.trans none
  · have ends := keeping.flush
    rw [run] at ends
    obtain ⟨flushed, clean, synced⟩ := ends
    refine ⟨?_, synced⟩
    rcases flushed.held put with ⟨buf, -, dirty, -⟩ | stored
    · exact absurd (clean ▸ dirty) (Finset.notMem_empty id)
    · exact stored

/-- The second put of a pool of one page evicts the first page; its write fails, and the page is
gone. -/
theorem failed_eviction_loses_page : ∃ page : Bytes, page = List.replicate 4096 0 ∧
    ∀ (profile : Profile) (xxh3 : Bytes → UInt64), let env := Env.failingAt profile xxh3 4
      ∃ s d s₁ s₂ s₃, Database.createWithCapacity env PageSize.default 1
        ⟨false, File.empty, 0, []⟩ = .ok s d ∧
        (PoolCall.put 2 page).run env s = .ok .done s₁ ∧ (PoolCall.put 3 page).run env s₁ =
          .error Stop.io s₂ ∧
        ¬ s₂.Held env 2 (body page) ∧ (PoolCall.get 2).run env s₂ = .error Stop.io s₃ := by
  refine ⟨_, rfl, fun profile xxh3 => ?_⟩
  intro env
  let page : Bytes := List.replicate 4096 0
  let d : Disk := ⟨false, File.empty, 0, []⟩
  let s := emptyPool (d.laidOut env PageSize.default).synced 1
  let s₁ := s.cached 2 page true
  let disk := s₁.disk.pageWritten s₁.pager 2 (stamped env page) ⟨0, fun _ => false⟩
  let s₂ := s₁.evicted 2 [] disk
  have create := create_failingAt profile xxh3 (Nat.le_refl 4)
  have made : Database.createWithCapacity env PageSize.default 1 d =
    .ok s (d.laidOut env PageSize.default).synced := by
    rw [Database.createWithCapacity, Hoare.bind_ok create, Hoare.get_bind, BufferPool.new,
      if_pos (Nat.le_refl 1)]
    rfl
  have first := emptyPool_put env (d.laidOut env PageSize.default).synced (Nat.le_refl 1) 2 page
  have long : page.length = 4096 := List.length_replicate
  have sound : Sound env s₁ :=
    (emptyPool_sound env _ (Nat.le_refl 1)).cached (AList.lookup_eq_none.mpr (AList.notMem_empty 2))
    (Nat.lt_succ_self 0) long (by simp)
  have found : s₁.entries.lookup 2 = some page := AList.lookup_insert _
  have absent : 3 ∉ s₁.entries := fun member => by
    rcases (AList.mem_insert _).mp member with same | inside
    · exact absurd same (by decide)
    · exact AList.notMem_empty 3 inside
  -- page 3 needs the room of page 2, whose write fails after it has left the cache
  have evict : BufferPool.evictOne env s₁ = .error Stop.io s₂ := by
    rcases evictOne_cases env (show s₁.recency = [2] from rfl) found (by omega) with
      ⟨clean, -⟩ | ⟨-, works, -⟩ | ⟨-, torn, fails, run⟩
    · exact absurd (Finset.mem_insert_self 2 ∅) clean
    · cases works
    · have same : (⟨0, fun _ => false⟩ : Torn) = torn := Option.some.inj fails
      subst same
      exact run
  have second : (PoolCall.put 3 page).run env s₁ = .error Stop.io s₂ := by
    have inserted : BufferPool.insertCached env 3 page true s₁ = .error Stop.io s₂ := by
      rw [insertCached_full sound absent (Nat.le_refl 1)]
      exact Hoare.bind_error evict
    exact Hoare.bind_error inserted
  -- page 2 is neither cached nor in the file, which ends with the meta slots
  have gone : s₂.entries.lookup 2 = none := AList.lookup_erase _ _
  have short : s₂.disk.file.len = metaRegionLen := rfl
  have outside : ¬ Pager.fileOffset PageSize.default 2 + PageSize.default.bytes ≤ s₂.disk.file.len := by
    rw [short]
    decide
  refine ⟨s, _, s₁, s₂, s₂.over s₂.disk.tick, made, first, second, ?_, ?_⟩
  · rintro (⟨buf, cached, -⟩ | stored)
    · cases gone.symm.trans cached
    · rw [diskPage, if_neg fun readable => outside readable.1] at stored
      cases stored
  · refine Hoare.bind_error ?_
    have read :=
      readExactAt_apply env (Pager.fileOffset PageSize.default 2) PageSize.default.bytes s₂.disk
    rw [if_pos (Or.inr (Nat.not_le.mp outside))] at read
    have unread : s₂.pager.readDataPage env 2 s₂.disk = .error Stop.io s₂.disk.tick :=
      Hoare.bind_error read
    rw [BufferPool.get, Hoare.get_bind]
    simp only [gone]
    exact Hoare.bind_error (onDisk_error unread)

/-- The first write of a flush fails: the page is still cached as dirty, it is read back, and the
next flush writes it. -/
theorem failed_calls_keep_pages_failed_flush :
    let env := Env.failingAt .dev (fun _ => 0) 0
    let page : Bytes := List.replicate 4096 0
    ∃ s₁ s₂, (PoolCall.put 2 page).run env (emptyPool ⟨true, File.empty, 0, []⟩ 1) = .ok .done s₁ ∧
      PoolCall.flush.run env s₁ = .error .io s₂ ∧ s₂.Held env 2 (body page) ∧
      (∃ buf s₃, BufferPool.get env 2 s₂ = .ok buf s₃ ∧ body buf = body page) ∧
      ∃ s₃, PoolCall.flush.run env s₂ = .ok .done s₃ ∧
        diskPage env s₃.pager.pageSize s₃.disk.file 2 = some (body page) := by
  intro env page
  have len : page.length = PageSize.default.bytes := List.length_replicate
  clear_value page
  let s₀ := emptyPool ⟨true, File.empty, 0, []⟩ 1
  let s₁ := s₀.cached 2 page true
  have sound₁ : Sound env s₁ :=
    (emptyPool_sound env _ (Nat.le_refl 1)).cached rfl (Nat.lt_succ_self 0) len nofun
  have put : (PoolCall.put 2 page).run env s₀ = .ok .done s₁ := emptyPool_put env _ (Nat.le_refl 1) 2 page
  obtain ⟨s₂, flush⟩ := flushAllDirty_fails sound₁ (show (env.fault 0).isSome = true from rfl)
  have flushed : PoolCall.flush.run env s₁ = .error .io s₂ := Hoare.bind_error flush
  have start : KeepingRun env s₀ fun _ => none :=
    .new (if_pos (Nat.le_refl 1) : BufferPool.new _
      ((MetaContent.initial PageSize.default).pager 0) 1 = _)
  have keeps : ¬ (PoolCall.put 2 page).Loses env s₀ := fun loses => absurd loses.2.1 (by decide)
  have run₁ := start.call (.put 2 page) ⟨Nat.le_refl 2, len⟩ keeps
  rw [put] at run₁
  have run₂ := run₁.call .flush trivial id
  rw [show final (EStateM.Result.ok PoolAnswer.done s₁) = s₁ from rfl, flushed] at run₂
  have run₂ : KeepingRun env s₂ (withPage (fun _ => none) 2 (body page)) := run₂
  -- I/O call 0 was the one that fails
  have works : ∀ k, s₂.disk.clock ≤ k → env.fault k = none := by
    have ends := flushAllDirty_ends run₁.keeping.during
    rw [show final (EStateM.Result.ok PoolAnswer.done s₁) = s₁ from rfl, flush] at ends
    obtain ⟨-, ⟨k, -, before, -⟩, -⟩ := ends
    exact fun k' late => if_neg (by omega)
  obtain ⟨held, reads, durable⟩ := failed_calls_keep_pages run₂ (withPage_same ..)
  have ends := flushAllDirty_ends run₂.keeping.during
  cases again : BufferPool.flushAllDirty env s₂ with
  | error e s₃ =>
    rw [again] at ends
    obtain ⟨-, ⟨k, late, -, fails⟩, -⟩ := ends
    rw [works k late] at fails
    cases fails
  | ok u s₃ =>
    exact ⟨s₁, s₂, put, flushed, held, reads works, s₃, Hoare.bind_ok again, (durable s₃ again).1⟩

end Pinax
