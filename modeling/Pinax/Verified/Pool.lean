import Pinax.BufferPool
import Pinax.Verified.Pages

/-! # The buffer pool as a store of pages

`BufferPool.page s id` is what the pool knows under `id`: the cached page, or else what the file holds.
`During o v n s` says that `s` was reached from the pool `o.start` by calls that only wrote pages that
are `o.writable`, that the pages `v` can be read, and that `n` is the next id to hand out.  Every call
of the pool below `commit` keeps it, and when a call fails the pages `o.base` are still there.
-/

namespace Pinax

variable (env : Env)

/-- The content of page `id`: from the cache, or from the file. -/
def BufferPool.page (s : BufferPool) (id : Nat) : Option Bytes :=
  match s.entries.lookup id with
  | some buf => some (body buf)
  | none => diskPage env s.pager.pageSize s.disk.file id

/-- The representation invariant of the pool. -/
structure Sound (s : BufferPool) : Prop where
  recency : s.recency.Perm s.entries.keys
  positive : 1 ≤ s.capacity
  size : s.entries.keys.length ≤ s.capacity
  lengths : ∀ id buf, s.entries.lookup id = some buf → buf.length = s.pager.pageSize.bytes
  clean : ∀ id buf, firstDataPageId ≤ id → s.entries.lookup id = some buf → id ∉ s.dirty →
    diskPage env s.pager.pageSize s.disk.file id = some (body buf)

/-- `file'` still has the bytes `file` has outside the `writable` pages. -/
structure Framed (ps : PageSize) (writable : Nat → Prop) (file file' : File) : Prop where
  grown : file.len ≤ file'.len
  same : ∀ i, (∀ id, writable id → i < Pager.fileOffset ps id ∨ Pager.fileOffset ps id + ps.bytes ≤ i) →
    file'.byte i = file.byte i

/-- Where a stretch of calls started: they write `writable` pages only, so the pages of `base` are safe
from them. -/
structure Origin where
  start : BufferPool
  writable : Nat → Prop
  base : Nat → Option Bytes
  two : ∀ id, writable id → firstDataPageId ≤ id
  safe : ∀ id content, base id = some content → ¬ writable id

/-- What the trace records before a commit. -/
def DataEvent (o : Origin) : Event → Prop
  | .alloc _ => True
  | .pageWrite id count => o.writable id ∧ count = o.start.pager.pageCount
  | .write off data => ∃ id, o.writable id ∧ off = Pager.fileOffset o.start.pager.pageSize id ∧
      data.length = o.start.pager.pageSize.bytes
  | .sync file => Framed o.start.pager.pageSize o.writable o.start.disk.file file

/-- The ids `allocate_page_id` was called for. -/
def allocated (trace : List Event) : List Nat :=
  trace.filterMap (fun | .alloc id => some id | _ => none)

/-- Some call of `allocate_page_id` found `next_page_id` at `u32::MAX`. -/
def Exhausted (s : BufferPool) : Prop := ∃ id ∈ allocated s.disk.trace, u32Max ≤ id

structure During (o : Origin) (v : Nat → Option Bytes) (n : Nat) (s : BufferPool) : Prop where
  sound : Sound env s
  pager : s.pager = o.start.pager
  capacity : s.capacity = o.start.capacity
  present : s.disk.present = o.start.disk.present
  next : s.nextPageId = n
  grown : o.start.nextPageId ≤ n
  dirty : ∀ id ∈ s.dirty, o.writable id
  agree : ∀ id content, v id = some content → firstDataPageId ≤ id ∧ s.page env id = some content
  keeps : ∀ id content, o.base id = some content → v id = some content
  framed : Framed o.start.pager.pageSize o.writable o.start.disk.file s.disk.file
  clock : o.start.disk.clock ≤ s.disk.clock
  trace : ∃ ext, s.disk.trace = o.start.disk.trace ++ ext ∧ (∀ e ∈ ext, DataEvent o e) ∧
    allocated ext = List.range' o.start.nextPageId (n - o.start.nextPageId)

/-- The state a failed call leaves. -/
def Failed (o : Origin) (s : BufferPool) : Prop := ∃ n, During env o o.base n s

/-- An I/O call failed since the start. -/
def Faulted (o : Origin) (s : BufferPool) : Prop :=
  ∃ k, o.start.disk.clock ≤ k ∧ k < s.disk.clock ∧ (env.fault k).isSome = true

/-- The postcondition of a call that can fail for an I/O error only. -/
def FailedIo (o : Origin) (e : Stop) (s : BufferPool) : Prop :=
  e = Stop.io ∧ Faulted env o s ∧ Failed env o s

/-- A failed I/O call that cost no page. -/
def KeptIo (o : Origin) (v : Nat → Option Bytes) (n : Nat) (e : Stop) (s : BufferPool) : Prop :=
  e = Stop.io ∧ Faulted env o s ∧ During env o v n s

variable {env} {o : Origin} {v : Nat → Option Bytes} {n : Nat} {s : BufferPool}

/-! ## Small facts -/

theorem page_cached {id : Nat} {buf : Bytes} (found : s.entries.lookup id = some buf) :
    s.page env id = some (body buf) := by
  simp only [BufferPool.page, found]

theorem page_uncached {id : Nat} (absent : s.entries.lookup id = none) :
    s.page env id = diskPage env s.pager.pageSize s.disk.file id := by
  simp only [BufferPool.page, absent]

theorem Framed.refl (ps : PageSize) (writable : Nat → Prop) (file : File) :
    Framed ps writable file file :=
  ⟨Nat.le_refl _, fun _ _ => rfl⟩

theorem Framed.trans {ps : PageSize} {writable : Nat → Prop} {f g h : File}
    (first : Framed ps writable f g) (second : Framed ps writable g h) : Framed ps writable f h :=
  ⟨Nat.le_trans first.grown second.grown, fun i hi => (second.same i hi).trans (first.same i hi)⟩

theorem Framed.store {ps : PageSize} {writable : Nat → Prop} {id : Nat} {file : File} {data : Bytes}
    {torn : Torn} (may : writable id) (len : data.length = ps.bytes) :
    Framed ps writable file (file.store (Pager.fileOffset ps id) data torn) where
  grown := File.len_le_store _ _ _ _
  same := fun i outside => File.byte_store_outside (by rw [len]; exact outside id may)

theorem range'_append_range' {a b c : Nat} (low : a ≤ b) (high : b ≤ c) :
    List.range' a (b - a) ++ List.range' b (c - b) = List.range' a (c - a) := by
  have join := @List.range'_append a (b - a) (c - b) 1
  rwa [show a + 1 * (b - a) = b by omega, show b - a + (c - b) = c - a by omega] at join

theorem allocated_append (t t' : List Event) : allocated (t ++ t') = allocated t ++ allocated t' :=
  List.filterMap_append ..

theorem mem_allocated {trace : List Event} {id : Nat} :
    id ∈ allocated trace ↔ Event.alloc id ∈ trace := by
  simp only [allocated, List.mem_filterMap]
  constructor
  · rintro ⟨e, member, same⟩
    cases e <;> simp_all
  · intro member
    exact ⟨_, member, rfl⟩

theorem Exhausted.append {s' : BufferPool} {ext : List Event} (h : Exhausted s)
    (trace : s'.disk.trace = s.disk.trace ++ ext) : Exhausted s' := by
  obtain ⟨id, member, large⟩ := h
  exact ⟨id, by rw [trace, allocated_append]; exact List.mem_append_left _ member, large⟩

namespace During

/-- Nothing has happened yet. -/
theorem init (sound : Sound env s) {o : Origin} (start : o.start = s)
    (dirty : ∀ id ∈ s.dirty, o.writable id)
    (agree : ∀ id content, v id = some content → firstDataPageId ≤ id ∧ s.page env id = some content)
    (keeps : ∀ id content, o.base id = some content → v id = some content) :
    During env o v s.nextPageId s := by
  subst start
  refine ⟨sound, rfl, rfl, rfl, rfl, Nat.le_refl _, dirty, agree, keeps, Framed.refl _ _ _, Nat.le_refl _,
    [], by simp, by simp, ?_⟩
  simp [allocated]

theorem weaken (h : During env o v n s) {v' : Nat → Option Bytes}
    (less : ∀ id content, v' id = some content → v id = some content)
    (keeps : ∀ id content, o.base id = some content → v' id = some content) : During env o v' n s :=
  { h with
    agree := fun id content found => h.agree id content (less id content found)
    keeps }

theorem failed (h : During env o v n s) : Failed env o s := ⟨n, h.weaken h.keeps (fun _ _ h => h)⟩

/-- A step that moves the disk by one page write of a dirty page, or not at all, and changes the
cache. -/
theorem step (h : During env o v n s) {s' : BufferPool} {v' : Nat → Option Bytes}
    (pager : s'.pager = s.pager) (capacity : s'.capacity = s.capacity)
    (next : s'.nextPageId = s.nextPageId) (sound : Sound env s') (dirty : ∀ id ∈ s'.dirty, o.writable id)
    (agree : ∀ id content, v' id = some content → firstDataPageId ≤ id ∧ s'.page env id = some content)
    (keeps : ∀ id content, o.base id = some content → v' id = some content)
    (disk : s'.disk = s.disk ∨ s'.disk = s.disk.tick ∨ ∃ id data torn, o.writable id ∧
      data.length = s.pager.pageSize.bytes ∧ s'.disk = s.disk.pageWritten s.pager id data torn) :
    During env o v' n s' := by
  have before := h.trace
  have samePager := h.pager
  refine ⟨sound, pager.trans h.pager, capacity.trans h.capacity, ?_, next.trans h.next,
    h.grown, dirty, agree, keeps, ?_, ?_, ?_⟩
  · rcases disk with same | ticked | ⟨id, data, torn, -, -, written⟩
    · rw [same]; exact h.present
    · rw [ticked]; exact h.present
    · rw [written]; exact h.present
  -- outside the pages that may be written the file is as it was
  · rcases disk with same | ticked | ⟨id, data, torn, may, len, written⟩
    · rw [same]; exact h.framed
    · rw [ticked]; exact h.framed
    · rw [samePager] at len
      rw [written, samePager]
      exact h.framed.trans (Framed.store may len)
  · have := h.clock
    rcases disk with same | ticked | ⟨id, data, torn, -, -, written⟩
    · rw [same]; exact this
    · rw [ticked, Disk.tick_clock]; omega
    · rw [written]; show _ ≤ s.disk.clock + 1; omega
  -- a page write adds two events, of a page that may be written
  · obtain ⟨ext, split, events, ids⟩ := before
    rcases disk with same | ticked | ⟨id, data, torn, high, len, written⟩
    · exact ⟨ext, by rw [same]; exact split, events, ids⟩
    · exact ⟨ext, by rw [ticked]; exact split, events, ids⟩
    · refine ⟨ext ++ [.pageWrite id s.pager.pageCount,
        .write (Pager.fileOffset s.pager.pageSize id) data], ?_, ?_, ?_⟩
      · rw [written, Disk.pageWritten, split]
        simp
      · intro e member
        simp only [List.mem_append, List.mem_cons, List.not_mem_nil, or_false] at member
        rcases member with old | rfl | rfl
        · exact events e old
        · exact ⟨high, by rw [samePager]⟩
        · exact ⟨id, high, by rw [samePager], by rw [← samePager]; exact len⟩
      · rw [allocated_append, ids]
        simp [allocated]

end During

theorem KeptIo.failedIo {e : Stop} (h : KeptIo env o v n e s) : FailedIo env o e s :=
  ⟨h.1, h.2.1, h.2.2.failed⟩

/-! ## Evicting -/

def BufferPool.over (s : BufferPool) (disk : Disk) : BufferPool := { s with disk }

/-- The pool without its least recently used page `id`, over `disk`. -/
def BufferPool.evicted (s : BufferPool) (id : Nat) (rest : List Nat) (disk : Disk) : BufferPool :=
  { s with recency := rest, entries := s.entries.erase id, dirty := s.dirty.erase id, disk }

theorem onDisk_ok {α : Type} {x : IoM α} {a : α} {d : Disk} (run : x s.disk = .ok a d) :
    onDisk x s = .ok a (s.over d) := by
  simp only [onDisk, run]
  rfl

theorem onDisk_error {α : Type} {x : IoM α} {e : Stop} {d : Disk} (run : x s.disk = .error e d) :
    onDisk x s = .error e (s.over d) := by
  simp only [onDisk, run]
  rfl

/-- Writing a page back: it is stamped, handed to `keep` and stored. -/
theorem writeDataPage_cases (env : Env) (f : Bytes → BufferPool → BufferPool) (id : Nat) {buf : Bytes}
    (long : 8 ≤ buf.length) (s : BufferPool) (pager : (f (stamped env buf) s).pager = s.pager)
    (disk : (f (stamped env buf) s).disk = s.disk) :
    (env.fault s.disk.clock = none ∧ writeDataPage env (fun b => modify (f b)) id buf s
      = .ok ⟨⟩ ((f (stamped env buf) s).over
          (s.disk.pageWritten s.pager id (stamped env buf) (Torn.whole (stamped env buf))))) ∨
    (∃ torn, env.fault s.disk.clock = some torn ∧ writeDataPage env (fun b => modify (f b)) id buf s
      = .error Stop.io ((f (stamped env buf) s).over
          (s.disk.pageWritten s.pager id (stamped env buf) torn))) := by
  simp only [writeDataPage, stampChecksum_of_le long, liftM_ok]
  rw [Hoare.bind_ok (Hoare.pure_apply _ _), Hoare.modify_bind, Hoare.get_bind]
  rw [← disk, ← pager]
  rcases writeStamped_cases env (f (stamped env buf) s).pager id (stamped env buf)
    (f (stamped env buf) s).disk
    with ⟨works, run⟩ | ⟨torn, fails, run⟩
  · exact Or.inl ⟨works, onDisk_ok run⟩
  · exact Or.inr ⟨torn, fails, onDisk_error run⟩

theorem evictOne_cases (env : Env) {id : Nat} {rest : List Nat} {buf : Bytes}
    (oldest : s.recency = id :: rest) (found : s.entries.lookup id = some buf) (long : 8 ≤ buf.length) :
    (id ∉ s.dirty ∧ BufferPool.evictOne env s = .ok ⟨⟩ (s.evicted id rest s.disk)) ∨
    (id ∈ s.dirty ∧ env.fault s.disk.clock = none ∧ BufferPool.evictOne env s = .ok ⟨⟩ (s.evicted id rest
      (s.disk.pageWritten s.pager id (stamped env buf) (Torn.whole (stamped env buf))))) ∨
    (id ∈ s.dirty ∧ ∃ torn, env.fault s.disk.clock = some torn ∧
      BufferPool.evictOne env s = .error Stop.io
      (s.evicted id rest (s.disk.pageWritten s.pager id (stamped env buf) torn))) := by
  simp only [BufferPool.evictOne]
  rw [Hoare.get_bind]
  simp only [oldest]
  rw [Hoare.modify_bind]
  simp only [found]
  rw [Hoare.modify_bind]
  by_cases dirty : id ∈ s.dirty
  · rw [if_pos dirty, Hoare.modify_bind]
    rcases writeDataPage_cases env (fun _ s => s) id long (s.evicted id rest s.disk) rfl rfl
      with ⟨works, run⟩ | ⟨torn, fails, run⟩
    · exact Or.inr (Or.inl ⟨dirty, works, run⟩)
    · exact Or.inr (Or.inr ⟨dirty, torn, fails, run⟩)
  · rw [if_neg dirty]
    refine Or.inl ⟨dirty, ?_⟩
    rw [BufferPool.evicted, Finset.erase_eq_of_notMem dirty]
    rfl

section evicted

variable {id : Nat} {rest : List Nat} {buf : Bytes} {disk : Disk}

/-- Evicting `id` moves the disk at most by a write of `id`'s page. -/
def WritesBack (env : Env) (s : BufferPool) (id : Nat) (buf : Bytes) (disk : Disk) : Prop :=
  disk = s.disk ∨ firstDataPageId ≤ id ∧
    ∃ torn, disk = s.disk.pageWritten s.pager id (stamped env buf) torn

theorem diskPage_evicted_other (len : buf.length = s.pager.pageSize.bytes)
    (moved : WritesBack env s id buf disk) {id' : Nat} (low : firstDataPageId ≤ id') (ne : id' ≠ id)
    {content : Bytes} (known : diskPage env s.pager.pageSize s.disk.file id' = some content) :
    diskPage env s.pager.pageSize disk.file id' = some content := by
  have long := s.pager.pageSize.bounds.1
  rcases moved with rfl | ⟨high, torn, rfl⟩
  · exact known
  · exact diskPage_store_other high low (Ne.symm ne) (by rw [length_stamped (by omega), len]) known

theorem page_evicted_other (len : buf.length = s.pager.pageSize.bytes)
    (moved : WritesBack env s id buf disk) {id' : Nat} (low : firstDataPageId ≤ id') (ne : id' ≠ id)
    {content : Bytes} (known : s.page env id' = some content) :
    (s.evicted id rest disk).page env id' = some content := by
  have lookup : (s.evicted id rest disk).entries.lookup id' = s.entries.lookup id' :=
    AList.lookup_erase_ne ne
  cases cached : s.entries.lookup id' with
  | some buf' =>
    rw [page_cached (lookup.trans cached)]
    rwa [page_cached cached] at known
  | none =>
    rw [page_uncached (lookup.trans cached)]
    rw [page_uncached cached] at known
    exact diskPage_evicted_other len moved low ne known

theorem page_evicted_same (sound : Sound env s) (low : firstDataPageId ≤ id)
    (found : s.entries.lookup id = some buf)
    (stored : (id ∉ s.dirty ∧ disk = s.disk) ∨
      disk = s.disk.pageWritten s.pager id (stamped env buf) (Torn.whole (stamped env buf))) :
    (s.evicted id rest disk).page env id = some (body buf) := by
  rw [page_uncached (AList.lookup_erase _ _)]
  rcases stored with ⟨clean, rfl⟩ | rfl
  · exact sound.clean id buf low found clean
  · exact diskPage_write_same (sound.lengths id buf found)

theorem Sound.evicted (sound : Sound env s) (oldest : s.recency = id :: rest)
    (found : s.entries.lookup id = some buf) (moved : WritesBack env s id buf disk) :
    Sound env (s.evicted id rest disk) where
  recency := by
    have perm := sound.recency.erase id
    rw [oldest, List.erase_cons_head] at perm
    rwa [BufferPool.evicted, AList.keys_erase]
  positive := sound.positive
  size := by
    have := sound.size
    rw [BufferPool.evicted, AList.keys_erase]
    exact Nat.le_trans (List.length_erase_le) this
  lengths := fun id' buf' found' => by
    have ne : id' ≠ id := by
      rintro rfl
      cases found'.symm.trans (AList.lookup_erase _ _)
    exact sound.lengths id' buf' ((AList.lookup_erase_ne ne).symm.trans found')
  clean := fun id' buf' low found' clean' => by
    have ne : id' ≠ id := by
      rintro rfl
      cases found'.symm.trans (AList.lookup_erase _ _)
    refine diskPage_evicted_other (sound.lengths id buf found) moved low ne ?_
    refine sound.clean id' buf' low ((AList.lookup_erase_ne ne).symm.trans found')
      (fun dirty => clean' ?_)
    exact Finset.mem_erase.mpr ⟨ne, dirty⟩

/-- Whatever of the evicted page reaches the file, the other pages are kept. -/
theorem During.evicted (h : During env o v n s) (oldest : s.recency = id :: rest)
    (found : s.entries.lookup id = some buf) {v' : Nat → Option Bytes}
    (moved : WritesBack env s id buf disk) (high : disk = s.disk ∨ o.writable id)
    (less : ∀ id' content, v' id' = some content → v id' = some content)
    (same : ∀ content, v' id = some content → (s.evicted id rest disk).page env id = some content)
    (keeps : ∀ id' content, o.base id' = some content → v' id' = some content) :
    During env o v' n (s.evicted id rest disk) := by
  have len := h.sound.lengths id buf found
  have pageLong := s.pager.pageSize.bounds.1
  have stampedLen : (stamped env buf).length = s.pager.pageSize.bytes := by
    rw [length_stamped (by omega), len]
  refine h.step rfl rfl rfl (h.sound.evicted oldest found moved)
    (fun id' dirty => h.dirty id' (Finset.mem_of_mem_erase dirty)) ?_ keeps ?_
  · intro id' content known
    obtain ⟨low, page⟩ := h.agree id' content (less id' content known)
    refine ⟨low, ?_⟩
    by_cases eq : id' = id
    · subst eq; exact same content known
    · exact page_evicted_other len moved low eq page
  · rcases moved with rfl | ⟨low, torn, rfl⟩
    · exact Or.inl rfl
    · rcases high with same | high
      · exact Or.inl same
      · exact Or.inr (Or.inr ⟨id, _, torn, high, stampedLen, rfl⟩)

theorem During.cachedPage (h : During env o v n s) (found : s.entries.lookup id = some buf)
    {content : Bytes} (known : v id = some content) : firstDataPageId ≤ id ∧ content = body buf := by
  obtain ⟨low, page⟩ := h.agree id content known
  rw [page_cached found] at page
  exact ⟨low, (Option.some.inj page).symm⟩

/-- The page `evict_one` takes out, in a cache that is not empty. -/
theorem Sound.oldest (sound : Sound env s) (some : s.entries.keys ≠ []) :
    ∃ id rest buf, s.recency = id :: rest ∧ id ∈ s.entries.keys ∧ s.entries.lookup id = .some buf := by
  cases order : s.recency with
  | nil =>
    have perm := sound.recency
    rw [order] at perm
    exact absurd perm.nil_eq.symm some
  | cons id rest =>
    have member : id ∈ s.entries.keys := sound.recency.subset (by rw [order]; exact List.mem_cons_self)
    obtain ⟨buf, found⟩ : ∃ buf, s.entries.lookup id = .some buf :=
      Option.isSome_iff_exists.mp (AList.lookup_isSome.mpr (AList.mem_keys.mpr member))
    exact ⟨id, rest, buf, rfl, member, found⟩

/-- One eviction: the page goes to the file if it was dirty, and an error loses at most a page that
was not in the base. -/
theorem During.evictOne (h : During env o v n s) (some : s.entries.keys ≠ []) :
    (∃ s', BufferPool.evictOne env s = .ok ⟨⟩ s' ∧ During env o v n s' ∧
      s'.entries.keys.length + 1 = s.entries.keys.length ∧
      (∀ id, s.entries.lookup id = none → s'.entries.lookup id = none) ∧
      ∃ id rest, s.recency = id :: rest ∧ s'.recency = rest ∧ s'.entries = s.entries.erase id) ∨
    (∃ s', BufferPool.evictOne env s = .error Stop.io s' ∧ FailedIo env o Stop.io s') := by
  obtain ⟨id, rest, buf, oldest, member, found⟩ := h.sound.oldest some
  have len := h.sound.lengths id buf found
  have pageLong := s.pager.pageSize.bounds.1
  have shorter : ∀ d, (s.evicted id rest d).entries.keys.length + 1 = s.entries.keys.length := fun d => by
    rw [BufferPool.evicted, AList.keys_erase, List.length_erase_of_mem member]
    have := List.length_pos_of_mem member
    omega
  have absent : ∀ d id', s.entries.lookup id' = none →
    (s.evicted id rest d).entries.lookup id' = none := by
    intro d id' none
    rw [AList.lookup_eq_none] at none ⊢
    exact fun mem => none (AList.mem_erase.mp mem).2
  -- a clean page leaves, a dirty one is written first, or its write fails
  rcases evictOne_cases env oldest found (by omega) with
    ⟨clean, run⟩ | ⟨dirty, -, run⟩ | ⟨dirty, torn, fails, run⟩
  · refine Or.inl ⟨_, run, h.evicted oldest found (Or.inl rfl) (Or.inl rfl)
      (fun _ _ known => known) ?_ h.keeps, shorter _, absent _, id, rest, oldest, rfl, rfl⟩
    intro content known
    obtain ⟨low, rfl⟩ := h.cachedPage found known
    exact page_evicted_same h.sound low found (Or.inl ⟨clean, rfl⟩)
  · have high := h.dirty id dirty
    refine Or.inl ⟨_, run, h.evicted oldest found (Or.inr ⟨o.two id high, _, rfl⟩) (Or.inr high)
      (fun _ _ known => known) ?_ h.keeps, shorter _, absent _, id, rest, oldest, rfl, rfl⟩
    intro content known
    obtain ⟨low, rfl⟩ := h.cachedPage found known
    exact page_evicted_same h.sound low found (Or.inr rfl)
  · have high := h.dirty id dirty
    refine Or.inr ⟨_, run, rfl, ⟨s.disk.clock, h.clock, Nat.lt_succ_self _, by rw [fails]; rfl⟩, n, ?_⟩
    refine h.evicted oldest found (Or.inr ⟨o.two id high, _, rfl⟩) (Or.inr high) h.keeps ?_
      (fun _ _ known => known)
    intro content known
    exact absurd high (o.safe id content known)

end evicted

/-! ## Inserting into the cache -/

open Hoare (Ends)

theorem evictWhileFull_ends (bound : Nat) (h : During env o v n s)
    (enough : s.entries.keys.length < bound) :
    Ends (fun _ s' => During env o v n s' ∧ s'.entries.keys.length < s'.capacity ∧
        ∀ id, s.entries.lookup id = none → s'.entries.lookup id = none)
      (FailedIo env o) (BufferPool.evictWhileFull env bound s) := by
  induction bound generalizing s with
  | zero => exact absurd enough (Nat.not_lt_zero _)
  | succ bound ih =>
    rw [BufferPool.evictWhileFull, Hoare.get_bind]
    by_cases full : s.entries.keys.length ≥ s.capacity
    · rw [if_pos full]
      have some : s.entries.keys ≠ [] := by
        have := h.sound.positive
        intro none
        rw [none] at full
        simp only [List.length_nil] at full
        omega
      rcases h.evictOne some with ⟨s', run, during, shorter, absent, -⟩ | ⟨s', run, failed⟩
      · rw [Hoare.bind_ok run]
        have rest := ih during (by omega)
        cases loop : BufferPool.evictWhileFull env bound s' with
        | ok _ s'' =>
          rw [loop] at rest
          exact ⟨rest.1, rest.2.1, fun id none => rest.2.2 id (absent id none)⟩
        | error e s'' => rw [loop] at rest; exact rest
      · rw [Hoare.bind_error run]
        exact failed
    · rw [if_neg full]
      exact ⟨h, by omega, fun _ none => none⟩

/-- The pool after its page `id` was taken out of the cache. -/
def BufferPool.uncached (s : BufferPool) (id : Nat) : BufferPool :=
  { s with entries := s.entries.erase id, recency := s.recency.filter (· ≠ id) }

theorem filter_ne_eq_erase {l : List Nat} (nodup : l.Nodup) (id : Nat) :
    l.filter (· ≠ id) = l.erase id := by
  rw [nodup.erase_eq_filter]
  congr 1
  funext x
  by_cases same : x = id <;> simp [same]

theorem Sound.nodup (sound : Sound env s) : s.recency.Nodup :=
  sound.recency.nodup_iff.mpr s.entries.keys_nodup

theorem Sound.uncached (sound : Sound env s) (id : Nat) : Sound env (s.uncached id) where
  recency := by
    rw [BufferPool.uncached, AList.keys_erase, filter_ne_eq_erase sound.nodup]
    exact sound.recency.erase id
  positive := sound.positive
  size := by
    rw [BufferPool.uncached, AList.keys_erase]
    exact Nat.le_trans (List.length_erase_le) sound.size
  lengths := fun id' buf found => by
    have ne : id' ≠ id := by
      rintro rfl
      cases found.symm.trans (AList.lookup_erase _ _)
    exact sound.lengths id' buf ((AList.lookup_erase_ne ne).symm.trans found)
  clean := fun id' buf low found => by
    have ne : id' ≠ id := by
      rintro rfl
      cases found.symm.trans (AList.lookup_erase _ _)
    exact sound.clean id' buf low ((AList.lookup_erase_ne ne).symm.trans found)

/-- The pool after `buf` was put into the cache under `id`. -/
def BufferPool.cached (s : BufferPool) (id : Nat) (buf : Bytes) (dirty : Bool) : BufferPool :=
  { s with
    entries := s.entries.insert id buf
    recency := s.recency ++ [id]
    dirty := if dirty then insert id s.dirty else s.dirty }

theorem Sound.cached (sound : Sound env s) {id : Nat} {buf : Bytes} {dirty : Bool}
    (absent : s.entries.lookup id = none) (room : s.entries.keys.length < s.capacity)
    (len : buf.length = s.pager.pageSize.bytes)
    (clean : dirty = false → firstDataPageId ≤ id →
      diskPage env s.pager.pageSize s.disk.file id = some (body buf)) :
    Sound env (s.cached id buf dirty) where
  recency := by
    have fresh : id ∉ s.entries.keys := AList.mem_keys.not.mp (AList.lookup_eq_none.mp absent)
    rw [BufferPool.cached, AList.keys_insert, List.erase_of_not_mem fresh]
    exact (sound.recency.append_right [id]).trans (List.perm_append_singleton id _)
  positive := sound.positive
  size := by
    have fresh : id ∉ s.entries.keys := AList.mem_keys.not.mp (AList.lookup_eq_none.mp absent)
    rw [BufferPool.cached, AList.keys_insert, List.erase_of_not_mem fresh, List.length_cons]
    exact room
  lengths := fun id' buf' found => by
    by_cases same : id' = id
    · subst same
      rw [BufferPool.cached, AList.lookup_insert, Option.some.injEq] at found
      rw [← found]
      exact len
    · exact sound.lengths id' buf' ((AList.lookup_insert_ne same).symm.trans found)
  clean := fun id' buf' low found clean' => by
    by_cases same : id' = id
    · subst same
      rw [BufferPool.cached, AList.lookup_insert, Option.some.injEq] at found
      cases dirty with
      | true => exact absurd (Finset.mem_insert_self _ _) clean'
      | false => rw [← found]; exact clean rfl low
    · refine sound.clean id' buf' low ((AList.lookup_insert_ne same).symm.trans found)
        (fun mem => clean' ?_)
      cases dirty with
      | true => exact Finset.mem_insert_of_mem mem
      | false => exact mem

theorem page_cached_same {id : Nat} {buf : Bytes} {dirty : Bool} :
    (s.cached id buf dirty).page env id = some (body buf) :=
  page_cached (AList.lookup_insert _)

theorem page_cached_other {id id' : Nat} {buf : Bytes} {dirty : Bool} (ne : id' ≠ id) :
    (s.cached id buf dirty).page env id' = s.page env id' := by
  have lookup : (s.cached id buf dirty).entries.lookup id' = s.entries.lookup id' :=
    AList.lookup_insert_ne ne
  simp only [BufferPool.page, lookup]
  rfl

theorem page_uncached_other {id id' : Nat} (ne : id' ≠ id) :
    (s.uncached id).page env id' = s.page env id' := by
  have lookup : (s.uncached id).entries.lookup id' = s.entries.lookup id' := AList.lookup_erase_ne ne
  simp only [BufferPool.page, lookup]
  rfl

/-- A page that is not cached changes no recency order. -/
theorem uncached_of_absent (sound : Sound env s) {id : Nat} (absent : id ∉ s.entries) :
    s.uncached id = s := by
  have fresh : id ∉ s.entries.keys := AList.mem_keys.not.mp absent
  have order : s.recency.filter (· ≠ id) = s.recency := by
    rw [filter_ne_eq_erase sound.nodup]
    exact List.erase_of_not_mem (fun mem => fresh (sound.recency.subset mem))
  have entries : s.entries.erase id = s.entries := by
    apply AList.ext
    exact List.kerase_of_notMem_keys fresh
  rw [BufferPool.uncached, order, entries]

theorem insertCached_eq (sound : Sound env s) (id : Nat) (buf : Bytes) (dirty : Bool) :
    BufferPool.insertCached env id buf dirty s = (do
      BufferPool.evictWhileFull env ((s.uncached id).entries.keys.length + 1)
      modify fun s : BufferPool => s.cached id buf dirty) (s.uncached id) := by
  have start : (if id ∈ s.entries then s.uncached id else s) = s.uncached id := by
    by_cases cached : id ∈ s.entries
    · rw [if_pos cached]
    · rw [if_neg cached, uncached_of_absent sound cached]
  rw [BufferPool.insertCached, Hoare.modify_bind, Hoare.get_bind]
  show (BufferPool.evictWhileFull env
    ((if id ∈ s.entries then s.uncached id else s).entries.keys.length + 1)
    >>= _) (if id ∈ s.entries then s.uncached id else s) = _
  rw [start]
  cases run : BufferPool.evictWhileFull env ((s.uncached id).entries.keys.length + 1) (s.uncached id) with
  | ok _ s' =>
    rw [Hoare.bind_ok run, Hoare.bind_ok run, Hoare.modify_bind]
    cases dirty <;> rfl
  | error e s' => rw [Hoare.bind_error run, Hoare.bind_error run]

/-- What `insert_cached` does to the known pages.  A clean page must be what the file holds. -/
theorem insertCached_ends (h : During env o v n s) {id : Nat} {buf : Bytes} {dirty : Bool}
    {v' : Nat → Option Bytes} (len : buf.length = s.pager.pageSize.bytes)
    (source : (dirty = true ∧ o.writable id) ∨ (dirty = false ∧ s.entries.lookup id = none ∧
      (firstDataPageId ≤ id → diskPage env s.pager.pageSize s.disk.file id = some (body buf))))
    (known : ∀ id' content, v' id' = some content →
      (id' = id ∧ firstDataPageId ≤ id ∧ content = body buf) ∨ (id' ≠ id ∧ v id' = some content))
    (keeps : ∀ id' content, o.base id' = some content → v' id' = some content) :
    Ends (fun _ s' => During env o v' n s') (FailedIo env o)
      (BufferPool.insertCached env id buf dirty s) := by
  rw [insertCached_eq h.sound]
  -- while `id` is out of the cache its page is known only if it is clean: from the file
  let v₁ : Nat → Option Bytes := fun id' =>
    if id' = id then if dirty = false ∧ firstDataPageId ≤ id then some (body buf) else none else v' id'
  have gone : (s.uncached id).entries.lookup id = none := AList.lookup_erase _ _
  have out : During env o v₁ n (s.uncached id) := by
    refine h.step rfl rfl rfl (h.sound.uncached id) h.dirty ?_ ?_ (Or.inl rfl)
    · intro id' content found
      simp only [v₁] at found
      by_cases same : id' = id
      · subst same
        rw [if_pos rfl] at found
        split at found
        next clean =>
          rw [Option.some.injEq] at found
          subst found
          rcases source with ⟨isDirty, -⟩ | ⟨-, -, onDisk⟩
          · cases isDirty.symm.trans clean.1
          · exact ⟨clean.2, by rw [page_uncached gone]; exact onDisk clean.2⟩
        next => cases found
      · rw [if_neg same] at found
        rcases known id' content found with ⟨absurd, -⟩ | ⟨-, old⟩
        · exact (same absurd).elim
        · rw [page_uncached_other same]
          exact h.agree id' content old
    · intro id' content found
      have kept := keeps id' content found
      simp only [v₁]
      by_cases same : id' = id
      · subst same
        rcases source with ⟨-, may⟩ | ⟨clean, -⟩
        · exact absurd may (o.safe _ content found)
        · rcases known _ content kept with ⟨-, two, rfl⟩ | ⟨absurd, -⟩
          · rw [if_pos rfl, if_pos ⟨clean, two⟩]
          · exact (absurd rfl).elim
      · rw [if_neg same]
        exact kept
  have evicted := evictWhileFull_ends _ out (Nat.lt_succ_self _)
  cases run : BufferPool.evictWhileFull env ((s.uncached id).entries.keys.length + 1) (s.uncached id) with
  | error e s₁ =>
    rw [run] at evicted
    rw [Hoare.bind_error run]
    exact evicted
  | ok _ s₁ =>
    rw [run] at evicted
    obtain ⟨during, room, absent⟩ := evicted
    have absent := absent id gone
    rw [Hoare.bind_ok run]
    have samePager : s₁.pager = s.pager := during.pager.trans h.pager.symm
    have onDisk : dirty = false → firstDataPageId ≤ id →
        diskPage env s₁.pager.pageSize s₁.disk.file id = some (body buf) := by
      intro clean low
      have known₁ : v₁ id = some (body buf) := (if_pos rfl).trans (if_pos ⟨clean, low⟩)
      have page := (during.agree id (body buf) known₁).2
      rwa [page_uncached absent] at page
    refine during.step rfl rfl rfl (during.sound.cached absent room (by rw [samePager]; exact len) onDisk)
      ?_ ?_ keeps (Or.inl rfl)
    · intro id' member
      cases dirty with
      | false => exact during.dirty id' member
      | true =>
        rcases Finset.mem_insert.mp member with rfl | old
        · rcases source with ⟨-, high⟩ | ⟨notDirty, -⟩
          · exact high
          · cases notDirty
        · exact during.dirty id' old
    · intro id' content found
      rcases known id' content found with ⟨rfl, low, rfl⟩ | ⟨ne, old⟩
      · exact ⟨low, page_cached_same⟩
      · rw [page_cached_other ne]
        refine during.agree id' content ?_
        simp only [v₁]
        rw [if_neg ne]
        exact found

/-! ## What a call does to the trace and to the page ids -/

def Extends (s s' : BufferPool) : Prop := s.disk.trace <+: s'.disk.trace

/-- No page id is handed out, and the page size stays. -/
def SameIds (s s' : BufferPool) : Prop :=
  s'.nextPageId = s.nextPageId ∧ s'.pager.pageSize = s.pager.pageSize ∧
    ∃ ext, s'.disk.trace = s.disk.trace ++ ext ∧ allocated ext = []

/-- A relation between the states before and after a call that hands out no page id. -/
class PoolRel (rel : BufferPool → BufferPool → Prop) : Prop where
  trans : ∀ s t u, rel s t → rel t u → rel s u
  of_sameIds : ∀ s s', SameIds s s' → rel s s'

theorem SameIds.of_same {s s' : BufferPool} (next : s'.nextPageId = s.nextPageId)
    (size : s'.pager.pageSize = s.pager.pageSize) (disk : s'.disk = s.disk) : SameIds s s' :=
  ⟨next, size, [], by rw [disk, List.append_nil], rfl⟩

instance : PoolRel Extends where
  trans := fun _ _ _ first second => List.IsPrefix.trans first second
  of_sameIds := fun _ _ ⟨_, _, ext, trace, _⟩ => ⟨ext, trace.symm⟩

instance : PoolRel SameIds where
  trans := by
    rintro s t u ⟨next, size, ext, trace, none⟩ ⟨next', size', ext', trace', none'⟩
    refine ⟨next'.trans next, size'.trans size, ext ++ ext', by rw [trace', trace, List.append_assoc], ?_⟩
    rw [allocated_append, none, none']
    rfl
  of_sameIds := fun _ _ same => same

theorem PoolRel.refl {rel : BufferPool → BufferPool → Prop} [PoolRel rel] (s : BufferPool) : rel s s :=
  of_sameIds s s (.of_same rfl rfl rfl)

/-- A program whose runs move the pool along `rel`.  A class, so that the instances below find it
for every program that is put together from such programs. -/
class Moving {α : Type} (rel : BufferPool → BufferPool → Prop) (x : PoolM α) : Prop where
  moves : Hoare.Moves rel x

/-- A program whose runs only add to the trace. -/
abbrev Appends {α : Type} (x : PoolM α) : Prop := Moving Extends x

/-- A program that hands out no page id. -/
abbrev Quiet {α : Type} (x : PoolM α) : Prop := Moving SameIds x

theorem Appends.exhausted {α : Type} {x : PoolM α} (h : Appends x) (s : BufferPool)
    (before : Exhausted s) :
    Exhausted (Hoare.final (x s)) := by
  obtain ⟨ext, split⟩ := h.moves s
  exact before.append split.symm

namespace Moving

variable {α β : Type} {rel : BufferPool → BufferPool → Prop} [PoolRel rel]

instance pure {a : α} : Moving rel (pure a : PoolM α) := ⟨.of_pure PoolRel.refl⟩
instance throw {e : Stop} : Moving rel (throw e : PoolM α) := ⟨.of_throw PoolRel.refl⟩
instance get : Moving rel (get : PoolM BufferPool) := ⟨.of_get PoolRel.refl⟩

theorem bind {x : PoolM α} {f : α → PoolM β} (first : Moving rel x) (rest : ∀ a, Moving rel (f a)) :
    Moving rel (x >>= f) :=
  ⟨Hoare.Moves.bind PoolRel.trans first.moves fun a => (rest a).moves⟩

instance bind_inst {x : PoolM α} {f : α → PoolM β} [first : Moving rel x] [rest : ∀ a, Moving rel (f a)] :
    Moving rel (x >>= f) := bind first rest

instance ite_inst {c : Prop} [Decidable c] {x y : PoolM α} [left : Moving rel x] [right : Moving rel y] :
    Moving rel (if c then x else y) := by
  split
  · exact left
  · exact right

theorem modify {f : BufferPool → BufferPool} (next : ∀ s, (f s).nextPageId = s.nextPageId)
    (size : ∀ s, (f s).pager.pageSize = s.pager.pageSize) (same : ∀ s, (f s).disk = s.disk) :
    Moving rel (modify f : PoolM PUnit) :=
      ⟨fun s => PoolRel.of_sameIds s (f s) (.of_same (next s) (size s) (same s))⟩

instance res (r : Res α) : Moving rel (liftM r : PoolM α) := ⟨fun s => by
  cases r <;> exact PoolRel.refl s⟩

theorem onDisk {x : IoM α}
    (appends : ∀ d, ∃ ext, (Hoare.final (x d)).trace = d.trace ++ ext ∧ allocated ext = []) :
    Moving rel (onDisk x) := ⟨fun s => by
  have moved := appends s.disk
  refine PoolRel.of_sameIds s _ ?_
  cases run : x s.disk with
  | ok a d => rw [run] at moved; rw [onDisk_ok run]; exact ⟨rfl, rfl, moved⟩
  | error e d => rw [run] at moved; rw [onDisk_error run]; exact ⟨rfl, rfl, moved⟩⟩

theorem writeDataPage {keep : Bytes → PoolM Unit} (keeps : ∀ b, Moving rel (keep b))
    (id : Nat) (buf : Bytes) :
    Moving rel (writeDataPage env keep id buf) := by
  refine .bind (.res _) fun stampedBuf => .bind (keeps _) fun _ => .bind .get fun s => .onDisk fun d => ?_
  rcases writeStamped_cases env s.pager id stampedBuf d with ⟨-, run⟩ | ⟨torn, -, run⟩ <;> rw [run] <;>
    exact ⟨[.pageWrite id s.pager.pageCount, .write _ _], List.append_assoc _ _ _, rfl⟩

instance evictOne : Moving rel (BufferPool.evictOne env) := by
  refine .bind .get fun s => ?_
  split
  · exact .throw
  · refine .bind (.modify (fun _ => rfl) (fun _ => rfl) fun _ => rfl) fun _ => ?_
    split
    · exact .throw
    · refine .bind (.modify (fun _ => rfl) (fun _ => rfl) fun _ => rfl) fun _ => ?_
      split
      · exact .bind (.modify (fun _ => rfl) (fun _ => rfl) fun _ => rfl) fun _ => .writeDataPage
          (fun _ => .pure) _ _
      · exact .pure

instance evictWhileFull (bound : Nat) : Moving rel (BufferPool.evictWhileFull env bound) := by
  induction bound with
  | zero => exact .throw
  | succ bound ih =>
    refine .bind .get fun s => ?_
    split
    · exact .bind .evictOne fun _ => ih
    · exact .pure

instance insertCached (id : Nat) (buf : Bytes) (dirty : Bool) :
    Moving rel (BufferPool.insertCached env id buf dirty) := by
  refine .bind (.modify (fun s => ?_) (fun s => ?_) fun s => ?_) fun _ => .bind .get fun s => .bind
    (.evictWhileFull _) fun _ =>
    .bind (.modify (fun s => ?_) (fun s => ?_) fun s => ?_) fun _ => .modify (fun _ => rfl)
      (fun _ => rfl) fun _ => rfl
  all_goals split <;> rfl

instance poolGet (id : Nat) : Moving rel (BufferPool.get env id) := by
  refine .bind .get fun s => ?_
  split
  · exact .bind (.modify (fun _ => rfl) (fun _ => rfl) fun _ => rfl) fun _ => .pure
  · refine .bind (.onDisk fun d => ?_) fun _ => .bind (.insertCached _ _ _) fun _ => .pure
    rcases readDataPage_cases env s.pager id d with ⟨_, run, -⟩ | ⟨_, run, -⟩ <;> rw [run] <;>
      exact ⟨[], (List.append_nil _).symm, rfl⟩

instance putNew (id : Nat) (buf : Bytes) : Moving rel (BufferPool.putNew env id buf) :=
  .insertCached _ _ _

instance flushOne (id : Nat) : Moving rel (BufferPool.flushOne env id) := by
  rw [BufferPool.flushOne]
  refine .bind .get fun s => ?_
  cases s.entries.lookup id with
  | none => exact .pure
  | some buf =>
    refine .writeDataPage (fun b => ?_) id buf
    exact .modify (fun _ => rfl) (fun _ => rfl) fun _ => rfl

instance flushIds (ids : List Nat) : Moving rel (BufferPool.flushIds env ids) := by
  induction ids with
  | nil => exact .pure
  | cons id ids ih =>
    rw [BufferPool.flushIds]
    exact .bind (flushOne id) fun _ => .bind
      (.modify (fun _ => rfl) (fun _ => rfl) fun _ => rfl) fun _ => ih

end Moving

/-- `Moving.bind_inst` without the search for a `PoolRel`, which keeps the searches for the long
calls small. -/
instance Appends.bind_inst {α β : Type} {x : PoolM α} {f : α → PoolM β} [first : Appends x]
    [rest : ∀ a, Appends (f a)] :
    Appends (x >>= f) := Moving.bind first rest

instance Appends.allocatePageId : Appends (BufferPool.allocatePageId env) := by
  refine Moving.bind .get fun s => .bind ⟨fun s' => ?_⟩ fun _ => .bind (.res _) fun _ =>
    .bind ⟨fun s' => List.prefix_refl _⟩ fun _ => .pure
  exact ⟨[.alloc s.nextPageId], rfl⟩

end Pinax
