import Pinax.Verified.FirstInsert

/-! # Copy on write

Page writes go past the committed pages, so that whatever a committed root reached is still there:
walking from an old root over the current file finds what it found when the root was committed.
-/

namespace Pinax

open Hoare (final Follows)

variable {env : Env} {ps : PageSize} {file file' : File} {s s' : BufferPool} {id : Nat} {raw : Bytes}

/-- The bytes of page `id` in the file, if it can be read. -/
def rawPage (env : Env) (ps : PageSize) (file : File) (id : Nat) : Option Bytes :=
  let raw := file.read (Pager.fileOffset ps id) ps.bytes
  if Pager.fileOffset ps id + ps.bytes ≤ file.len ∧ verifies env raw = true then some raw else none

/-- A pool that was only read from: its cache holds pages of the file, none of them dirty. -/
structure Reading (env : Env) (opened : Pager) (file : File) (s : BufferPool) : Prop where
  sound : Sound env s
  pager : s.pager = opened
  file : s.disk.file = file
  clean : s.dirty = ∅
  cached : ∀ id raw, s.entries.lookup id = some raw →
    rawPage env s.pager.pageSize s.disk.file id = some raw

theorem diskPage_eq (env : Env) (ps : PageSize) (file : File) (id : Nat) :
    diskPage env ps file id = (rawPage env ps file id).map body := by
  simp only [diskPage, rawPage]
  split <;> rfl

theorem rawPage_eq_some :
    rawPage env ps file id = some raw ↔ Pager.fileOffset ps id + ps.bytes ≤ file.len ∧
    verifies env raw = true ∧ file.read (Pager.fileOffset ps id) ps.bytes = raw := by
  simp only [rawPage]
  constructor
  · intro found
    split at found
    next readable =>
      rw [← Option.some.inj found]
      exact ⟨readable.1, readable.2, rfl⟩
    next => cases found
  · rintro ⟨inside, checked, rfl⟩
    rw [if_pos ⟨inside, checked⟩]

theorem rawPage_length (found : rawPage env ps file id = some raw) : raw.length = ps.bytes := by
  rw [← (rawPage_eq_some.mp found).2.2]
  exact File.length_read _ _ _

/-- What a page read returns when no I/O call fails. -/
theorem readDataPage_raw (works : ∀ k, env.fault k = none) (pager : Pager) (id : Nat) (d : Disk) :
    match rawPage env pager.pageSize d.file id with
    | some raw => pager.readDataPage env id d = .ok raw d.tick
    | none => ∃ e, pager.readDataPage env id d = .error e d.tick := by
  have read := readExactAt_apply env (Pager.fileOffset pager.pageSize id) pager.pageSize.bytes d
  simp only [works, Option.isSome_none, Bool.false_eq_true, false_or] at read
  simp only [rawPage]
  by_cases inside : Pager.fileOffset pager.pageSize id + pager.pageSize.bytes ≤ d.file.len
  · rw [if_neg (by omega)] at read
    by_cases checked : verifies env
      (d.file.read (Pager.fileOffset pager.pageSize id) pager.pageSize.bytes) = true
    · rw [if_pos ⟨inside, checked⟩, Pager.readDataPage, Hoare.bind_ok read, if_pos checked]
      rfl
    · rw [if_neg (fun both => checked both.2), Pager.readDataPage, Hoare.bind_ok read, if_neg checked]
      exact ⟨_, rfl⟩
  · rw [if_pos (by omega)] at read
    rw [if_neg (fun both => inside both.1), Pager.readDataPage, Hoare.bind_error read]
    exact ⟨_, rfl⟩

/-! ## Reading a page -/

namespace Reading

variable {opened : Pager}

theorem not_dirty (reading : Reading env opened file s) (id : Nat) : id ∉ s.dirty := by
  rw [reading.clean]
  exact Finset.notMem_empty id

/-- A pool that lost some of its pages. -/
theorem fewer (reading : Reading env opened file s) (sound : Sound env s')
    (disk : s'.disk.file = s.disk.file) (pager : s'.pager = s.pager) (dirty : s'.dirty ⊆ s.dirty)
    (less : ∀ id raw, s'.entries.lookup id = some raw → s.entries.lookup id = some raw) :
    Reading env opened file s' where
  sound := sound
  pager := pager.trans reading.pager
  file := disk.trans reading.file
  clean := by
    rw [reading.clean] at dirty
    exact Finset.subset_empty.mp dirty
  cached := fun id raw found => by
    rw [disk, pager]
    exact reading.cached id raw (less id raw found)

theorem lookup_of_erase {entries : Entries} {id id' : Nat}
    (found : (entries.erase id).lookup id' = some raw) :
    entries.lookup id' = some raw := by
  have other : id' ≠ id := by
    rintro rfl
    cases found.symm.trans (AList.lookup_erase _ _)
  exact (AList.lookup_erase_ne other).symm.trans found

theorem unchanged (reading : Reading env opened file s) : s.Unchanged env s := by
  refine During.init reading.sound rfl (fun id dirty => absurd dirty (reading.not_dirty id))
    (fun id _ known => ?_)
    fun _ _ none => by cases none
  rw [BufferPool.known] at known
  split at known
  next low => exact ⟨low, known⟩
  next => cases known

/-- Evicting writes nothing. -/
theorem evictWhileFull (reading : Reading env opened file s) {bound : Nat}
    (enough : s.entries.keys.length < bound) :
    ∃ s', BufferPool.evictWhileFull env bound s = .ok ⟨⟩ s' ∧ Reading env opened file s' ∧
      s'.entries.keys.length < s'.capacity ∧ ∀ id, s.entries.lookup id = none →
        s'.entries.lookup id = none := by
  induction bound generalizing s with
  | zero => exact absurd enough (Nat.not_lt_zero _)
  | succ bound ih =>
    rw [BufferPool.evictWhileFull, Hoare.get_bind]
    by_cases full : s.entries.keys.length ≥ s.capacity
    · rw [if_pos full]
      have present : s.entries.keys ≠ [] := by
        have := reading.sound.positive
        intro none
        rw [none, List.length_nil] at full
        omega
      obtain ⟨id, rest, buf, oldest, member, found⟩ := reading.sound.oldest present
      have long : 8 ≤ buf.length := by
        have := s.pager.pageSize.bounds.1
        rw [reading.sound.lengths id buf found]
        omega
      -- nothing is dirty while only reading, so the page leaves without a write
      have run : BufferPool.evictOne env s = .ok ⟨⟩ (s.evicted id rest s.disk) := by
        rcases evictOne_cases env oldest found long with ⟨-, run⟩ | ⟨dirty, -⟩ | ⟨dirty, -⟩
        · exact run
        · exact absurd dirty (reading.not_dirty id)
        · exact absurd dirty (reading.not_dirty id)
      have after : Reading env opened file (s.evicted id rest s.disk) :=
        reading.fewer (reading.sound.evicted oldest found (Or.inl rfl)) rfl rfl (Finset.erase_subset _ _)
          fun id' raw kept => lookup_of_erase kept
      have shorter : (s.evicted id rest s.disk).entries.keys.length < bound := by
        have positive := List.length_pos_of_mem member
        show (s.entries.erase id).keys.length < bound
        rw [AList.keys_erase, List.length_erase_of_mem member]
        omega
      rw [Hoare.bind_ok run]
      obtain ⟨s', ends, reading', room, gone⟩ := ih after shorter
      refine ⟨s', ends, reading', room, fun id' absent => gone id' ?_⟩
      by_cases same : id' = id
      · rw [same]
        exact AList.lookup_erase _ _
      · exact (AList.lookup_erase_ne same).trans absent
    · rw [if_neg full]
      exact ⟨s, rfl, reading, Nat.lt_of_not_le full, fun id absent => absent⟩

theorem insertCached (reading : Reading env opened file s)
    (found : rawPage env s.pager.pageSize s.disk.file id = some raw) :
    ∃ s', BufferPool.insertCached env id raw false s = .ok ⟨⟩ s' ∧ Reading env opened file s' := by
  have uncached : Reading env opened file (s.uncached id) :=
    reading.fewer (reading.sound.uncached id) rfl rfl (Finset.Subset.refl _) fun id' raw kept =>
      lookup_of_erase kept
  have absent : (s.uncached id).entries.lookup id = none := AList.lookup_erase _ _
  obtain ⟨s', run, reading', room, gone⟩ := uncached.evictWhileFull (Nat.lt_succ_self _)
  have found : rawPage env s'.pager.pageSize s'.disk.file id = some raw := by
    rw [reading'.pager, reading'.file, ← reading.pager, ← reading.file]
    exact found
  rw [insertCached_eq reading.sound, Hoare.bind_ok run]
  refine ⟨_, rfl, ?_, reading'.pager, reading'.file, reading'.clean, fun id' raw' cached => ?_⟩
  · refine reading'.sound.cached (gone id absent) room (rawPage_length found) fun _ _ => ?_
    rw [diskPage_eq, found]
    rfl
  · by_cases same : id' = id
    · rw [same] at cached ⊢
      have here : (s'.entries.insert id raw).lookup id = some raw' := cached
      rw [AList.lookup_insert] at here
      exact found.trans here
    · refine reading'.cached id' raw' ?_
      have here : (s'.entries.insert id raw).lookup id' = some raw' := cached
      rwa [AList.lookup_insert_ne same] at here

theorem ticked (reading : Reading env opened file s) : Reading env opened file (s.over s.disk.tick) :=
  { reading with sound := { reading.sound with } }

theorem touched (reading : Reading env opened file s) (member : id ∈ s.entries) :
    Reading env opened file { s with recency := s.recency.filter (· ≠ id) ++ [id] } := by
  have listed : id ∈ s.recency := reading.sound.recency.mem_iff.mpr (AList.mem_keys.mp member)
  refine { reading with sound := { reading.sound with recency := ?_ } }
  rw [filter_ne_eq_erase reading.sound.nodup]
  exact ((List.perm_append_singleton id _).trans (List.perm_cons_erase listed).symm).trans
    reading.sound.recency

/-- A page that can be read is read, from the cache or from the file; one that cannot be read is not. -/
theorem get (works : ∀ k, env.fault k = none) (reading : Reading env opened file s) (id : Nat) :
    match rawPage env s.pager.pageSize s.disk.file id with
    | some raw => ∃ s', BufferPool.get env id s = .ok raw s' ∧ Reading env opened file s'
    | none => ∃ e s', BufferPool.get env id s = .error e s' := by
  rw [BufferPool.get, Hoare.get_bind]
  cases cached : s.entries.lookup id with
  | some raw =>
    rw [reading.cached id raw cached]
    exact ⟨_, rfl, reading.touched (AList.lookup_isSome.mp (by rw [cached]; rfl))⟩
  | none =>
    simp only
    have read := readDataPage_raw works s.pager id s.disk
    cases found : rawPage env s.pager.pageSize s.disk.file id with
    | some raw =>
      rw [found] at read
      obtain ⟨s', run, reading'⟩ := reading.ticked.insertCached found
      refine ⟨s', ?_, reading'⟩
      rw [Hoare.bind_ok (onDisk_ok read), Hoare.bind_ok run]
      rfl
    | none =>
      rw [found] at read
      obtain ⟨e, read⟩ := read
      exact ⟨e, _, Hoare.bind_error (onDisk_error read)⟩

end Reading

/-! ## Walking -/

/-- Two pools that were only read from, over files of which the second has the pages of the first. -/
def Beside (env : Env) (opened : Pager) (file file' : File) (s t : BufferPool) : Prop :=
  Reading env opened file s ∧ Reading env opened file' t

/-- The pages of `file` can be read in `file'`. -/
def PagesWithin (env : Env) (ps : PageSize) (file file' : File) : Prop :=
  ∀ id raw, rawPage env ps file id = some raw → rawPage env ps file' id = some raw

/-- States of two pools that have the same pager and read the same pages. -/
structure ReadsAlike (env : Env) (R : BufferPool → BufferPool → Prop) : Prop where
  pager : ∀ s t, R s t → t.pager = s.pager
  get : ∀ id, Follows R (BufferPool.get env id)

theorem Beside.readsAlike {opened : Pager} (works : ∀ k, env.fault k = none)
    (within : PagesWithin env opened.pageSize file file') :
    ReadsAlike env (Beside env opened file file') where
  pager := fun s t beside => beside.2.pager.trans beside.1.pager.symm
  get := by
    intro id s t raw s' beside run
    obtain ⟨left, right⟩ := beside
    have first := left.get works id
    have second := right.get works id
    rw [left.pager, left.file] at first
    rw [right.pager, right.file] at second
    cases found : rawPage env opened.pageSize file id with
    | none =>
      rw [found] at first
      obtain ⟨e, s'', fails⟩ := first
      cases run.symm.trans fails
    | some page =>
      rw [found] at first
      rw [within id page found] at second
      obtain ⟨s'', reads, left'⟩ := first
      obtain ⟨t', reads', right'⟩ := second
      obtain ⟨rfl, rfl⟩ := EStateM.Result.ok.inj (run.symm.trans reads)
      exact ⟨t', reads', left', right'⟩

namespace ReadsAlike

variable {R : BufferPool → BufferPool → Prop}

theorem pageSize (alike : ReadsAlike env R) : Follows R BufferPool.pageSize := by
  intro s t ps s' related run
  obtain ⟨rfl, rfl⟩ := EStateM.Result.ok.inj run
  exact ⟨t, congrArg (fun pager => EStateM.Result.ok (Pager.pageSize pager) t)
    (alike.pager s t related), related⟩

theorem rootPageId (alike : ReadsAlike env R) : Follows R BufferPool.rootPageId := by
  intro s t ps s' related run
  obtain ⟨rfl, rfl⟩ := EStateM.Result.ok.inj run
  exact ⟨t, congrArg (fun pager => EStateM.Result.ok (Pager.rootPageId pager) t)
    (alike.pager s t related), related⟩

theorem res {α : Type} (r : Res α) : Follows R (liftM r : PoolM α) := by
  cases r with
  | ok a => exact Follows.pure
  | error e => exact Follows.throw

theorem readChain (alike : ReadsAlike env R) (bound current need : Nat) (out : Bytes) :
    Follows R (readChain env bound current need out) := by
  induction bound generalizing current need out with
  | zero => exact Follows.pure
  | succ bound ih =>
    rw [Pinax.readChain]
    split
    · refine Follows.bind (alike.get _) fun buf => Follows.bind (res _) fun _ => Follows.bind
        (res _) fun next => ?_
      exact Follows.bind alike.pageSize fun ps => Follows.bind (res _) fun chunk => ih _ _ _
    · exact Follows.pure

theorem reassemble (alike : ReadsAlike env R) (cell : LeafCell) : Follows R (reassemble env cell) := by
  rw [Pinax.reassemble]
  split
  · exact Follows.pure
  · exact Follows.bind alike.pageSize fun ps => Follows.bind (alike.readChain _ _ _ _)
      fun tail => Follows.pure

theorem getFrom (alike : ReadsAlike env R) (fuel current : Nat) (key : I64) :
    Follows R (Btree.getFrom env fuel current key) := by
  induction fuel generalizing current with
  | zero => exact Follows.throw
  | succ fuel ih =>
    rw [Btree.getFrom_succ]
    refine Follows.bind alike.pageSize fun ps => Follows.bind (alike.get _) fun buf => Follows.bind
      (res _) fun pageType => ?_
    split
    · refine Follows.bind (res _) fun found => ?_
      cases found with
      | found index =>
        refine Follows.bind (res _) fun cell => Follows.bind (alike.reassemble cell) fun full => ?_
        exact Follows.bind (res _) fun row => Follows.pure
      | insertAt index => exact Follows.pure
    · exact Follows.bind (res _) fun _ => Follows.bind (res _) fun next => ih _

theorem scanLeaf (alike : ReadsAlike env R) (buf : Bytes) (maxLocal i count : Nat)
    (out : List (I64 × Row)) :
    Follows R (Btree.scanLeaf env buf maxLocal i count out) := by
  induction count generalizing i out with
  | zero => exact Follows.pure
  | succ count ih =>
    rw [Btree.scanLeaf]
    refine Follows.bind (res _) fun cell => Follows.bind (alike.reassemble cell) fun full => ?_
    exact Follows.bind (res _) fun row => ih _ _

theorem scanNode (alike : ReadsAlike env R) (fuel : Nat) (out : List (I64 × Row)) (id : Nat) :
    Follows R (Btree.scanNode env fuel out id) := by
  induction fuel generalizing out id with
  | zero => exact Follows.throw
  | succ fuel ih =>
    rw [Btree.scanNode]
    refine Follows.bind (alike.get _) fun buf => Follows.bind (res _) fun pageType => ?_
    split
    · exact Follows.bind alike.pageSize fun ps => Follows.bind (res _) fun n => alike.scanLeaf _ _ _ _ _
    · exact Follows.bind (res _) fun _ => Follows.bind (res _) fun entries => Follows.foldlM ih _ _

/-- A lookup or a scan finds the same. -/
theorem call (alike : ReadsAlike env R) {call : Call} (looks : ¬ call.Mutates) (fuel : Nat) :
    Follows R (call.run env fuel) := by
  cases call with
  | get key =>
    refine Follows.bind (Follows.bind alike.rootPageId fun root => ?_) fun row => Follows.pure
    split
    · exact Follows.pure
    · exact alike.getFrom _ _ _
  | scan =>
    refine Follows.bind (Follows.bind alike.rootPageId fun root => ?_) fun rows => Follows.pure
    split
    · exact Follows.pure
    · exact alike.scanNode _ _ _
  | insert key row => exact absurd trivial looks
  | update key row => exact absurd trivial looks
  | delete key => exact absurd trivial looks

end ReadsAlike

/-! ## Old roots -/

/-- What a lookup or a scan finds that starts at the committed root, over the file and without I/O
failures. -/
def Snapshot.walk (env : Env) (sn : Snapshot) (capacity : Nat) (file : File) (call : Call)
    (fuel : Nat) : Except Stop Reply :=
  match BufferPool.new ⟨true, file, 0, []⟩ (sn.content.pager 0) capacity with
  | .ok s => answerOf (call.run (Env.faultless env.profile env.xxh3) fuel s)
  | .error e => .error e

/-- The committed file without the pages from the committed page count on. -/
def Snapshot.pages (sn : Snapshot) : File :=
  sn.file.setLen (min sn.file.len (Pager.fileOffset sn.content.pageSize sn.content.pageCount))

variable {sn : Snapshot} {capacity capacity' fuel : Nat} {call : Call} {c : Content}

theorem Reading.new {opened : Pager} {d : Disk} (made : BufferPool.new d opened capacity = .ok s) :
    Reading env opened d.file s := by
  obtain ⟨rfl, sound⟩ := new_ok env made
  refine ⟨sound, rfl, rfl, rfl, fun id raw found => ?_⟩
  have absent : (∅ : Entries).lookup id = none := AList.lookup_eq_none.mpr (AList.notMem_empty id)
  cases found.symm.trans absent

/-- The pages below the committed page count are still there. -/
theorem Snapshot.Kept.pagesWithin (kept : sn.Kept file) (env : Env) :
    PagesWithin env sn.content.pageSize sn.pages file := by
  intro id raw found
  have start := metaRegionLen_le_fileOffset sn.content.pageSize id
  have grown := kept.grown
  obtain ⟨inside, checked, same⟩ := rawPage_eq_some.mp found
  have inside : Pager.fileOffset sn.content.pageSize id + sn.content.pageSize.bytes
      ≤ min sn.file.len (Pager.fileOffset sn.content.pageSize sn.content.pageCount) := inside
  refine rawPage_eq_some.mpr ⟨by omega, checked, ?_⟩
  rw [← same]
  refine File.read_congr fun i within => ?_
  rw [kept.same _ (by omega) (by omega)]
  exact (if_pos (by omega)).symm

/-- A walk that finds its way over the committed pages finds the same over the current file. -/
theorem Snapshot.Kept.walk {reply : Reply} (kept : sn.Kept file) (looks : ¬ call.Mutates)
    (positive : 1 ≤ capacity') (found : sn.walk env capacity sn.pages call fuel = .ok reply) :
    sn.walk env capacity' file call fuel = .ok reply := by
  let calm := Env.faultless env.profile env.xxh3
  cases made : BufferPool.new ⟨true, sn.pages, 0, []⟩ (sn.content.pager 0) capacity with
  | error e =>
    rw [Snapshot.walk, made] at found
    cases found
  | ok s =>
    obtain ⟨t, made'⟩ : ∃ t, BufferPool.new ⟨true, file, 0, []⟩ (sn.content.pager 0) capacity' =
      .ok t := ⟨_, if_pos positive⟩
    have beside : Beside calm (sn.content.pager 0) sn.pages file s t :=
      ⟨Reading.new made, Reading.new made'⟩
    have alike : ReadsAlike calm (Beside calm (sn.content.pager 0) sn.pages file) :=
      Beside.readsAlike (fun _ => rfl) (kept.pagesWithin calm)
    rw [Snapshot.walk, made] at found
    rw [Snapshot.walk, made']
    simp only at found ⊢
    cases run : call.run calm fuel s with
    | error e s' =>
      rw [run] at found
      cases found
    | ok reply' s' =>
      rw [run] at found
      obtain ⟨t', run', -⟩ := alike.call looks fuel s t reply' s' beside run
      rw [run']
      exact found

/-- A content that the committed pages held is found by every walk. -/
theorem Snapshot.Holds.walk (holds : sn.Holds env c) (kept : sn.Kept file) (looks : ¬ call.Mutates)
    (deep : c.height < fuel) (positive : 1 ≤ capacity) :
    sn.walk env capacity file call fuel = c.answer call := by
  let calm := Env.faultless env.profile env.xxh3
  obtain ⟨s, made⟩ : ∃ s, BufferPool.new ⟨true, file, 0, []⟩ (sn.content.pager 0) capacity = .ok s :=
    ⟨_, if_pos positive⟩
  obtain ⟨rfl, sound⟩ := new_ok calm made
  let t : BufferPool :=
    ⟨⟨true, file, 0, []⟩, sn.content.pager 0, capacity, ∅, ∅, [], sn.content.pageCount⟩
  have reading : Reading calm (sn.content.pager 0) file t := Reading.new made
  have planted : c.Planted t.pager.pageSize (t.known calm) t.nextPageId t.pager.rootPageId :=
    (holds.kept kept).mono (fun id content low _ found => (known_of_low low).trans found) (Nat.le_refl _)
  have looked : Hoare.Ends _ _ (call.run calm fuel t) :=
    Content.Planted.looked (o := anyPage t) (E := fun _ => False) planted deep looks t reading.unchanged
  rw [Snapshot.walk, made]
  show answerOf (call.run calm fuel t) = _
  cases run : call.run calm fuel t with
  | ok reply s' =>
    rw [run] at looked
    exact looked.1.symm
  | error e s' =>
    rw [run] at looked
    cases looked with
    | inl failed =>
      obtain ⟨k, -, -, fault⟩ := failed.2.1
      cases fault
    | inr none => exact none.1.elim

/-! ## Committed pages -/

/-- Copy on write never touches committed pages: every page write of a session went past the pages
committed at that moment; distinct pages are disjoint and lie past the meta region; and every state
the session descends from has the bytes of its pages as they were when it was committed, so that
walking from its root finds what it found then. -/
theorem committed_pages_untouched {session : Session} (h : Reachable env session) :
    (∀ id count, Event.pageWrite id count ∈ session.machine.disk.trace →
      firstDataPageId ≤ id ∧ count ≤ id) ∧
    (∀ ps id id', firstDataPageId ≤ id → firstDataPageId ≤ id' → id ≠ id' →
      metaRegionLen ≤ Pager.fileOffset ps id ∧
        (Pager.fileOffset ps id + ps.bytes ≤ Pager.fileOffset ps id' ∨
        Pager.fileOffset ps id' + ps.bytes ≤ Pager.fileOffset ps id)) ∧
    ∀ sn ∈ session.lineage,
      (∀ id, firstDataPageId ≤ id → id < sn.content.pageCount →
        session.machine.disk.file.read (Pager.fileOffset sn.content.pageSize id) sn.content.pageSize.bytes
          = sn.file.read (Pager.fileOffset sn.content.pageSize id) sn.content.pageSize.bytes) ∧
      (∀ capacity capacity' call fuel reply, 1 ≤ capacity' → ¬ call.Mutates →
        sn.walk env capacity sn.pages call fuel = .ok reply →
        sn.walk env capacity' session.machine.disk.file call fuel = .ok reply) ∧
      ∀ c capacity call fuel, 1 ≤ capacity → ¬ call.Mutates → sn.Holds env c → c.height < fuel →
        sn.walk env capacity session.machine.disk.file call fuel = c.answer call := by
  obtain ⟨sound, -⟩ := page_ids_sound h
  refine ⟨sound.writes, fun ps id id' low low' different => ?_, fun sn member => ?_⟩
  · exact ⟨metaRegionLen_le_fileOffset ps id, fileOffset_disjoint ps low low' different⟩
  · have kept := sound.kept sn member
    refine ⟨fun id low below => kept.read low below,
      fun capacity capacity' call fuel reply positive looks found => ?_,
      fun c capacity call fuel positive looks holds deep => holds.walk kept looks deep positive⟩
    exact kept.walk looks positive found

/-- The first insertion fails when it writes its page and is tried again, a second row is inserted,
and the database is opened again: the root of the first row alone is still in its place, and walking
from it finds that row alone. -/
theorem committed_pages_untouched_reopened :
    let env := Env.failingAt .dev (fun _ => 0) 4
    let one : I64 := ⟨1, by decide, by decide⟩
    let two : I64 := ⟨2, by decide, by decide⟩
    ∃ s₀ s₁ s₂ s₃ s₄ d, Database.createWithCapacity env PageSize.default 1
      ⟨false, File.empty, 0, []⟩ = .ok s₀ s₀.disk ∧
      answerOf ((Call.insert one ⟨[]⟩).run env u32Max s₀) = .error .io ∧
        final ((Call.insert one ⟨[]⟩).run env u32Max s₀) = s₁ ∧
      (Call.insert one ⟨[]⟩).run env u32Max s₁ = .ok .done s₂ ∧
        (Call.insert two ⟨[]⟩).run env u32Max s₂ = .ok .done s₃ ∧
      Database.openWithCapacity env 9 s₃.disk = .ok s₄ d ∧
      firstDataPageId ≤ s₂.pager.rootPageId ∧ s₂.pager.rootPageId < s₂.pager.pageCount ∧
      s₄.disk.file.read (Pager.fileOffset PageSize.default s₂.pager.rootPageId) 4096
        = s₂.disk.file.read (Pager.fileOffset PageSize.default s₂.pager.rootPageId) 4096 ∧
      Snapshot.walk env ⟨s₂.pager.content, s₂.disk.file⟩ 1 s₄.disk.file .scan u32Max =
        .ok (.rows [(one, ⟨[]⟩)]) ∧
      Snapshot.walk env ⟨s₃.pager.content, s₃.disk.file⟩ 1 s₄.disk.file .scan u32Max =
        .ok (.rows [(one, ⟨[]⟩), (two, ⟨[]⟩)]) := by
  intro env one two
  have encodes : ∀ key, Row.encode ⟨[]⟩ key = .ok [0, 0, 0, 0] := fun _ => rfl
  have brief : List.length ([0, 0, 0, 0] : Bytes) ≤ 24 := by decide
  obtain ⟨s₀, s₁, create, fails, -, -, next₁⟩ :=
    first_insert_fails .dev (fun _ => 0) PageSize.default (Nat.le_refl 1)
    (encodes one) (by decide) u32Max
  obtain ⟨s₂, step₂, short₂, next₂⟩ :=
    fails.steady.first_short (Nat.le_refl _) (encodes one) brief (by rw [next₁]; decide)
  have rows₂ := step₂.rows
  obtain ⟨s₃, step₃, short₃, next₃⟩ :=
    step₂.steady.insert_short short₂ (by decide) (Nat.le_refl _) (encodes two) brief
    (by rw [rows₂]; decide)
      (by rw [next₁] at next₂; exact Nat.le_trans (Nat.add_le_add_right next₂ 3) (by decide))
  have rows₃ := step₃.rows
  rw [rows₂] at rows₃
  obtain ⟨s₄, d, opened, -, session, -⟩ := step₃.steady.reopened (show 1 ≤ 9 by decide)
  have reachable :=
    ((((Reachable.create rfl create).stays fails).advances step₂).advances step₃).drop.reopen opened
  rw [session none] at reachable
  obtain ⟨-, -, kept⟩ := committed_pages_untouched reachable
  obtain ⟨pages, -, walks₂⟩ :=
    kept ⟨s₂.pager.content, s₂.disk.file⟩ (List.mem_cons_of_mem _ List.mem_cons_self)
  obtain ⟨-, -, walks₃⟩ := kept ⟨s₃.pager.content, s₃.disk.file⟩ List.mem_cons_self
  have holds₂ := step₂.steady.holds
  have first := walks₂ _ 1 .scan u32Max (Nat.le_refl 1) id holds₂ (by rw [short₂.height]; decide)
  have second :=
    walks₃ _ 1 .scan u32Max (Nat.le_refl 1) id step₃.steady.holds (by rw [short₃.height]; decide)
  rw [Content.answer, rows₂] at first
  rw [Content.answer, rows₃] at second
  -- the root is one of the committed pages
  rw [Content.after_insert (encodes one)] at holds₂
  have range := (holds₂.wellFormed _ rfl).range _ (Tree.id_mem_pages _)
  have root : (Content.put PageSize.default one ⟨[]⟩ [0, 0, 0, 0] none s₁.nextPageId).1.2.id =
    s₂.pager.rootPageId := holds₂.root
  rw [root] at range
  have size : s₂.pager.content.pageSize = PageSize.default := step₂.steady.size
  have same := pages _ range.1 range.2
  rw [size] at same
  exact ⟨s₀, s₁, s₂, s₃, s₄, d, create, fails.answered, fails.left, step₂.run, step₃.run, opened,
    range.1, range.2, same, first, second⟩

end Pinax
