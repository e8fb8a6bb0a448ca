import Pinax.Verified.Alongside
import Pinax.Verified.AnyFile

/-! # Damaged pages

A database whose file lost some of its committed data pages, beside one whose file did not.  As long
as no damaged page passes its checksum, the two do the same until the first one reports a damaged
page.
-/

namespace Pinax

open Hoare (Alike Lockstep final)

/-- The bytes of a data page. -/
def File.page (file : File) (ps : PageSize) (id : Nat) : Bytes :=
  file.read (Pager.fileOffset ps id) ps.bytes

/-- `f` is `g` with damage to data pages below `count`, and no damaged page passes its checksum. -/
structure Scarred (env : Env) (ps : PageSize) (count : Nat) (f g : File) : Prop where
  len : f.len = g.len
  outside : ∀ i, i < metaRegionLen ∨ Pager.fileOffset ps count ≤ i → f.byte i = g.byte i
  caught : ∀ id < count, f.page ps id = g.page ps id ∨ verifies env (f.page ps id) = false

/-- The error that reports a damaged page. -/
def ReportsDamage (env : Env) (ps : PageSize) (f g : File) (e : Stop) : Prop :=
  ∃ id, f.page ps id ≠ g.page ps id ∧
    e = .fatal (.corruption id (storedChecksum (f.page ps id)) (computeChecksum env (f.page ps id)))

/-- Disks after the same I/O calls, of which one has the damage: the pages below `count` are those
of `f` and of `g`. -/
structure Scars (ps : PageSize) (count : Nat) (f g : File) (d d' : Disk) : Prop where
  clock : d'.clock = d.clock
  present : d'.present = d.present
  len : d'.file.len = d.file.len
  outside : ∀ i, i < metaRegionLen ∨ Pager.fileOffset ps count ≤ i → d'.file.byte i = d.file.byte i
  inside : ∀ i, metaRegionLen ≤ i → i < Pager.fileOffset ps count → d.file.byte i = f.byte i ∧
    d'.file.byte i = g.byte i

variable {env : Env} {ps : PageSize} {count : Nat} {f g : File} {E : Stop → Prop} {d d' : Disk}

/-! ## The file -/

namespace Scars

theorem tick (scars : Scars ps count f g d d') : Scars ps count f g d.tick d'.tick :=
  ⟨congrArg (· + 1) scars.clock, scars.present, scars.len, scars.outside, scars.inside⟩

theorem synced (scars : Scars ps count f g d d') : Scars ps count f g d.synced d'.synced :=
  ⟨congrArg (· + 1) scars.clock, scars.present, scars.len, scars.outside, scars.inside⟩

theorem read (scars : Scars ps count f g d d') {off n : Nat}
    (apart : off + n ≤ metaRegionLen ∨ Pager.fileOffset ps count ≤ off) :
    d'.file.read off n = d.file.read off n :=
  File.read_congr fun i inside => scars.outside _ (by omega)

/-- A write that misses the damage. -/
theorem written (scars : Scars ps count f g d d') {off : Nat} {data : Bytes} (torn : Torn)
    (apart : off + data.length ≤ metaRegionLen ∨ Pager.fileOffset ps count ≤ off) :
    Scars ps count f g (d.written off data torn) (d'.written off data torn) := by
  refine ⟨congrArg (· + 1) scars.clock, scars.present, ?_, fun i outside => ?_, fun i low high => ?_⟩
  · show (d'.file.store off data torn).len = (d.file.store off data torn).len
    simp only [File.store, scars.len]
  · show (d'.file.store off data torn).byte i = (d.file.store off data torn).byte i
    simp only [File.store, scars.outside i outside]
  · have missed : i < off ∨ off + data.length ≤ i := by omega
    obtain ⟨first, second⟩ := scars.inside i low high
    exact ⟨(File.byte_store_outside missed).trans first, (File.byte_store_outside missed).trans second⟩

/-- A page below `count` is that of `f` and of `g`, and the other pages are the same. -/
theorem page (scars : Scars ps count f g d d') (id : Nat) :
    (id < count ∧ d.file.page ps id = f.page ps id ∧ d'.file.page ps id = g.page ps id) ∨
      d'.file.page ps id = d.file.page ps id := by
  -- the offsets of the ids 0 and 1 saturate to that of the first data page
  have offset : Pager.fileOffset ps id = Pager.fileOffset ps (max id firstDataPageId) := by
    have same : max id firstDataPageId - firstDataPageId = id - firstDataPageId := by omega
    rw [Pager.fileOffset, Pager.fileOffset, same]
  have start := metaRegionLen_le_fileOffset ps id
  by_cases below : max id firstDataPageId < count
  · have stop := fileOffset_add_le ps (Nat.le_max_right id firstDataPageId) below
    rw [← offset] at stop
    refine Or.inl ⟨by omega, File.read_congr fun i within => ?_, File.read_congr fun i within => ?_⟩
    · exact (scars.inside _ (by omega) (by omega)).1
    · exact (scars.inside _ (by omega) (by omega)).2
  · have beyond := fileOffset_mono ps (Nat.le_of_not_lt below)
    rw [← offset] at beyond
    exact Or.inr (scars.read (Or.inr beyond))

end Scars

theorem Scarred.scars (scarred : Scarred env ps count f g) (d : Disk) (file : d.file = g) :
    Scars ps count f g { d with file := f } d := by
  subst file
  exact ⟨rfl, rfl, scarred.len.symm, fun i outside => (scarred.outside i outside).symm,
    fun i low high => ⟨rfl, rfl⟩⟩

section disk

/-- Reading a page finds the same in both files, or reports the damage. -/
theorem readDataPage_lockstep (scarred : Scarred env ps count f g) {pager : Pager}
    (size : pager.pageSize = ps) (id : Nat) :
    Lockstep (fun _ => False) (ReportsDamage env ps f g) (Scars ps count f g)
      (pager.readDataPage env id) (pager.readDataPage env id) where
  stable := fun _ none => none
  runs := by
    intro d d' scars
    refine Or.inr ?_
    have first := readExactAt_apply env (Pager.fileOffset ps id) ps.bytes d
    have second := readExactAt_apply env (Pager.fileOffset ps id) ps.bytes d'
    rw [scars.clock, scars.len] at second
    rw [Pager.readDataPage, size]
    -- the clocks and the lengths agree, so the reads fail together
    by_cases failed : (env.fault d.clock).isSome = true ∨ d.file.len < Pager.fileOffset ps id + ps.bytes
    · rw [if_pos failed] at first second
      rw [Hoare.bind_error first, Hoare.bind_error second]
      exact .error scars.tick
    · rw [if_neg failed] at first second
      rw [Hoare.bind_ok first, Hoare.bind_ok second]
      -- the page is as in the sound file, or damaged in a way that the checksum catches
      have same : d'.file.page ps id = d.file.page ps id ∨
          (d.file.page ps id = f.page ps id ∧ f.page ps id ≠ g.page ps id ∧
            verifies env (f.page ps id) = false) := by
        cases scars.page id with
        | inl damaged =>
          obtain ⟨below, left, right⟩ := damaged
          by_cases equal : f.page ps id = g.page ps id
          · exact Or.inl (right.trans (equal.symm.trans left.symm))
          · cases scarred.caught id below with
            | inl same => exact absurd same equal
            | inr caught => exact Or.inr ⟨left, equal, caught⟩
        | inr same => exact Or.inl same
      cases same with
      | inl same =>
        have same : d'.file.read (Pager.fileOffset ps id) ps.bytes =
          d.file.read (Pager.fileOffset ps id) ps.bytes := same
        rw [same]
        split
        · exact .ok scars.tick
        · exact .error scars.tick
      | inr damaged =>
        obtain ⟨left, different, caught⟩ := damaged
        have left : d.file.read (Pager.fileOffset ps id) ps.bytes = f.page ps id := left
        rw [left, caught]
        exact .gaveUp ⟨id, different, rfl⟩

theorem writeAllAt_lockstep (env : Env) {off : Nat} {data : Bytes}
    (apart : off + data.length ≤ metaRegionLen ∨ Pager.fileOffset ps count ≤ off) :
    Lockstep (fun _ => False) E (Scars ps count f g) (writeAllAt env off data)
      (writeAllAt env off data) where
  stable := fun _ none => none
  runs := by
    intro d d' scars
    refine Or.inr ?_
    have second := writeAllAt_apply env off data d'
    rw [scars.clock] at second
    cases writeAllAt_apply env off data d with
    | inl works =>
      cases second with
      | inl works' =>
        rw [works.2, works'.2]
        exact .ok (scars.written _ apart)
      | inr fails' =>
        obtain ⟨torn, fault, -⟩ := fails'
        cases works.1.symm.trans fault
    | inr fails =>
      obtain ⟨torn, fault, run⟩ := fails
      cases second with
      | inl works' => cases works'.1.symm.trans fault
      | inr fails' =>
        obtain ⟨torn', fault', run'⟩ := fails'
        obtain rfl := Option.some.inj (fault.symm.trans fault')
        rw [run, run']
        exact .error (scars.written _ apart)

theorem sync_lockstep (env : Env) :
    Lockstep (fun _ => False) E (Scars ps count f g) (sync env) (sync env) where
  stable := fun _ none => none
  runs := by
    intro d d' scars
    refine Or.inr ?_
    have second := sync_apply env d'
    rw [scars.clock] at second
    cases sync_apply env d with
    | inl works =>
      cases second with
      | inl works' =>
        rw [works.2, works'.2]
        exact .ok scars.synced
      | inr fails' =>
        rw [works.1] at fails'
        cases fails'.1
    | inr fails =>
      cases second with
      | inl works' =>
        rw [works'.1] at fails
        cases fails.1
      | inr fails' =>
        rw [fails.2, fails'.2]
        exact .error scars.tick

theorem writeStamped_lockstep (env : Env) (pager : Pager) (size : pager.pageSize = ps) {id : Nat}
    (high : count ≤ id) (buf : Bytes) :
    Lockstep (fun _ => False) E (Scars ps count f g) (pager.writeStamped env id buf)
      (pager.writeStamped env id buf) := by
  unfold Pager.writeStamped record
  refine .bind (.modify (fun _ none => none) fun d d' scars => ?_) fun _ =>
    writeAllAt_lockstep env (Or.inr ?_)
  · exact ⟨scars.clock, scars.present, scars.len, scars.outside, scars.inside⟩
  · rw [size]
    exact fileOffset_mono ps high

theorem pagerCommit_lockstep (env : Env) (pager : Pager) (newRoot newPageCount : Nat) :
    Lockstep (fun _ => False) E (Scars ps count f g) (pager.commit env newRoot newPageCount)
      (pager.commit env newRoot newPageCount) := by
  unfold Pager.commit
  refine .bind (sync_lockstep env) fun _ => ?_
  simp only [encodeMetaSlot_eq, liftM_ok, pure_bind]
  refine .bind inferInstance fun txnId => .bind (writeAllAt_lockstep env (Or.inl ?_)) fun _ => .bind
    (sync_lockstep env) fun _ => .pure
  rw [length_metaSlot]
  exact slotOffset_bound _

end disk

/-! ## The pool -/

/-- The same pool over both files, which only writes pages from `count` on. -/
structure Scarring (ps : PageSize) (count : Nat) (f g : File) (s t : BufferPool) : Prop where
  same : t = s.over t.disk
  disk : Scars ps count f g s.disk t.disk
  size : s.pager.pageSize = ps
  dirty : ∀ id ∈ s.dirty, count ≤ id
  next : count ≤ s.nextPageId

/-- The program does the same over both files until it reports the damage. -/
abbrev Uncovers {α : Type} (env : Env) (ps : PageSize) (count : Nat) (f g : File) (x : PoolM α) : Prop :=
  Lockstep (fun _ => False) (ReportsDamage env ps f g) (Scarring ps count f g) x x

namespace Uncovers

variable {α : Type}

theorem onDisk {x : IoM α}
    (onFile : Lockstep (fun _ => False) (ReportsDamage env ps f g) (Scars ps count f g) x x) :
    Uncovers env ps count f g (Pinax.onDisk x) where
  stable := fun _ none => none
  runs := by
    intro s t scarring
    obtain ⟨same, disk, size, dirty, next⟩ := scarring
    refine Or.inr ?_
    cases onFile.runs s.disk t.disk disk with
    | inl none => exact none.elim
    | inr alike =>
      generalize first : x s.disk = r, second : x t.disk = r' at alike
      cases alike with
      | ok scars =>
        rw [onDisk_ok first, onDisk_ok second, same]
        exact .ok ⟨rfl, scars, size, dirty, next⟩
      | error scars =>
        rw [onDisk_error first, onDisk_error second, same]
        exact .error ⟨rfl, scars, size, dirty, next⟩
      | gaveUp reports =>
        rw [onDisk_error first]
        exact .gaveUp reports

/-- A change of the pool that does not touch the file. -/
theorem change {h : BufferPool → BufferPool} (commutes : ∀ s d, h (s.over d) = (h s).over d)
    (disk : ∀ s, (h s).disk = s.disk) (pager : ∀ s, (h s).pager = s.pager)
    (next : ∀ s, (h s).nextPageId = s.nextPageId)
    (dirty : ∀ s, ∀ id ∈ (h s).dirty, id ∈ s.dirty ∨ count ≤ id) :
    Uncovers env ps count f g (modify h) := by
  refine Lockstep.modify (fun _ none => none) fun s t scarring => ?_
  obtain ⟨same, scars, size, old, high⟩ := scarring
  have same : h t = (h s).over (h t).disk := by
    rw [disk t, same, commutes]
    rfl
  refine ⟨same, ?_, by rw [pager]; exact size,
    fun id member => (dirty s id member).elim (old id) fun high => high, by rw [next]; exact high⟩
  rw [disk, disk]
  exact scars

/-- A change of the cache alone. -/
theorem cached {h : BufferPool → BufferPool} (commutes : ∀ s d, h (s.over d) = (h s).over d)
    (disk : ∀ s, (h s).disk = s.disk) (pager : ∀ s, (h s).pager = s.pager)
    (next : ∀ s, (h s).nextPageId = s.nextPageId) (dirty : ∀ s, (h s).dirty ⊆ s.dirty) :
    Uncovers env ps count f g (modify h) :=
  change commutes disk pager next fun s _ member => Or.inl (dirty s member)

/-- A program that looks at the pool first does the same over both files, if it does from then on. -/
theorem getBind {h : BufferPool → PoolM α} (blind : ∀ s d, h (s.over d) = h s)
    (rest : ∀ s t, Scarring ps count f g s t → Uncovers env ps count f g (h s)) :
    Uncovers env ps count f g (MonadState.get >>= h) := by
  refine Lockstep.getBind (fun _ none => none) fun s t scarring => ?_
  have same : h t = h s := by rw [scarring.same, blind]
  rw [same]
  exact (rest s t scarring).runs s t scarring

theorem writeDataPage {keep : Bytes → PoolM Unit} (keeps : ∀ b, Uncovers env ps count f g (keep b))
    {id : Nat} (high : count ≤ id) (buf : Bytes) :
    Uncovers env ps count f g (writeDataPage env keep id buf) := by
  unfold Pinax.writeDataPage
  refine .bind inferInstance fun stampedBuf => .bind (keeps _) fun _ => getBind (fun _ _ => rfl)
    fun s t scarring => ?_
  exact onDisk (writeStamped_lockstep env s.pager scarring.size high stampedBuf)

theorem evictOne : Uncovers env ps count f g (BufferPool.evictOne env) := by
  unfold BufferPool.evictOne
  refine getBind (fun _ _ => rfl) fun s t scarring => ?_
  cases s.recency with
  | nil => exact .throw
  | cons id rest =>
    refine .bind (cached (fun _ _ => rfl) (fun _ => rfl) (fun _ => rfl) (fun _ => rfl) fun _ =>
      subset_rfl) fun _ => ?_
    cases s.entries.lookup id with
    | none => exact .throw
    | some buf =>
      refine .bind (cached (fun _ _ => rfl) (fun _ => rfl) (fun _ => rfl) (fun _ => rfl) fun _ =>
        subset_rfl) fun _ => ?_
      split
      next isDirty =>
        refine .bind (cached (fun _ _ => rfl) (fun _ => rfl) (fun _ => rfl) (fun _ => rfl) fun s =>
          Finset.erase_subset _ _) fun _ => ?_
        exact writeDataPage (fun _ => .pure) (scarring.dirty id isDirty) buf
      next => exact .pure

theorem evictWhileFull (bound : Nat) :
    Uncovers env ps count f g (BufferPool.evictWhileFull env bound) := by
  induction bound with
  | zero => exact .throw
  | succ bound ih =>
    rw [BufferPool.evictWhileFull]
    refine getBind (fun _ _ => rfl) fun s t scarring => ?_
    split
    · exact .bind evictOne fun _ => ih
    · exact .pure

theorem insertCached (id : Nat) (buf : Bytes) (dirty : Bool) (high : dirty = true → count ≤ id) :
    Uncovers env ps count f g (BufferPool.insertCached env id buf dirty) := by
  unfold BufferPool.insertCached
  refine .bind (cached (fun s d => ?_) (fun s => ?_) (fun s => ?_) (fun s => ?_) fun s => ?_) fun _ => ?_
  · by_cases present : id ∈ s.entries
    · rw [if_pos (show id ∈ (s.over d).entries from present), if_pos present]
      rfl
    · rw [if_neg (show id ∉ (s.over d).entries from present), if_neg present]
  · split <;> rfl
  · split <;> rfl
  · split <;> rfl
  · split <;> exact subset_rfl
  refine getBind (fun _ _ => rfl) fun s t scarring => .bind (evictWhileFull _) fun _ => .bind
    (change (fun s d => ?_) (fun s => ?_)
    (fun s => ?_) (fun s => ?_) fun s id' member => ?_) fun _ =>
      cached (fun _ _ => rfl) (fun _ => rfl) (fun _ => rfl) (fun _ => rfl) fun _ => subset_rfl
  · cases dirty <;> rfl
  · split <;> rfl
  · split <;> rfl
  · split <;> rfl
  · cases dirty with
    | false => exact Or.inl member
    | true =>
      cases Finset.mem_insert.mp member with
      | inl same => exact Or.inr (same ▸ high rfl)
      | inr old => exact Or.inl old

theorem get (scarred : Scarred env ps count f g) (id : Nat) :
    Uncovers env ps count f g (BufferPool.get env id) := by
  unfold BufferPool.get
  refine getBind (fun _ _ => rfl) fun s t scarring => ?_
  cases s.entries.lookup id with
  | some buf =>
    exact .bind (cached (fun _ _ => rfl) (fun _ => rfl) (fun _ => rfl) (fun _ => rfl) fun _ =>
      subset_rfl) fun _ => .pure
  | none =>
    refine .bind (onDisk (readDataPage_lockstep scarred scarring.size id)) fun buf => ?_
    exact .bind (insertCached id buf false fun none => by cases none) fun _ => .pure

theorem flushOne {id : Nat} (high : count ≤ id) :
    Uncovers env ps count f g (BufferPool.flushOne env id) := by
  unfold BufferPool.flushOne
  refine getBind (fun _ _ => rfl) fun s t scarring => ?_
  cases s.entries.lookup id with
  | none => exact .pure
  | some buf =>
    refine writeDataPage (fun stampedBuf => ?_) high buf
    exact cached (fun _ _ => rfl) (fun _ => rfl) (fun _ => rfl) (fun _ => rfl) fun _ => subset_rfl

theorem flushIds {ids : List Nat} (high : ∀ id ∈ ids, count ≤ id) :
    Uncovers env ps count f g (BufferPool.flushIds env ids) := by
  induction ids with
  | nil => exact .pure
  | cons id ids ih =>
    rw [BufferPool.flushIds]
    refine .bind (flushOne (high id List.mem_cons_self)) fun _ => .bind
      (cached (fun _ _ => rfl) (fun _ => rfl) (fun _ => rfl)
      (fun _ => rfl) fun s => Finset.erase_subset _ _) fun _ => ih fun id' member => high id'
        (List.mem_cons_of_mem _ member)

theorem flushAllDirty : Uncovers env ps count f g (BufferPool.flushAllDirty env) := by
  unfold BufferPool.flushAllDirty
  refine Lockstep.getBind (fun _ none => none) fun s t scarring => ?_
  have dirty : t.dirty = s.dirty := by
    rw [scarring.same]
    rfl
  rw [scarring.disk.clock, dirty]
  have rest : Uncovers env ps count f g
    (BufferPool.flushIds env (env.order s.disk.clock s.dirty) >>= fun _ => Pinax.onDisk (sync env)) :=
    .bind (flushIds fun id member => scarring.dirty id ((env.mem_order _ _ id).mp member)) fun _ =>
      onDisk (sync_lockstep env)
  exact rest.runs s t scarring

/-- A commit keeps the page size. -/
theorem commit (root : Nat) : Uncovers env ps count f g (BufferPool.commit env root) := by
  unfold BufferPool.commit
  refine .bind flushAllDirty fun _ => getBind (fun _ _ => rfl) fun s t scarring =>
    ⟨fun _ none => none, fun s' t' scarring' => ?_⟩
  have first : Uncovers env ps count f g (Pinax.onDisk (s.pager.commit env root s.nextPageId)) :=
    onDisk (pagerCommit_lockstep env _ _ _)
  refine @Lockstep.bind_runs _ _ _ _ _ (fun _ => False) _ _ _ _ _ _ _ _ (fun _ _ none => none)
    (first.runs s' t' scarring')
    fun pager s'' t'' run related => Or.inr (.ok ?_)
  have size : pager.pageSize = ps := by
    rw [← scarring.size]
    rcases Pager.commit_cases env s.pager root s.nextPageId s'.disk with ⟨-, file⟩ | ⟨-, file⟩ |
      ⟨-, file⟩ | ⟨torn, -, file⟩ | ⟨-, file⟩
    · rw [onDisk_ok file] at run
      obtain ⟨rfl, -⟩ := EStateM.Result.ok.inj run
      rfl
    all_goals
      rw [onDisk_error file] at run
      cases run
  obtain ⟨same, scars, -, dirty, next⟩ := related
  refine ⟨?_, scars, size, dirty, next⟩
  rw [same]
  rfl

end Uncovers

theorem Scarring.handedOut {s t : BufferPool} (scarring : Scarring ps count f g s t) :
    Scarring ps count f g s.handedOut t.handedOut := by
  obtain ⟨same, scars, size, dirty, next⟩ := scarring
  refine ⟨?_, ⟨scars.clock, scars.present, scars.len, scars.outside, scars.inside⟩, size, dirty,
    Nat.le_succ_of_le next⟩
  rw [same]
  rfl

instance : SamePager (Scarring ps count f g) := ⟨fun s t scarring => by
  rw [scarring.same]
  rfl⟩

theorem alongside_of_scarred (scarred : Scarred env ps count f g) :
    Alongside env env Exhausted (ReportsDamage env ps f g) (Scarring ps count f g) where
  get := fun id => (Uncovers.get scarred id).escaping
    (inferInstance : Appends (BufferPool.get env id)).exhausted
  put := by
    intro α buf h h' rest
    have putNew : ∀ id, Appends (BufferPool.putNew env id buf) := fun id => inferInstance
    have stable : ∀ id s, Exhausted s →
      Exhausted (final ((BufferPool.putNew env id buf >>= fun _ => h id) s)) := fun id =>
      Lockstep.bind_stable (putNew id).exhausted fun _ => (rest id).stable
    refine ⟨Lockstep.bind_stable Appends.allocatePageId.exhausted stable, fun s t scarring => ?_⟩
    have next : t.nextPageId = s.nextPageId := by
      rw [scarring.same]
      rfl
    have second := allocatePageId_apply env t
    rw [next] at second
    rcases allocatePageId_apply env s with ⟨fits, run⟩ | ⟨wraps, exhausted⟩
    · rcases second with ⟨-, run'⟩ | ⟨wraps, -⟩
      · -- the new page lies past the damage
        rw [Hoare.bind_ok run, Hoare.bind_ok run']
        have put : Lockstep Exhausted (ReportsDamage env ps f g) (Scarring ps count f g)
          (BufferPool.putNew env s.nextPageId buf)
            (BufferPool.putNew env s.nextPageId buf) :=
          (Uncovers.insertCached s.nextPageId buf true fun _ => scarring.next).escaping
            (putNew s.nextPageId).exhausted
        exact (Lockstep.bind put fun _ => rest s.nextPageId).runs _ _ scarring.handedOut
      -- both pools hand out the same id, or both have none left
      · omega
    · refine Or.inl ?_
      cases run : BufferPool.allocatePageId env s with
      | ok id s' =>
        rw [run] at exhausted
        rw [Hoare.bind_ok run]
        exact stable id s' exhausted
      | error e s' =>
        rw [run] at exhausted
        rw [Hoare.bind_error run]
        exact exhausted
  commit := fun root => (Uncovers.commit root).escaping
    (inferInstance : Appends (BufferPool.commit env root)).exhausted

/-! ## Opening -/

theorem ioCall_lockstep (env : Env) :
    Lockstep (fun _ => False) E (Scars ps count f g) (ioCall env) (ioCall env) where
  stable := fun _ none => none
  runs := by
    intro d d' scars
    show _ ∨ Alike E _ (.ok (env.fault d.clock) d.tick) (.ok (env.fault d'.clock) d'.tick)
    rw [scars.clock]
    exact Or.inr (.ok scars.tick)

theorem readExactAt_lockstep (env : Env) {off n : Nat} (apart : off + n ≤ metaRegionLen) :
    Lockstep (fun _ => False) E (Scars ps count f g) (readExactAt env off n) (readExactAt env off n) := by
  unfold readExactAt
  refine .bind (ioCall_lockstep env) fun fault => Lockstep.getBind (fun _ none => none)
    fun d d' scars => Or.inr ?_
  rw [scars.len, scars.read (Or.inl apart)]
  split
  · exact .error scars
  · exact .ok scars

/-- `open` reads the meta slots only. -/
theorem openFile_lockstep (env : Env) :
    Lockstep (fun _ => False) E (Scars ps count f g) (Pager.openFile env) (Pager.openFile env) := by
  unfold Pager.openFile
  refine .bind (ioCall_lockstep env) fun fault => Lockstep.getBind (fun _ none => none)
    fun d d' scars => ?_
  rw [scars.present]
  refine (Lockstep.ite .throw (.bind (ioCall_lockstep env) fun fault => ?_)).runs d d' scars
  refine .ite .throw (.getBind (fun _ none => none) fun d d' scars => ?_)
  rw [scars.len]
  refine (Lockstep.ite .throw (.bind (readExactAt_lockstep env ?_) fun slotA =>
    .bind (readExactAt_lockstep env ?_) fun slotB => ?_)).runs d d' scars
  · decide
  · decide
  · cases Pager.chooseSlot (Pager.validSlot env slotA) (Pager.validSlot env slotB) with
    | none => exact .throw
    | some chosen => exact .pure

/-- Damage to data pages is found before it is served.  A database whose committed data pages were
damaged in any way that their checksums catch opens like the undamaged one, and every sequence of
calls, writing and failing ones among them, gets the undamaged replies until a call reports a
damaged page with both checksums. -/
theorem damage_detected {capacity : Nat} {t : Database}
    (opened : Database.openWithCapacity env capacity d = .ok t d')
    (scarred : Scarred env t.pager.pageSize t.pager.pageCount f d.file) :
    ∃ s d'', Database.openWithCapacity env capacity { d with file := f } = .ok s d'' ∧ s.pager = t.pager ∧
      ∀ calls fuel, ¬ Exhausted (afterCalls env fuel calls s) →
        AlikeUntil (ReportsDamage env t.pager.pageSize f d.file) (replies env fuel calls s)
          (replies env fuel calls t) := by
  have both : Lockstep (fun _ => False) (fun _ => False)
    (Scars t.pager.pageSize t.pager.pageCount f d.file)
      (Pager.openFile env) (Pager.openFile env) := openFile_lockstep env
  rw [Database.openWithCapacity] at opened
  cases both.runs _ _ (scarred.scars d rfl) with
  | inl none => exact none.elim
  | inr alike =>
    generalize first : Pager.openFile env { d with file := f } = r,
      second : Pager.openFile env d = r' at alike
    cases alike with
    | error scars =>
      rw [Hoare.bind_error second] at opened
      cases opened
    | gaveUp none => exact none.elim
    | @ok pager dis dis' scars =>
      rw [Hoare.bind_ok second, Hoare.get_bind] at opened
      cases made : BufferPool.new dis' pager capacity with
      | error e =>
        rw [made] at opened
        cases opened
      | ok pool =>
        rw [made] at opened
        injection opened with same sameDisk
        subst same sameDisk
        obtain ⟨rfl, -⟩ := new_ok env made
        have positive : 1 ≤ capacity := by
          by_contra none
          rw [BufferPool.new, if_neg none] at made
          cases made
        let s : Database :=
          { disk := dis, pager, capacity, entries := ∅, dirty := ∅, recency := [], nextPageId := pager.pageCount }
        -- nothing is cached yet, and new pages come after the committed ones
        have scarring : Scarring pager.pageSize pager.pageCount f d.file s (s.over dis') :=
          ⟨rfl, scars, rfl, fun id none => absurd none (Finset.notMem_empty id), Nat.le_refl _⟩
        refine ⟨s, dis, ?_, rfl, fun calls fuel within => ?_⟩
        · rw [Database.openWithCapacity, Hoare.bind_ok first, Hoare.get_bind, BufferPool.new,
            if_pos positive]
          rfl
        · have alongside := alongside_of_scarred scarred
          have builds : Builds (ReportsDamage env pager.pageSize f d.file) env.profile env.profile :=
            ⟨Or.inl rfl⟩
          exact replies_alike scarring within

/-- The root page is overwritten with the same page under another checksum. -/
theorem damage_detected_root :
    let env := Env.faultless .release fun _ => 0
    ∃ (file f : File) (t s : Database) (d' d'' : Disk),
      f.page PageSize.default 2 ≠ file.page PageSize.default 2 ∧
      Database.openWithCapacity env 1 ⟨true, file, 0, []⟩ = .ok t d' ∧
        Database.openWithCapacity env 1 ⟨true, f, 0, []⟩ = .ok s d'' ∧
      ∀ calls fuel, ¬ Exhausted (afterCalls env fuel calls s) →
        AlikeUntil (ReportsDamage env PageSize.default f file) (replies env fuel calls s)
          (replies env fuel calls t) := by
  intro env
  let other := Env.faultless .release fun _ => 1
  obtain ⟨page, len⟩ : ∃ page : Bytes, page.length = PageSize.default.bytes :=
    ⟨List.replicate _ 0, List.length_replicate⟩
  obtain ⟨file, t, d', opened, content, raw⟩ := rooted_opens .release (fun _ => 0) PageSize.default len
  have size : t.pager.pageSize = PageSize.default := congrArg MetaContent.pageSize content
  have count : t.pager.pageCount = 3 := congrArg MetaContent.pageCount content
  obtain ⟨long, checked, read⟩ := rawPage_eq_some.mp raw
  have offset : Pager.fileOffset PageSize.default 2 = metaRegionLen := Nat.add_zero _
  have next : Pager.fileOffset PageSize.default 3 = metaRegionLen + PageSize.default.bytes := by
    simp [Pager.fileOffset, firstDataPageId]
  have large : 8 ≤ page.length := by
    rw [len]
    decide
  have stampedLen : (stamped other page).length = PageSize.default.bytes :=
    (length_stamped large).trans len
  -- the root page, stamped with another checksum than the one computed
  let f := file.write (Pager.fileOffset PageSize.default 2) (stamped other page)
  have caught : verifies env (f.page PageSize.default 2) = false := by
    have damaged : f.page PageSize.default 2 = stamped other page := File.read_write_at stampedLen
    have stored : storedChecksum (stamped other page) = 1 :=
      beq_iff_eq.mp (verifies_stamped large : verifies other _ = true)
    rw [damaged, verifies, stored]
    rfl
  -- what fails its checksum is not what passes it
  have different : f.page PageSize.default 2 ≠ file.page PageSize.default 2 := by
    intro same
    rw [same, File.page, read] at caught
    cases caught.symm.trans checked
  have scarred : Scarred env t.pager.pageSize t.pager.pageCount f file := by
    rw [size, count]
    refine ⟨?_, fun i outside => ?_, fun id below => ?_⟩
    · rw [File.len_write (by omega), stampedLen]
      omega
    · exact File.byte_store_outside (by omega)
    · -- the ids 0 and 1 have the offset of the first data page
      have same : Pager.fileOffset PageSize.default id = Pager.fileOffset PageSize.default 2 := by
        have : id - firstDataPageId = 2 - firstDataPageId := by
          simp only [firstDataPageId]
          omega
        rw [Pager.fileOffset, Pager.fileOffset, this]
      rw [File.page, File.page, same]
      exact Or.inr caught
  obtain ⟨s, d'', opened', -, alike⟩ := damage_detected opened scarred
  rw [size] at alike
  exact ⟨file, f, t, s, d', d'', different, opened, opened', alike⟩

end Pinax
