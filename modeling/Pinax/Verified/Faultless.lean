import Pinax.Verified.Histories
import Pinax.Verified.Unique

/-! # Calls without I/O failures

Where every I/O call works, a call that is not refused commits.  `Ran` is a history of such calls.
-/

namespace Pinax

open Hoare (Ends final)

variable {env : Env} {guard : CallGuard} {s s' : Database} {log : List Call} {c : Content}
  {call : Call} {fuel : Nat} {key : I64} {row : Row}

/-- The tree of a settled database. -/
theorem Settled.stands {cur : Snapshot} {past : List Snapshot} {half : Option File}
    {floor h : Nat} {t : Tree h} (settled : Settled env cur past half floor s)
    (contains : s.Contains env (some ⟨h, t⟩)) : Stands env true s t := by
  have wellFormed := contains.wellFormed ⟨h, t⟩ rfl
  have low := settled.recorded.two
  have below := settled.recorded.below
  refine ⟨⟨settled.sound, fun id dirty => ?_, contains.root.symm, ?_, wellFormed.ordered,
    fun id member => (wellFormed.range id member).1⟩,
    wellFormed.sized, wellFormed.distinct, fun id member => (wellFormed.range id member).2⟩
  · have := settled.dirty id dirty
    omega
  · exact wellFormed.stored.mono fun id member content known =>
      (known_of_low (wellFormed.range id member).1).symm.trans known

/-- The first insertion needs few page ids. -/
theorem insert_first_takes {encoded : Bytes} (root : s.pager.rootPageId = emptyTreeRoot)
    (fresh : ¬ Exhausted s) (encodes : row.encode key = .ok encoded)
    (room : s.nextPageId + ((overflowChunks s.pager.pageSize encoded).length + 1) ≤ u32Max) :
    Spends ((overflowChunks s.pager.pageSize encoded).length + 1) s
      ((Call.insert key row).run env fuel s) := by
  have read : BufferPool.rootPageId s = .ok emptyTreeRoot s := by rw [← root]; rfl
  rw [run_insert]
  refine Hoare.Ends.map ?_
  rw [Btree.insert_eq, Hoare.bind_ok read, if_pos rfl]
  exact (insertFirst_takes fun _ => overflowChunks_of_encode encodes).spends rfl room fresh

theorem insert_later_spends {cur : Snapshot} {past : List Snapshot} {half : Option File}
    {floor h : Nat} {t : Tree h} {encoded : Bytes}
    (works : ∀ k, s.disk.clock ≤ k → env.fault k = none) (settled : Settled env cur past half floor s)
    (contains : s.Contains env (some ⟨h, t⟩)) (deep : h < fuel) (fresh : ¬ Exhausted s)
    (encodes : row.encode key = .ok encoded)
    (room : s.nextPageId +
      ((overflowChunks s.pager.pageSize encoded).length + (2 + (2 * h + 1))) ≤ u32Max) :
    Spends ((overflowChunks s.pager.pageSize encoded).length + (2 + (2 * h + 1))) s
      ((Call.insert key row).run env fuel s) := by
  rw [run_insert]
  exact Hoare.Ends.map ((settled.stands contains).insert_spends works deep fresh encodes room)

theorem BufferPool.splitsFit_empty {s : BufferPool} (root : s.pager.rootPageId = emptyTreeRoot)
    (call : Call) : s.SplitsFit env call := by
  intro c contains
  obtain rfl := contains.eq_none root
  cases call with
  | insert key row => exact fun t none => by cases none
  | update key row => exact fun t none => by cases none
  | get key => trivial
  | delete key => trivial
  | scan => trivial

theorem update_spends {cur : Snapshot} {past : List Snapshot} {half : Option File} {floor h : Nat}
    {t : Tree h} {encoded : Bytes} (works : ∀ k, s.disk.clock ≤ k → env.fault k = none)
    (settled : Settled env cur past half floor s) (contains : s.Contains env (some ⟨h, t⟩))
    (deep : h < fuel) (fresh : ¬ Exhausted s) (encodes : row.encode key = .ok encoded)
    (room : s.nextPageId +
      ((overflowChunks s.pager.pageSize encoded).length + (2 + (2 * h + 1))) ≤ u32Max) :
    Spends ((overflowChunks s.pager.pageSize encoded).length + (2 + (2 * h + 1))) s
      ((Call.update key row).run env fuel s) := by
  rw [run_update]
  exact Hoare.Ends.map ((settled.stands contains).update_spends works deep fresh encodes room)

theorem Row.encode_blob {bytes : Bytes} {n : Nat} (len : bytes.length = n)
    (small : n ≤ u32Max) (key : I64) :
    ∃ encoded, Row.encode ⟨[.blob bytes]⟩ key = .ok encoded ∧ encoded.length = n + 9 := by
  have fits : n < 4294967296 := Nat.lt_succ_of_le small
  refine ⟨toBe 4 1 ++ toBe 1 tagBlob ++ toBe 4 n ++ bytes, ?_, ?_⟩
  · simp [Row.encode, encodeValues, encodeValue, pushLenPrefixed, tooLargeAsU32, len, fits]
  · simp only [List.length_append, BigEndian.length_toBe, len]
    omega

/-! ## Histories -/

theorem slotOffset_inj {slot slot' : Fin 2} (same : Pager.slotOffset slot = Pager.slotOffset slot') :
    slot = slot' := by
  simp only [Pager.slotOffset, metaSlotLen] at same
  exact Fin.ext (by omega)

/-- A commit writes its slot as a whole. -/
theorem Committed.caught {floor n root : Nat} {v : Pages}
    (committed : Committed env (callFrom env s floor) v n root s') :
    TornSlotCaught env s.disk s'.disk := by
  intro slot data written
  obtain ⟨flushed, ext, -, file, trace, events, -⟩ := committed.file
  have trace : s'.disk.trace = s.disk.trace ++ (ext ++ [.sync flushed,
    .write (Pager.slotOffset s.pager.spare) (metaSlot env s'.pager.content), .sync s'.disk.file]) := by
    rw [← List.append_assoc]
    exact trace
  rw [trace, List.drop_left] at written
  cases List.mem_append.mp written with
  | inl page =>
    obtain ⟨id, -, offset, -⟩ := events _ page
    have inside := slotOffset_bound slot
    have outside := metaRegionLen_le_fileOffset s.pager.pageSize id
    have offset : Pager.slotOffset slot = Pager.fileOffset s.pager.pageSize id := offset
    have positive : 0 < metaSlotLen := by decide
    omega
  | inr last =>
    simp only [List.mem_cons, Event.write.injEq, List.not_mem_nil, or_false, false_or,
      reduceCtorEq] at last
    obtain ⟨offset, rfl⟩ := last
    obtain rfl := slotOffset_inj offset
    rw [show s'.disk.file = _ from file]
    exact Or.inr (Or.inl (slot_write_same (length_metaSlot _)))

/-! ## Steps -/

/-- A database of the page size `ps` that descends from `lineage` and holds `c`.  From now on its
I/O calls work. -/
structure Steady (env : Env) (ps : PageSize) (lineage : List Snapshot) (s : Database)
    (c : Content) : Prop where
  settled : ∃ cur past floor, lineage = cur :: past ∧ Settled env cur past none floor s ∧ cur.Holds env c
  fresh : ¬ Exhausted s
  size : s.pager.pageSize = ps
  works : ∀ k, s.disk.clock ≤ k → env.fault k = none

/-- The call was answered with `reply` and committed. -/
structure Advances (env : Env) (ps : PageSize) (lineage : List Snapshot) (s : Database) (c : Content)
    (call : Call) (fuel : Nat) (reply : Reply) (s' : Database) : Prop where
  run : call.run env fuel s = .ok reply s'
  steady : Steady env ps (⟨s'.pager.content, s'.disk.file⟩ :: lineage) s' (c.after ps s.nextPageId call)
  rows : (c.after ps s.nextPageId call).rows = call.rowsAfter c.rows
  caught : TornSlotCaught env s.disk s'.disk
  changed : s'.pager ≠ s.pager

/-- The call was answered without a commit, and left the meta slots as they were. -/
structure Stays (env : Env) (ps : PageSize) (lineage : List Snapshot) (s : Database) (c : Content)
    (call : Call) (fuel : Nat) (answer : Except Stop Reply) (s' : Database) : Prop where
  answered : answerOf (call.run env fuel s) = answer
  left : final (call.run env fuel s) = s'
  steady : Steady env ps lineage s' c
  pager : s'.pager = s.pager
  slots : ∀ slot, s'.disk.file.slot slot = s.disk.file.slot slot

variable {ps : PageSize} {lineage : List Snapshot} {reply : Reply} {encoded : Bytes}
  {answer : Except Stop Reply} {half : Option File} {since : Nat}

theorem Stays.caught (step : Stays env ps lineage s c call fuel answer s') :
    TornSlotCaught env s.disk s'.disk :=
  fun slot _ _ => Or.inl (step.slots slot)

theorem Stays.called (step : Stays env ps lineage s c call fuel answer s') :
    Session.called s s' lineage half since = ⟨.running s', lineage, half, since⟩ := by
  rw [Session.called, if_pos step.pager, if_pos (step.slots _)]

theorem Stays.failed {e : Stop} (step : Stays env ps lineage s c call fuel (.error e) s') :
    call.run env fuel s = .error e s' := by
  have answered := step.answered
  have left := step.left
  cases run : call.run env fuel s with
  | ok reply t =>
    rw [run] at answered
    cases answered
  | error e' t =>
    rw [run] at answered left
    cases answered
    exact congrArg _ left

theorem Advances.called (step : Advances env ps lineage s c call fuel reply s') :
    Session.called s s' lineage half since =
      ⟨.running s', ⟨s'.pager.content, s'.disk.file⟩ :: lineage, none, since⟩ := by
  rw [Session.called, if_neg step.changed]

theorem Call.sized_of_encodes (encodes : row.encode key = .ok encoded) (small : encoded.length ≤ u32Max) :
    (Call.insert key row).Sized ∧ (Call.update key row).Sized := by
  have sized : ∀ encoded', row.encode key = .ok encoded' → encoded'.length ≤ u32Max := by
    intro encoded' same
    obtain rfl := Except.ok.inj (encodes.symm.trans same)
    exact small
  exact ⟨sized, sized⟩

namespace Steady

theorem contains (steady : Steady env ps lineage s c) : s.Contains env c := by
  obtain ⟨cur, past, floor, -, settled, holds⟩ := steady.settled
  exact settled.contains holds

theorem holds {cur : Snapshot} {past : List Snapshot} (steady : Steady env ps (cur :: past) s c) :
    cur.Holds env c := by
  obtain ⟨cur', past', floor, same, -, holds⟩ := steady.settled
  obtain ⟨rfl, rfl⟩ := List.cons.inj same
  exact holds

theorem content {cur : Snapshot} {past : List Snapshot} (steady : Steady env ps (cur :: past) s c) :
    s.pager.content = cur.content := by
  obtain ⟨cur', past', floor, same, settled, -⟩ := steady.settled
  obtain ⟨rfl, rfl⟩ := List.cons.inj same
  exact settled.content

theorem count_le (steady : Steady env ps lineage s c) : s.pager.content.pageCount ≤ s.nextPageId := by
  obtain ⟨cur, past, floor, -, settled, -⟩ := steady.settled
  rw [settled.content]
  exact Nat.le_trans settled.recorded.below settled.next

/-- A call that is not refused commits. -/
theorem calls {k : Nat} (steady : Steady env ps lineage s c) (deep : u32Max ≤ fuel)
    (sized : call.Sized) (fits : c.SplitsFit ps call) (spends : Spends k s (call.run env fuel s))
    (mutates : call.Mutates) (answer : c.answer call = .ok reply) :
    ∃ s', Advances env ps lineage s c call fuel reply s' ∧ s'.nextPageId ≤ s.nextPageId + k := by
  obtain ⟨⟨cur, past, floor, rfl, settled, holds⟩, -, rfl, works⟩ := steady
  have within := spends.within
  have outcome := settled.call_outcome holds (settled.shallow holds deep) sized fits within
  have faultless : ∀ s', ¬ Faulted env (callFrom env s floor) s' := by
    rintro s' ⟨k, late, -, fails⟩
    rw [works k late] at fails
    cases fails
  generalize run : call.run env fuel s = result at outcome within spends
  cases outcome with
  | io faulted failed => exact absurd faulted (faultless _)
  | half faulted => exact absurd faulted (faultless _)
  | refused refused failed => cases answer.symm.trans refused
  | replied looks => exact absurd mutates looks
  | @committed reply' n root s' mutates answer' grown small rows committed holds' =>
    obtain rfl := Except.ok.inj (answer.symm.trans answer')
    have settled' := settled.of_committed committed grown small within
    have size : s'.pager.pageSize = s.pager.pageSize :=
      (congrArg Pager.pageSize committed.pager).trans rfl
    have later : ∀ k, s'.disk.clock ≤ k → env.fault k = none :=
      fun k late => works k (Nat.le_trans committed.clock late)
    have steady' : Steady env _ _ s' _ := ⟨⟨_, _, n, rfl, settled', holds'⟩, spends.2, size, later⟩
    exact ⟨s', ⟨run, steady', rows, committed.caught, settled.pager_ne committed.pager⟩, spends.1⟩

/-- A row is inserted under a key that is not bound. -/
theorem insert (steady : Steady env ps lineage s c) (deep : u32Max ≤ fuel)
    (encodes : row.encode key = .ok encoded) (small : encoded.length ≤ u32Max)
    (fits : c.SplitsFit ps (.insert key row)) (absent : c.rows.lookup key = none)
    (room : s.nextPageId + ((overflowChunks ps encoded).length + (2 + (2 * c.height + 1))) ≤ u32Max) :
    ∃ s', Advances env ps lineage s c (.insert key row) fuel .done s' ∧
      s'.nextPageId ≤ s.nextPageId + ((overflowChunks ps encoded).length + (2 + (2 * c.height + 1))) := by
  have answer : c.answer (.insert key row) = .ok .done := by
    rw [Content.answer, absent, encodes]
    rfl
  obtain rfl : s.pager.pageSize = ps := steady.size
  have spends : Spends ((overflowChunks s.pager.pageSize encoded).length + (2 + (2 * c.height + 1))) s
    ((Call.insert key row).run env fuel s) := by
    have contains := steady.contains
    obtain ⟨cur, past, floor, -, settled, holds⟩ := steady.settled
    have shallow := settled.shallow holds deep
    cases c with
    | none =>
      have first : Spends _ s ((Call.insert key row).run env fuel s) :=
        insert_first_takes contains.root.symm steady.fresh encodes (by omega)
      exact first.weaken (by omega)
    | some t => exact insert_later_spends steady.works settled contains shallow steady.fresh encodes room
  exact steady.calls deep (Call.sized_of_encodes encodes small).1 fits spends trivial answer

/-- A lookup or a scan. -/
theorem looked (steady : Steady env ps lineage s c) (deep : u32Max ≤ fuel) (looks : ¬ call.Mutates) :
    ∃ s', Stays env ps lineage s c call fuel (c.answer call) s' ∧ s'.nextPageId = s.nextPageId := by
  obtain ⟨⟨cur, past, floor, rfl, settled, holds⟩, fresh, rfl, works⟩ := steady
  obtain ⟨n, -, during⟩ := settled.start
  obtain rfl : s.nextPageId = n := during.next
  have planted : c.Planted (callFrom env s floor).start.pager.pageSize
    (callFrom env s floor).base s.nextPageId
      (callFrom env s floor).start.pager.rootPageId :=
    settled.planted holds fun _ _ low below found => (if_pos ⟨low, below⟩).trans found
  have ends := planted.looked (E := fun _ => False) (settled.shallow holds deep) looks s during
  cases run : call.run env fuel s with
  | ok reply s' =>
    rw [run] at ends
    obtain ⟨answer, during'⟩ := ends
    -- no id was handed out
    obtain ⟨ext, trace, -, ids⟩ := during'.trace
    have fresh' : ¬ Exhausted s' := by
      rintro ⟨id, member, high⟩
      rw [trace, allocated_append, ids, show (callFrom env s floor).start = s from rfl, Nat.sub_self,
        List.range'_zero, List.append_nil] at member
      exact fresh ⟨id, member, high⟩
    have settled' := settled.of_failed ⟨_, during'⟩
    have size : s'.pager.pageSize = s.pager.pageSize := congrArg Pager.pageSize during'.pager
    have later : ∀ k, s'.disk.clock ≤ k → env.fault k = none :=
      fun k late => works k (Nat.le_trans during'.clock late)
    refine ⟨s', ⟨?_, ?_, ⟨⟨cur, past, _, rfl, settled', holds⟩, fresh', size, later⟩, during'.pager,
      during'.framed.slot⟩, during'.next⟩
    · rw [answer, run]
      rfl
    · rw [run]
      rfl
  | error e s' =>
    rw [run] at ends
    cases ends with
    | inl failed =>
      obtain ⟨k, late, -, fault⟩ := failed.2.1
      rw [works k late] at fault
      cases fault
    | inr none => exact none.1.elim

end Steady

/-- A file whose committed slot is there is opened, with any capacity. -/
theorem Recorded.reopens {cur : Snapshot} {past : List Snapshot} {slot : Fin 2}
    {floor capacity : Nat} {d : Disk} (recorded : Recorded env cur past none slot floor d.file)
    (holds : cur.Holds env c) (present : d.present = true) (works : ∀ k, d.clock ≤ k →
      env.fault k = none) (fresh : ¬ ∃ id ∈ allocated d.trace, u32Max ≤ id) (positive : 1 ≤ capacity) :
    ∃ s' d', Database.openWithCapacity env capacity d = .ok s' d' ∧
      Steady env cur.content.pageSize (cur :: past) s' c ∧
      s'.pager = cur.content.pager slot ∧ s'.nextPageId = cur.content.pageCount := by
  obtain ⟨s', d', run, pager⟩ :=
    openWithCapacity_works works present positive recorded.len recorded.chosen
  have opened := openWithCapacity_ok run
  have settled := recorded.opened_active opened (recorded.activeSlot opened)
  obtain ⟨n, rfl⟩ := opened.idle
  have disk : s'.disk = d.ticked n := opened.disk
  refine ⟨s', _, run, ⟨⟨cur, past, _, rfl, settled, holds⟩, ?_, settled.pageSize,
    fun k late => works k ?_⟩, pager, ?_⟩
  · rw [Exhausted, disk]
    exact fresh
  · rw [disk] at late
    exact Nat.le_trans (Nat.le_add_right _ n) late
  · rw [opened.next, pager]
    rfl

/-- It is dropped, and opened again with any capacity. -/
theorem Steady.reopened {capacity : Nat} (steady : Steady env ps lineage s c) (positive : 1 ≤ capacity) :
    ∃ s' d', Database.openWithCapacity env capacity s.disk = .ok s' d' ∧ Steady env ps lineage s' c ∧
      (∀ half, Session.opened s.disk s' lineage half = ⟨.running s', lineage, none,
        s.disk.trace.length⟩) ∧ s'.nextPageId ≤ s.nextPageId := by
  obtain ⟨⟨cur, past, floor, rfl, settled, holds⟩, fresh, size, works⟩ := steady
  obtain ⟨s', d', run, steady', -, next⟩ :=
    settled.recorded.reopens holds settled.present works fresh positive
  have count : s.pager.content.pageCount = s'.nextPageId := by rw [settled.content, next]
  have below : s.pager.content.pageCount ≤ s.nextPageId :=
    Steady.count_le ⟨⟨_, _, _, rfl, settled, holds⟩, fresh, size, works⟩
  rw [← settled.pageSize, size] at steady'
  exact ⟨s', d', run, steady', fun half => if_pos (congrArg some steady'.content.symm), count ▸ below⟩

theorem Created.fresh {capacity : Nat} {d : Disk} (created : Created env ps capacity d s)
    (blank : d.trace = []) : ¬ Exhausted s := by
  obtain ⟨slot, trace⟩ := created.trace
  rintro ⟨id, member, -⟩
  rw [trace, blank] at member
  simp [allocated] at member

/-- What the creation of a database leaves, if its I/O works. -/
theorem created_empty {capacity : Nat} (works : ∀ n, n < 4 → env.fault n = none)
    (positive : 1 ≤ capacity) :
    ∃ s, Database.createWithCapacity env ps capacity ⟨false, File.empty, 0, []⟩ = .ok s s.disk ∧
      Created env ps capacity ⟨false, File.empty, 0, []⟩ s ∧
        Snapshot.Holds env ⟨s.pager.content, s.disk.file⟩ none ∧
      ¬ Exhausted s ∧ s.pager.pageSize = ps ∧ s.disk.clock = 4 := by
  let d : Disk := ⟨false, File.empty, 0, []⟩
  have works : ∀ n, n < 4 → env.fault (d.clock + n) = none := by
    intro n early
    rw [show d.clock + n = n from Nat.zero_add n]
    exact works n early
  obtain ⟨s, run, pager⟩ : ∃ s, Database.createWithCapacity env ps capacity d = _ ∧ _ :=
    createWithCapacity_works works rfl positive
  obtain ⟨disk, created⟩ := createWithCapacity_ok run
  obtain ⟨c, holds, rfl⟩ := (created.filled (P := (· = none)) rfl).lineage _ List.mem_cons_self
  rw [← disk] at run
  exact ⟨s, run, created, holds, created.fresh rfl, by rw [pager]; rfl, by rw [disk]; rfl⟩

theorem Steady.created {capacity : Nat} (works : ∀ k, env.fault k = none) (positive : 1 ≤ capacity) :
    ∃ s, Database.createWithCapacity env ps capacity ⟨false, File.empty, 0, []⟩ = .ok s s.disk ∧
      Steady env ps [⟨s.pager.content, s.disk.file⟩] s none ∧ s.nextPageId = 2 := by
  obtain ⟨s, run, created, holds, fresh, size, -⟩ := created_empty (fun n _ => works n) positive
  exact ⟨s, run, ⟨⟨_, [], _, rfl, Settled.of_created created, holds⟩, fresh, size,
    fun k _ => works k⟩, created.next⟩

theorem Reachable.advances (before : Reachable env ⟨.running s, lineage, half, since⟩)
    (step : Advances env ps lineage s c call fuel reply s') :
    Reachable env ⟨.running s', ⟨s'.pager.content, s'.disk.file⟩ :: lineage, none, since⟩ := by
  have next :=
    before.call call fuel (by rw [step.run]; exact step.steady.fresh)
      (by rw [step.run]; exact step.caught)
  rwa [step.run, Hoare.final_ok, step.called] at next

theorem History.advances (before : History env guard ⟨.running s, lineage, half, since⟩ log)
    (step : Advances env ps lineage s c call fuel reply s') (allowed : guard call fuel s) :
    History env guard ⟨.running s', ⟨s'.pager.content, s'.disk.file⟩ :: lineage, none, since⟩
      (log ++ [call]) := by
  have next := before.call call fuel (by rw [step.run]; exact step.steady.fresh)
    (by rw [step.run]; exact step.caught) allowed
  rwa [step.run, Hoare.final_ok, step.called] at next

theorem Reachable.stays (before : Reachable env ⟨.running s, lineage, half, since⟩)
    (step : Stays env ps lineage s c call fuel answer s') :
    Reachable env ⟨.running s', lineage, half, since⟩ := by
  have next := before.call call fuel (by rw [step.left]; exact step.steady.fresh)
    (by rw [step.left]; exact step.caught)
  rwa [step.left, step.called] at next

/-- A new database of the page size `ps` after the calls of `log`, none of which met an I/O failure. -/
structure RanOn (env : Env) (guard : CallGuard) (ps : PageSize) (s : Database) (log : List Call)
    (c : Content) : Prop where
  history : ∃ cur past floor, History env guard ⟨.running s, cur :: past, none, 0⟩ log ∧
    Settled env cur past none floor s ∧ cur.Holds env c
  fresh : ¬ Exhausted s
  size : s.pager.pageSize = ps

theorem RanOn.created (profile : Profile) (xxh3 : Bytes → UInt64) (guard : CallGuard) (ps : PageSize)
    {capacity : Nat} (positive : 1 ≤ capacity) :
    ∃ s, Database.createWithCapacity (Env.faultless profile xxh3) ps capacity
      ⟨false, File.empty, 0, []⟩ = .ok s s.disk ∧
      RanOn (Env.faultless profile xxh3) guard ps s [] none ∧ s.nextPageId = 2 := by
  obtain ⟨s, run, created, holds, fresh, size, -⟩ :
    ∃ s, Database.createWithCapacity (Env.faultless profile xxh3) ps capacity _ = _ ∧ _ :=
    created_empty (fun _ _ => rfl) positive
  exact ⟨s, run, ⟨⟨_, [], _, .create rfl run, Settled.of_created created, holds⟩, fresh, size⟩,
    created.next⟩

theorem RanOn.contains {ps : PageSize} (ran : RanOn env guard ps s log c) : s.Contains env c := by
  obtain ⟨cur, past, floor, -, settled, holds⟩ := ran.history
  exact settled.contains holds

/-- A call that is not refused adds to the history, and commits. -/
theorem RanOn.calls {ps : PageSize} {k : Nat} {reply : Reply} (works : ∀ k, env.fault k = none)
    (ran : RanOn env guard ps s log c) (allowed : guard call fuel s)
    (fitting : fitting env call fuel s) (spends : Spends k s (call.run env fuel s))
    (mutates : call.Mutates) (answer : c.answer call = .ok reply) :
    ∃ s', call.run env fuel s = .ok reply s' ∧
      RanOn env guard ps s' (log ++ [call]) (c.after ps s.nextPageId call) ∧
      s'.nextPageId ≤ s.nextPageId + k := by
  have contains := ran.contains
  obtain ⟨cur, past, floor, history, settled, holds⟩ := ran.history
  obtain ⟨deep, sized, fits⟩ := fitting
  have steady : Steady env ps (cur :: past) s c :=
    ⟨⟨cur, past, floor, rfl, settled, holds⟩, ran.fresh, ran.size, fun k _ => works k⟩
  obtain ⟨s', step, next⟩ := steady.calls deep sized (ran.size ▸ fits c contains) spends mutates answer
  obtain ⟨cur', past', floor', same, settled', holds'⟩ := step.steady.settled
  have history' := history.advances step allowed
  rw [same] at history'
  exact ⟨s', step.run, ⟨⟨cur', past', floor', history', settled', holds'⟩, step.steady.fresh,
    step.steady.size⟩, next⟩

/-- The same for the default page size. -/
structure Ran (env : Env) (guard : CallGuard) (s : Database) (log : List Call) (c : Content) : Prop where
  history : ∃ cur past floor, History env guard ⟨.running s, cur :: past, none, 0⟩ log ∧
    Settled env cur past none floor s ∧ cur.Holds env c
  fresh : ¬ Exhausted s
  size : s.pager.pageSize = PageSize.default

theorem Ran.on (ran : Ran env guard s log c) : RanOn env guard PageSize.default s log c :=
  ⟨ran.history, ran.fresh, ran.size⟩
theorem RanOn.ran (ran : RanOn env guard PageSize.default s log c) : Ran env guard s log c :=
  ⟨ran.history, ran.fresh, ran.size⟩

theorem Ran.created (profile : Profile) (xxh3 : Bytes → UInt64) (guard : CallGuard) :
    ∃ s, Ran (Env.faultless profile xxh3) guard s [] none ∧ s.nextPageId = 2 := by
  obtain ⟨s, -, ran, next⟩ := RanOn.created profile xxh3 guard PageSize.default (show 1 ≤ 256 by decide)
  exact ⟨s, ran.ran, next⟩

theorem Ran.contains (ran : Ran env guard s log c) : s.Contains env c := ran.on.contains

theorem Ran.calls {k : Nat} {reply : Reply} (works : ∀ k, env.fault k = none)
    (ran : Ran env guard s log c) (allowed : guard call fuel s) (fitting : fitting env call fuel s)
    (spends : Spends k s (call.run env fuel s)) (mutates : call.Mutates)
    (answer : c.answer call = .ok reply) :
    ∃ s', call.run env fuel s = .ok reply s' ∧
      Ran env guard s' (log ++ [call]) (c.after PageSize.default s.nextPageId call) ∧
      s'.nextPageId ≤ s.nextPageId + k := by
  obtain ⟨s', run, ran', next⟩ := ran.on.calls works allowed fitting spends mutates answer
  exact ⟨s', run, ran'.ran, next⟩

end Pinax
