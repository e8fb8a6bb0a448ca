import Pinax.Verified.CopyOnWrite

/-! # Running out of page ids

`allocate_page_id` adds one to a `u32` without a check.  Until it finds `next_page_id` at `u32::MAX`
no id is handed out twice by a pool and no committed page is touched; then the next id it hands out
is `0`.
-/

namespace Pinax

open Hoare (final Ends)
open BufferPool (allocatePageId putNew commit)

variable {env : Env} {o : Origin} {v : Pages} {n id root : Nat} {s s' : BufferPool}
  {session : Session} {cur : Snapshot} {past : List Snapshot} {half : Option File}
  {floor fuel : Nat} {key : I64}

/-! ## The committed tree stays readable -/

/-- The content of every committed state is found from its root over the current file; the database
itself finds the one of the state it is in, unless an I/O call fails; and the database can be opened
again. -/
structure Session.Readable (env : Env) (session : Session) : Prop where
  walks : ∀ sn ∈ session.lineage, ∀ c, sn.Holds env c → ∀ call fuel capacity, ¬ call.Mutates →
    c.height < fuel → 1 ≤ capacity →
    sn.walk env capacity session.machine.disk.file call fuel = c.answer call
  looks : ∀ s cur past c, session.machine = .running s → session.lineage = cur :: past → cur.Holds env c →
    ∀ call fuel, ¬ call.Mutates → c.height < fuel → answerOf (call.run env fuel s) = c.answer call ∨
      ∃ s' k, call.run env fuel s = .error .io s' ∧ s.disk.clock ≤ k ∧ k < s'.disk.clock ∧
        (env.fault k).isSome = true
  opens : ∀ capacity, 1 ≤ capacity → (∀ k, session.machine.disk.clock ≤ k → env.fault k = none) →
    ∃ s d', Database.openWithCapacity env capacity session.machine.disk = .ok s d' ∧
      (session.lineage.head?.map Snapshot.content = some s.pager.content ∨ session.half.isSome = true)

/-- A lookup or a scan finds the committed content. -/
theorem Settled.looks {c : Content} {call : Call} (settled : Settled env cur past half floor s)
    (holds : cur.Holds env c) (looks : ¬ call.Mutates) (deep : c.height < fuel) :
    answerOf (call.run env fuel s) = c.answer call ∨
      ∃ s' k, call.run env fuel s = .error .io s' ∧ s.disk.clock ≤ k ∧ k < s'.disk.clock ∧
        (env.fault k).isSome = true := by
  obtain ⟨n, -, during⟩ := settled.start
  obtain rfl : s.nextPageId = n := during.next
  have planted := settled.planted holds (v := (callFrom env s floor).base) fun _ _ low below found =>
    (if_pos ⟨low, below⟩).trans found
  have looked :=
    Content.Planted.looked (o := callFrom env s floor) (E := fun _ => False) planted deep looks s during
  cases run : call.run env fuel s with
  | ok reply s' =>
    rw [run] at looked
    exact Or.inl looked.1.symm
  | error e s' =>
    rw [run] at looked
    cases looked with
    | inl failed =>
      obtain ⟨rfl, ⟨k, late, early, fails⟩, -⟩ := failed
      exact Or.inr ⟨s', k, rfl, late, early, fails⟩
    | inr none => exact none.1.elim

/-- One of the two slots can be taken. -/
theorem Recorded.chosen_some {slot : Fin 2} {file : File}
    (h : Recorded env cur past half slot floor file) :
    ∃ slot' content, file.chosen env = some (slot', content) := by
  by_cases newer : ∃ other, Pager.validSlot env (file.slot (1 - slot)) = some other ∧
    cur.content.txnId < other.txnId
  · obtain ⟨other, valid, newer⟩ := newer
    refine ⟨1 - slot, other, File.chosen_of_newest valid fun active same => ?_⟩
    rw [one_sub_one_sub, h.valid] at same
    rw [← Option.some.inj same]
    exact newer
  · refine ⟨slot, cur.content, File.chosen_of_newest h.valid fun other valid => ?_⟩
    cases h.spare other valid with
    | inl older => exact older
    | inr pending =>
      have := pending.txnId
      exact absurd ⟨other, valid, by omega⟩ newer

theorem Recorded.opens {slot : Fin 2} {d : Disk} {capacity : Nat}
    (h : Recorded env cur past half slot floor d.file) (present : d.present = true)
    (positive : 1 ≤ capacity) (works : ∀ k, d.clock ≤ k → env.fault k = none) :
    ∃ s d', Database.openWithCapacity env capacity d = .ok s d' ∧
      (cur.content = s.pager.content ∨ half.isSome = true) := by
  obtain ⟨slot', content, chosen⟩ := h.chosen_some
  obtain ⟨s, d', run, -⟩ := openWithCapacity_works works present positive h.len chosen
  have opened := openWithCapacity_ok run
  refine ⟨s, d', run, ?_⟩
  cases slot_cases slot s.pager.activeSlot with
  | inl same => exact Or.inl (h.opened_active opened same).content.symm
  | inr other =>
    obtain ⟨f, isHalf, -⟩ := (h.opened_spare opened other).kept
    rw [isHalf]
    exact Or.inr rfl

theorem Reachable.readable (h : Reachable env session) : session.Readable env := by
  obtain ⟨cur, past, same, good⟩ := h.good
  obtain ⟨sound, -⟩ := page_ids_sound h
  refine ⟨fun sn member c holds call fuel capacity looks deep positive => ?_, ?_,
    fun capacity positive works => ?_⟩
  · exact holds.walk (sound.kept sn member) looks deep positive
  · intro s cur' past' c running same' holds call fuel looks deep
    rw [running] at good
    obtain ⟨floor, settled⟩ := good
    obtain ⟨rfl, rfl⟩ := List.cons.inj (same.symm.trans same')
    exact settled.looks holds looks deep
  · simp only [same, List.head?_cons, Option.map_some, Option.some.injEq]
    cases machine : session.machine with
    | running s =>
      rw [machine] at good works
      obtain ⟨floor, settled⟩ := good
      exact settled.recorded.opens settled.present positive works
    | closed d =>
      rw [machine] at good works
      obtain ⟨present, slot, floor, recorded⟩ := good
      exact recorded.opens present positive works

/-- As long as no call of `allocate_page_id` finds `next_page_id` at `u32::MAX`, running out of page
ids damages nothing: the ids handed out and the page writes are sound, those of the next call, too,
and the committed tree stays readable. -/
theorem page_ids_never_damage (h : Reachable env session) :
    IdsSound session ∧ session.Readable env ∧ ∀ s, session.machine = .running s → ∀ call fuel,
      ¬ Exhausted (final (Call.run env fuel call s)) →
      NextIds session
        (allocated ((final (Call.run env fuel call s)).disk.trace.drop s.disk.trace.length)) := by
  obtain ⟨sound, next⟩ := page_ids_sound h
  exact ⟨sound, h.readable, next⟩

/-- The row without values is never spilled. -/
theorem emptyRow_short (ps : PageSize) : ([0, 0, 0, 0] : Bytes).length ≤ ps.maxLocal := by
  have sizes := ps.bounds
  simp only [PageSize.maxLocal, PageSize.usableSpace, checksumLen, List.length_cons, List.length_nil]
  omega

/-- The first insertion into a new database fails after it was handed out an id.  The database is
opened again, and inserts the row: the same id is handed out once more, past the committed pages,
and the row is found. -/
theorem page_ids_never_damage_reopened :
    let env := Env.failingAt .release (fun _ => 0) 4
    let one : I64 := ⟨1, by decide, by decide⟩
    ∃ s₀ s₁ s₂ s₃ d lineage since, answerOf ((Call.insert one ⟨[]⟩).run env u32Max s₀) = .error .io ∧
      final ((Call.insert one ⟨[]⟩).run env u32Max s₀) = s₁ ∧
        allocated (s₁.disk.trace.drop s₀.disk.trace.length) = [2] ∧
      Database.openWithCapacity env 9 s₁.disk = .ok s₂ d ∧
        Reachable env ⟨.running s₂, lineage, none, since⟩ ∧
      (Call.insert one ⟨[]⟩).run env u32Max s₂ = .ok .done s₃ ∧
        allocated (s₃.disk.trace.drop s₂.disk.trace.length) = [2] ∧
      NextIds ⟨.running s₂, lineage, none, since⟩ [2] ∧
      IdsSound ⟨.running s₃, ⟨s₃.pager.content, s₃.disk.file⟩ :: lineage, none, since⟩ ∧
      answerOf (Call.scan.run env u32Max s₃) = .ok (.rows [(one, ⟨[]⟩)]) := by
  intro env one
  have encodes : Row.encode ⟨[]⟩ one = .ok [0, 0, 0, 0] := rfl
  obtain ⟨s₀, s₁, create, fails, pager₀, next₀, next₁⟩ :=
    first_insert_fails .release (fun _ => 0) PageSize.default (Nat.le_refl 1) encodes (by decide) u32Max
  have root₀ : s₀.pager.rootPageId = emptyTreeRoot := by
    rw [pager₀]
    rfl
  have ids₁ : allocated ((final ((Call.insert one ⟨[]⟩).run env u32Max s₀)).disk.trace.drop
    s₀.disk.trace.length) = _ :=
    insert_first_allocates root₀ encodes (emptyRow_short _) (by rw [next₀]; decide) u32Max
  -- opening it finds the page count of the new database, so that id 2 is handed out again
  obtain ⟨s₂, d, opened, steady₂, session, -⟩ := fails.steady.reopened (show 1 ≤ 9 by decide)
  have next₂ : s₂.nextPageId = 2 := by
    have count : s₂.pager.pageCount = s₀.pager.pageCount := congrArg MetaContent.pageCount steady₂.content
    rw [(openWithCapacity_ok opened).next, count, pager₀]
    rfl
  have root₂ : s₂.pager.rootPageId = emptyTreeRoot := steady₂.contains.root.symm
  have ids₂ : allocated ((final ((Call.insert one ⟨[]⟩).run env u32Max s₂)).disk.trace.drop
    s₂.disk.trace.length) = _ :=
    insert_first_allocates root₂ encodes (emptyRow_short _) (by rw [next₂]; decide) u32Max
  obtain ⟨s₃, step₃, short₃, -⟩ :=
    steady₂.first_short (Nat.le_refl _) encodes (by decide) (by rw [next₂]; decide)
  have reachable₂ := ((Reachable.create rfl create).stays fails).drop.reopen opened
  rw [session none] at reachable₂
  have reachable₃ := reachable₂.advances step₃
  obtain ⟨-, -, next⟩ := page_ids_never_damage reachable₂
  have ids := next s₂ rfl (.insert one ⟨[]⟩) u32Max (by rw [step₃.run]; exact step₃.steady.fresh)
  obtain ⟨sound, readable, -⟩ := page_ids_never_damage reachable₃
  have rows₃ := step₃.rows
  have scanned : answerOf (Call.scan.run env u32Max s₃) = .ok (.rows [(one, ⟨[]⟩)]) := by
    cases readable.looks s₃ _ _ _ rfl rfl step₃.steady.holds .scan u32Max id
      (by rw [short₃.height]; decide) with
    | inl found =>
      rw [Content.answer, rows₃] at found
      exact found
    | inr failed =>
      obtain ⟨s', k, -, late, -, fault⟩ := failed
      rw [step₃.steady.works k late] at fault
      cases fault
  rw [fails.left, next₀] at ids₁
  rw [ids₂, next₂] at ids
  rw [step₃.run, next₂] at ids₂
  exact ⟨s₀, s₁, s₂, s₃, d, _, _, fails.answered, fails.left, ids₁, opened, reachable₂, step₃.run,
    ids₂, ids, sound, scanned⟩

/-! ## A disk that fails -/

/-- The I/O calls that create a database work, and no later one does; they store nothing. -/
def Env.failingFrom (profile : Profile) (xxh3 : Bytes → UInt64) (n : Nat) : Env where
  __ := Env.faultless profile xxh3
  fault := fun k => if k < n then none else some ⟨0, fun _ => false⟩

/-- No I/O call works from now on. -/
def Dead (env : Env) (d : Disk) : Prop := ∀ k, d.clock ≤ k → (env.fault k).isSome = true

theorem flushAllDirty_dead (dead : Dead env o.start.disk) (h : During env o v n s) :
    ∃ s', BufferPool.flushAllDirty env s = .error .io s' ∧ During env o v n s' := by
  obtain ⟨s', fails⟩ := flushAllDirty_fails h.sound (dead s.disk.clock h.clock)
  have flushed := flushAllDirty_ends h
  rw [fails] at flushed
  obtain ⟨-, -, during⟩ := flushed
  exact ⟨s', fails, during⟩

/-- A page that was just made is not committed. -/
theorem putCommit_dead (dead : Dead env o.start.disk) (h : During env o v n s)
    (may : o.writable id) {buf : Bytes} (len : buf.length = o.start.pager.pageSize.bytes) :
    ∃ e s', (putNew env id buf >>= fun _ => commit env id >>= fun _ => pure id : PoolM Nat) s =
      .error e s' ∧ Failed env o s' := by
  have put := putNew_ends h may len
  cases run : putNew env id buf s with
  | error e s' =>
    rw [run] at put
    exact ⟨e, s', Hoare.bind_error run, put.failed⟩
  | ok _ s₁ =>
    rw [run] at put
    obtain ⟨s', fails, during⟩ := flushAllDirty_dead dead put
    have failed : commit env id s₁ = .error .io s' := Hoare.bind_error fails
    rw [Hoare.bind_ok run, Hoare.bind_error failed]
    exact ⟨.io, s', rfl, during.failed⟩

/-! ## Inserting into an empty tree -/

/-- On a dead disk it fails. -/
theorem insert_first_dead {t : BufferPool} (dead : Dead env o.start.disk)
    (root : s.pager.rootPageId = emptyTreeRoot) (taken : allocatePageId env s = .ok id t)
    (h : During env o v n t) (may : o.writable id) (size : s.pager.pageSize = o.start.pager.pageSize)
    (fuel : Nat) (key : I64) :
    Failed env o (final ((Call.insert key ⟨[]⟩).run env fuel s)) := by
  obtain ⟨buf, len, run⟩ :=
    insert_first_eq env root (show Row.encode ⟨[]⟩ key = .ok [0, 0, 0, 0] from rfl)
      (emptyRow_short _) fuel
  rw [size] at len
  obtain ⟨e, s', fails, failed⟩ := putCommit_dead dead h may len
  rw [Hoare.bind_ok taken, fails] at run
  rw [run_insert, Hoare.bind_error run]
  exact failed

/-- The last id wraps the counter around. -/
def BufferPool.wrapped (s : BufferPool) : BufferPool :=
  { s with nextPageId := 0, disk := { s.disk with trace := s.disk.trace ++ [.alloc s.nextPageId] } }

theorem allocatePageId_wraps (release : env.profile = .release) (last : s.nextPageId = u32Max) :
    allocatePageId env s = .ok u32Max s.wrapped := by
  have recorded : onDisk (record (.alloc s.nextPageId)) s
      = .ok ⟨⟩ (s.over { s.disk with trace := s.disk.trace ++ [.alloc s.nextPageId] }) := rfl
  have wraps : addW env.profile 32 s.nextPageId 1 = .ok 0 := by
    rw [release, last]
    rfl
  rw [allocatePageId, Hoare.get_bind, Hoare.bind_ok recorded, wraps, liftM_ok, pure_bind,
    Hoare.modify_bind, ← last]
  rfl

/-! ## Four billion insertions -/

/-- A database that lives on a dead disk, and all of whose insertions failed. -/
structure Worn (env : Env) (s : Database) : Prop where
  reached : ∃ cur floor, Reachable env ⟨.running s, [cur], none, 0⟩ ∧ Settled env cur [] none floor s
  root : s.pager.rootPageId = emptyTreeRoot
  fresh : ¬ Exhausted s
  dead : Dead env s.disk

/-- A session goes on after a call that did not commit. -/
theorem Reachable.failed {call : Call} {lineage : List Snapshot} {since : Nat}
    (before : Reachable env ⟨.running s, lineage, half, since⟩)
    (failed : Failed env (callFrom env s floor) (final (call.run env fuel s)))
    (within : ¬ Exhausted (final (call.run env fuel s))) :
    Reachable env ⟨.running (final (call.run env fuel s)), lineage, half, since⟩ := by
  obtain ⟨m, during⟩ := failed
  have slots : ∀ slot, (final (call.run env fuel s)).disk.file.slot slot = s.disk.file.slot slot :=
    during.framed.slot
  have called := Reachable.call call fuel before within fun slot data _ => Or.inl (slots slot)
  have pager : (final (call.run env fuel s)).pager = s.pager := during.pager
  rw [Session.called, if_pos pager, if_pos (slots _)] at called
  exact called

theorem Worn.insert (worn : Worn env s) (fits : s.nextPageId < u32Max) (key : I64) :
    ∃ s', Worn env s' ∧ s'.nextPageId = s.nextPageId + 1 := by
  obtain ⟨cur, floor, reachable, settled⟩ := worn.reached
  obtain ⟨n, -, during⟩ := settled.start
  obtain rfl : s.nextPageId = n := during.next
  have taken := allocatePageId_room env fits
  have failed : Failed env (callFrom env s floor) (final ((Call.insert key ⟨[]⟩).run env u32Max s)) :=
    insert_first_dead worn.dead worn.root taken during.handedOut
      (settled.fresh s.nextPageId (Nat.le_refl _)) rfl u32Max key
  have ids := insert_first_ids worn.root (show Row.encode ⟨[]⟩ key = .ok [0, 0, 0, 0] from rfl)
    (emptyRow_short _) taken u32Max
  have within : ¬ Exhausted (final ((Call.insert key ⟨[]⟩).run env u32Max s)) :=
    ids.exhausted.not.mpr (handedOut_fresh fits worn.fresh)
  refine ⟨_, ⟨⟨cur, floor, reachable.failed failed within, settled.of_failed failed⟩, ?_, within,
    fun k late => ?_⟩, ids.1⟩
  · obtain ⟨m, after⟩ := failed
    rw [after.pager]
    exact worn.root
  · obtain ⟨m, after⟩ := failed
    exact worn.dead k (Nat.le_trans after.clock late)

theorem worn_created (xxh3 : Bytes → UInt64) :
    ∃ s, Worn (Env.failingFrom .release xxh3 4) s ∧ s.nextPageId = 2 := by
  let env := Env.failingFrom .release xxh3 4
  obtain ⟨s, run, -⟩ :
    ∃ s, Database.createWithCapacity env PageSize.default 256 ⟨false, File.empty, 0, []⟩ = _ ∧ _ :=
    createWithCapacity_works (fun n early => if_pos (by simp only; omega)) rfl (by decide)
  obtain ⟨disk, created⟩ := createWithCapacity_ok run
  have reachable : Reachable env (.created s) := .create rfl run
  refine ⟨s, ⟨⟨_, _, reachable, Settled.of_created created⟩, ?_, ?_, fun k late => ?_⟩, created.next⟩
  · rw [created.pager]
    rfl
  · exact created.fresh rfl
  · have clock : s.disk.clock = 4 := by
      rw [disk]
      rfl
    rw [clock] at late
    have later : ¬ k < 4 := by omega
    show (if k < 4 then none else some _ : Option Torn).isSome = true
    rw [if_neg later]
    rfl

/-- The counter reaches every id. -/
theorem worn_reaches (xxh3 : Bytes → UInt64) (key : I64) {k : Nat} (two : 2 ≤ k) (last : k ≤ u32Max) :
    ∃ s, Worn (Env.failingFrom .release xxh3 4) s ∧ s.nextPageId = k := by
  induction k, two using Nat.le_induction with
  | base => exact worn_created xxh3
  | succ k two ih =>
    obtain ⟨s, worn, next⟩ := ih (Nat.le_of_succ_le last)
    obtain ⟨s', worn', next'⟩ := worn.insert (by rw [next]; exact last) key
    exact ⟨s', worn', by rw [next', next]⟩

/-- After the last id the next one is the sentinel of the empty tree and of the end of a chain. -/
theorem page_ids_wrap :
    let env := Env.failingFrom .release (fun _ => 0) 4
    let insertOne := (Call.insert ⟨1, by decide, by decide⟩ ⟨[]⟩).run env u32Max
    ∃ session s, Reachable env session ∧ session.machine = .running s ∧
      allocated ((final (insertOne (final (insertOne s)))).disk.trace.drop s.disk.trace.length) =
        [u32Max, 0] := by
  intro env insertOne
  obtain ⟨s, worn, last⟩ :=
    worn_reaches (fun _ => 0) ⟨1, by decide, by decide⟩ (k := u32Max) (by decide) (Nat.le_refl _)
  obtain ⟨cur, floor, reachable, settled⟩ := worn.reached
  have sound : Sound env s.wrapped := { settled.sound with }
  have dirty : ∀ id ∈ s.wrapped.dirty, firstDataPageId ≤ id := by
    intro id member
    have := settled.dirty id member
    have := settled.recorded.below
    have := settled.recorded.two
    omega
  have wraps : allocatePageId env s = .ok u32Max s.wrapped := allocatePageId_wraps rfl last
  have during : During env (anyPage s.wrapped) (fun _ => none) 0 s.wrapped :=
    During.init sound rfl dirty (fun _ _ none => by cases none) (fun _ _ none => by cases none)
  obtain ⟨n, after⟩ : Failed env (anyPage s.wrapped) (final (insertOne s)) :=
    insert_first_dead worn.dead worn.root wraps during
      (show firstDataPageId ≤ u32Max by decide) rfl u32Max _
  have encodes : Row.encode ⟨[]⟩ ⟨1, by decide, by decide⟩ = .ok [0, 0, 0, 0] := rfl
  obtain ⟨next, -, ext, trace, none⟩ := insert_first_ids worn.root encodes (emptyRow_short _) wraps u32Max
  -- the tree is still empty, so that the next insertion makes a first page, too
  have root : (final (insertOne s)).pager.rootPageId = emptyTreeRoot := by
    rw [after.pager]
    exact worn.root
  have taken : allocatePageId env (final (insertOne s)) = .ok 0 (final (insertOne s)).handedOut := by
    have zero : (final (insertOne s)).nextPageId = 0 := next
    cases allocatePageId_apply env (final (insertOne s)) with
    | inl taken =>
      rw [zero] at taken
      exact taken.2
    | inr full =>
      rw [zero] at full
      exact absurd full.1 (by decide)
  obtain ⟨-, -, ext', trace', none'⟩ := insert_first_ids root encodes (emptyRow_short _) taken u32Max
  refine ⟨_, s, reachable, rfl, ?_⟩
  have whole : (final (insertOne (final (insertOne s)))).disk.trace
      = s.disk.trace ++ ([.alloc u32Max] ++ ext ++ [.alloc 0] ++ ext') := by
    rw [trace']
    show (final (insertOne s)).disk.trace ++ [.alloc (final (insertOne s)).nextPageId] ++ ext' = _
    rw [trace, next]
    show s.disk.trace ++ [.alloc s.nextPageId] ++ ext ++ [.alloc 0] ++ ext' = _
    rw [last]
    simp only [List.append_assoc]
  rw [whole, List.drop_left, allocated_append, allocated_append, allocated_append, none, none']
  rfl

end Pinax
