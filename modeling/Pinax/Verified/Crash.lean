import Pinax.Verified.FirstInsert

/-! # Crashes

`crashState` reads off a trace what a crash leaves behind: the file as it was at the last completed
sync, and the writes issued since, each of which may be lost, stored or torn, in any order.
Whatever survives, `open` finds the state before the call or the state after it.
-/

namespace Pinax

open Hoare (Ends final)

/-! ## What survives -/

/-- The file at the last completed sync, and the writes issued since. -/
def onEvent : File × List (Nat × Bytes) → Event → File × List (Nat × Bytes)
  | _, .sync file => (file, [])
  | (durable, writes), .write off data => (durable, writes ++ [(off, data)])
  | state, _ => state

def crashState (trace : List Event) : File × List (Nat × Bytes) := trace.foldl onEvent (File.empty, [])

/-- `file` may be what a crash after `trace` leaves: every byte is the durable one, or one of a write
that was not synced. -/
structure Survives (trace : List Event) (file : File) : Prop where
  grown : (crashState trace).1.len ≤ file.len
  byte : ∀ i, file.byte i = (crashState trace).1.byte i ∨ ∃ w ∈ (crashState trace).2,
    w.1 ≤ i ∧ i < w.1 + w.2.length ∧ file.byte i = w.2.getD (i - w.1) 0

/-- A meta slot that was being written is as it was, as it was to be, or fails its checksum. -/
def SurvivingSlotCaught (env : Env) (trace : List Event) (file : File) : Prop :=
  ∀ slot data, (Pager.slotOffset slot, data) ∈ (crashState trace).2 →
    file.slot slot = (crashState trace).1.slot slot ∨ file.slot slot = data ∨
      verifies env (file.slot slot) = false

theorem crashState_append (trace : List Event) (e : Event) :
    crashState (trace ++ [e]) = onEvent (crashState trace) e := by
  simp only [crashState, List.foldl_append, List.foldl_cons, List.foldl_nil]

/-! ## Sessions in which every operation succeeds -/

variable (env : Env)

/-- A database all of whose operations succeeded, with the states it descends from. -/
inductive Succeeded : Machine → List Snapshot → Prop
  | create {ps : PageSize} {capacity : Nat} {d d' : Disk} {s : Database} (blank : d.trace = [])
      (run : Database.createWithCapacity env ps capacity d = .ok s d') :
      Succeeded (.running s) [⟨s.pager.content, s.disk.file⟩]
  | read {s s' : Database} {lineage : List Snapshot} {c : Call} {fuel : Nat} {reply : Reply}
      (before : Succeeded (.running s) lineage) (reads : ¬ c.Mutates)
      (run : c.run env fuel s = .ok reply s')
      (within : ¬ Exhausted s') : Succeeded (.running s') lineage
  | mutate {s s' : Database} {lineage : List Snapshot} {c : Call} {fuel : Nat} {reply : Reply}
      (before : Succeeded (.running s) lineage) (mutates : c.Mutates)
      (run : c.run env fuel s = .ok reply s')
      (within : ¬ Exhausted s') : Succeeded (.running s') (⟨s'.pager.content, s'.disk.file⟩ :: lineage)
  | drop {s : Database} {lineage : List Snapshot} (before : Succeeded (.running s) lineage) :
      Succeeded (.closed s.disk) lineage
  | reopen {d d' : Disk} {s : Database} {lineage : List Snapshot} {capacity : Nat}
      (before : Succeeded (.closed d) lineage)
      (run : Database.openWithCapacity env capacity d = .ok s d') : Succeeded (.running s) lineage

/-- What a crash after `trace` would leave is recorded as the file itself is. -/
structure Durable (cur : Snapshot) (past : List Snapshot) (slot : Fin 2) (floor : Nat)
    (trace : List Event) :
    Prop where
  recorded : Recorded env cur past none slot floor (crashState trace).1
  writes : ∀ w ∈ (crashState trace).2, ∃ id, firstDataPageId ≤ id ∧ floor ≤ id ∧
    w.1 = Pager.fileOffset cur.content.pageSize id ∧ w.2.length = cur.content.pageSize.bytes

variable {env} {s s' : Database} {cur : Snapshot} {past : List Snapshot} {floor : Nat} {slot : Fin 2}
  {trace : List Event}

/-! ## Steps of successful calls -/

theorem Recorded.lower {file : File} (h : Recorded env cur past none slot floor file) :
    Recorded env cur past none slot cur.content.pageCount file :=
  { h with below := Nat.le_refl _, spare := fun _ valid => Or.inl (h.older valid) }

theorem Settled.read_ok (h : Settled env cur past none floor s) {c : Call} {fuel : Nat} {reply : Reply}
    (reads : ¬ c.Mutates) (run : c.run env fuel s = .ok reply s') (within : ¬ Exhausted s') :
    Failed env (callFrom env s floor) s' := by
  have ends := call_ends h.fresh c fuel h.start (by rw [run]; exact within)
  rw [run] at ends
  exact ((if_neg reads).mp ends : Past env _ s.nextPageId s').failed

theorem Settled.mutate_ok (h : Settled env cur past none floor s) {c : Call} {fuel : Nat} {reply : Reply}
    (mutates : c.Mutates) (run : c.run env fuel s = .ok reply s') (within : ¬ Exhausted s') :
    Changed env (callFrom env s floor) (s.nextPageId + 1) s' := by
  have ends := call_ends h.fresh c fuel h.start (by rw [run]; exact within)
  rw [run] at ends
  exact (if_pos mutates).mp ends

/-- What is pending after an event of a call that has not committed. -/
theorem Durable.event (h : Durable env cur past slot floor trace)
    (settled : Settled env cur past none floor s) (active : s.pager.activeSlot = slot) {e : Event}
    (data : DataEvent (callFrom env s floor) e) :
    Durable env cur past slot floor (trace ++ [e]) := by
  have pageSize := settled.pageSize
  rw [← active] at h ⊢
  cases e with
  | alloc id =>
    exact ⟨by rw [crashState_append]; exact h.recorded, by rw [crashState_append]; exact h.writes⟩
  | pageWrite id count =>
    exact ⟨by rw [crashState_append]; exact h.recorded, by rw [crashState_append]; exact h.writes⟩
  | write off bytes =>
    refine ⟨by rw [crashState_append]; exact h.recorded, ?_⟩
    rw [crashState_append]
    intro w member
    rcases List.mem_append.mp member with old | new
    · exact h.writes w old
    · obtain ⟨id, may, at', len⟩ := data
      rw [List.mem_singleton.mp new, ← pageSize]
      exact ⟨id, may.1, may.2, at', len⟩
  | sync file =>
    have framed : Framed s.pager.pageSize _ s.disk.file file := data
    refine ⟨?_, ?_⟩
    · rw [crashState_append]
      exact settled.recorded.framed (pageSize ▸ framed) fun id may => may.2
    · rw [crashState_append]
      exact fun w member => absurd member List.not_mem_nil

theorem Durable.events (settled : Settled env cur past none floor s) (active : s.pager.activeSlot = slot)
    {ext : List Event} (data : ∀ e ∈ ext, DataEvent (callFrom env s floor) e)
    (h : Durable env cur past slot floor trace) : Durable env cur past slot floor (trace ++ ext) := by
  induction ext generalizing trace with
  | nil => rw [List.append_nil]; exact h
  | cons e ext ih =>
    have next := h.event settled active (data e List.mem_cons_self)
    have rest := ih (fun e' member => data e' (List.mem_cons_of_mem _ member)) next
    rwa [List.append_assoc, List.singleton_append] at rest

/-- The invariant of the sessions in which every operation succeeds. -/
theorem Succeeded.durable {m : Machine} {lineage : List Snapshot} (h : Succeeded env m lineage) :
    ∃ cur past floor, lineage = cur :: past ∧
      match m with
      | .running s => Settled env cur past none floor s ∧
          Durable env cur past s.pager.activeSlot floor s.disk.trace
      | .closed d => ∃ slot, d.present = true ∧ Recorded env cur past none slot floor d.file ∧
          Durable env cur past slot floor d.trace := by
  induction h with
  | create blank run =>
    -- the file was synced last, so no write is pending
    obtain ⟨-, created⟩ := createWithCapacity_ok run
    have settled := Settled.of_created created
    refine ⟨_, [], firstDataPageId, rfl, settled, ?_, ?_⟩ <;> obtain ⟨slot, trace⟩ := created.trace <;>
      rw [trace, blank]
    · exact settled.recorded
    · exact fun w member => absurd member List.not_mem_nil
  | read _ reads run within ih =>
    obtain ⟨cur, past, floor, rfl, settled, durable⟩ := ih
    obtain ⟨n, during⟩ := settled.read_ok reads run within
    -- a lookup may write what it evicts, above the pages of the committed state
    obtain ⟨ext, trace, events, -⟩ := during.trace
    refine ⟨cur, past, floor, rfl, settled.of_failed ⟨n, during⟩, ?_⟩
    rw [during.pager, trace]
    exact Durable.events settled rfl events durable
  | mutate _ mutates run within ih =>
    obtain ⟨cur, past, floor, rfl, settled, -⟩ := ih
    obtain ⟨n, root, grown, small, -, committed⟩ := settled.mutate_ok mutates run within
    have next := settled.of_committed committed grown small within
    -- a commit ends with a sync, after which again nothing is pending
    obtain ⟨flushed, ext, -, -, trace, -⟩ := committed.file
    refine ⟨_, _, n, rfl, next, ?_, ?_⟩ <;>
      rw [trace, crashState, List.foldl_append] <;> simp only [List.foldl_cons, List.foldl_nil, onEvent]
    · exact next.recorded
    · exact fun w member => absurd member List.not_mem_nil
  | drop _ ih =>
    obtain ⟨cur, past, floor, same, settled, durable⟩ := ih
    exact ⟨cur, past, floor, same, _, settled.present, settled.recorded, durable⟩
  | reopen _ run ih =>
    obtain ⟨cur, past, floor, same, slot, present, recorded, durable⟩ := ih
    -- an opening writes nothing; the floor falls to the page count it read
    have opened := openWithCapacity_ok run
    have active := recorded.activeSlot opened
    refine ⟨cur, past, _, same, recorded.opened_active opened active, ?_⟩
    obtain ⟨n, idle⟩ := opened.idle
    rw [active, opened.disk, idle]
    refine ⟨durable.recorded.lower, fun w member => ?_⟩
    obtain ⟨id, two, high, at', len⟩ := durable.writes w member
    have := recorded.below
    exact ⟨id, two, by omega, at', len⟩

/-! ## Recovering -/

/-- The writes of a call that has not reached its commit leave what is recorded, whatever survives. -/
theorem Durable.survives {file : File} (h : Durable env cur past slot floor trace)
    (survives : Survives trace file) : Recorded env cur past none slot floor file := by
  let writable : Nat → Prop := fun id => floor ≤ id
  refine Recorded.framed h.recorded (⟨survives.grown, fun i outside => ?_⟩ : Framed _ writable _ _)
    fun _ high => high
  rcases survives.byte i with same | ⟨w, member, low, high, -⟩
  · exact same
  · obtain ⟨id, -, above, at', len⟩ := h.writes w member
    have := outside id above
    omega

/-- `open` succeeds on a recorded file, with the committed state. -/
theorem Recorded.openFile {d : Disk} (h : Recorded env cur past none slot floor d.file)
    (works : ∀ k, d.clock ≤ k → env.fault k = none) (present : d.present = true) :
    ∃ d', Pager.openFile env d = .ok (cur.content.pager slot) d' := by
  obtain ⟨n, run⟩ := openFile_works works present h.len
    (File.chosen_of_newest h.valid fun other valid => h.older valid)
  exact ⟨_, run⟩

/-- `open` returned the state that `s` committed last: its meta content, and its data pages. -/
structure Recovers (s : Database) (pager : Pager) (file : File) : Prop where
  content : pager.content = s.pager.content
  pages : ∀ id, firstDataPageId ≤ id → id < s.pager.pageCount →
    file.read (Pager.fileOffset s.pager.pageSize id) s.pager.pageSize.bytes =
      s.disk.file.read (Pager.fileOffset s.pager.pageSize id) s.pager.pageSize.bytes

theorem Recovers.of_kept {file : File} (settled : Settled env cur past none floor s)
    (kept : cur.Kept file) (slot : Fin 2) : Recovers s (cur.content.pager slot) file where
  content := settled.content.symm
  pages := fun id low lt => by
    have count : s.pager.pageCount = cur.content.pageCount :=
      congrArg MetaContent.pageCount settled.content
    have here := settled.recorded.kept cur List.mem_cons_self
    rw [count] at lt
    rw [settled.pageSize, kept.read low lt, here.read low lt]

/-- A call that did not commit recovers as the state before it. -/
theorem Recovers.unchanged {pager : Pager} {file : File} (h : Recovers s pager file)
    (before : Settled env cur past none floor s) (after : Settled env cur past none floor s')
    (same : s'.pager = s.pager) : Recovers s' pager file where
  content := by rw [same]; exact h.content
  pages := fun id low lt => by
    have count : s.pager.pageCount = cur.content.pageCount :=
      congrArg MetaContent.pageCount before.content
    rw [same] at lt ⊢
    rw [h.pages id low lt]
    rw [count] at lt
    rw [before.pageSize, (after.recorded.kept cur List.mem_cons_self).read low lt,
      (before.recorded.kept cur List.mem_cons_self).read low lt]

theorem prefix_append_cases {α : Type} {p l r : List α} (h : p <+: l ++ r) :
    p <+: l ∨ ∃ q, p = l ++ q ∧ q <+: r := by
  rcases Nat.le_total p.length l.length with short | long
  · exact Or.inl (List.prefix_of_prefix_length_le h (List.prefix_append l r) short)
  · obtain ⟨q, rfl⟩ := List.prefix_of_prefix_length_le (List.prefix_append l r) h long
    exact Or.inr ⟨q, rfl, (List.prefix_append_right_inj l).mp h⟩

/-- A crash before the meta slot is written recovers the state before the call. -/
theorem Settled.recovers_before (settled : Settled env cur past none floor s)
    (durable : Durable env cur past s.pager.activeSlot floor trace) {d : Disk}
    (present : d.present = true) (survives : Survives trace d.file)
    (works : ∀ k, d.clock ≤ k → env.fault k = none) :
    ∃ pager d', Pager.openFile env d = .ok pager d' ∧ Recovers s pager d.file := by
  have recorded := durable.survives survives
  obtain ⟨d', run⟩ := recorded.openFile works present
  exact ⟨_, d', run, Recovers.of_kept settled (recorded.kept cur List.mem_cons_self) _⟩

/-- After a completed sync with nothing written since, every byte survives. -/
theorem survives_synced {file file' : File} {writable : Nat → Prop} {ps : PageSize}
    (survives : Survives (trace ++ [.sync file]) file') : Framed ps writable file file' := by
  have state : crashState (trace ++ [.sync file]) = (file, []) := by rw [crashState_append]; rfl
  refine ⟨by have := survives.grown; rwa [state] at this, fun i _ => ?_⟩
  rcases survives.byte i with same | ⟨w, member, -⟩
  · rwa [state] at same
  · rw [state] at member
    exact absurd member List.not_mem_nil

/-- A crash while the meta slot is being written recovers the state before the call or the one after
it. -/
theorem Settled.recovers_writing (settled : Settled env cur past none floor s) {n root : Nat}
    (committed : Committed env (callFrom env s floor) (callFrom env s floor).base n root s')
    (grown : s.nextPageId + 1 ≤ n) (small : root < 4294967296) (within : ¬ Exhausted s') {flushed : File}
    (framed : Framed s.pager.pageSize (callFrom env s floor).writable s.disk.file flushed)
    (file : s'.disk.file = flushed.write (Pager.slotOffset s.pager.spare) (metaSlot env s'.pager.content))
    {d : Disk} (present : d.present = true) (works : ∀ k, d.clock ≤ k → env.fault k = none)
    (survives : Survives (trace ++ [.sync flushed,
      .write (Pager.slotOffset s.pager.spare) (metaSlot env s'.pager.content)]) d.file)
    (caught : SurvivingSlotCaught env (trace ++ [.sync flushed,
      .write (Pager.slotOffset s.pager.spare) (metaSlot env s'.pager.content)]) d.file) :
    ∃ pager d', Pager.openFile env d = .ok pager d' ∧
      (Recovers s pager d.file ∨ Recovers s' pager d.file) := by
  have state : crashState (trace ++ [.sync flushed,
      .write (Pager.slotOffset s.pager.spare) (metaSlot env s'.pager.content)])
      = (flushed, [(Pager.slotOffset s.pager.spare, metaSlot env s'.pager.content)]) := by
    rw [crashState, List.foldl_append]
    rfl
  have sized : (metaSlot env s'.pager.content).length = metaSlotLen := length_metaSlot _
  have inside : Pager.slotOffset s.pager.spare + (metaSlot env s'.pager.content).length ≤
    metaRegionLen := by
    rw [sized]; exact slotOffset_bound _
  -- only the bytes of the spare slot are in doubt
  have outside : ∀ i, i < Pager.slotOffset s.pager.spare ∨
    Pager.slotOffset s.pager.spare + metaSlotLen ≤ i →
      d.file.byte i = flushed.byte i := by
    intro i apart
    rcases survives.byte i with same | ⟨w, member, low, high, -⟩
    · rwa [state] at same
    · rw [state, List.mem_singleton] at member
      subst member
      simp only [sized] at low high
      omega
  have longer : flushed.len ≤ d.file.len := by
    have := survives.grown
    rwa [state] at this
  have same : ∀ ps count, SameBelow ps count flushed d.file := fun ps count =>
    ⟨longer, fun i low _ => outside i (by rw [sized] at inside; omega)⟩
  have active : d.file.slot s.pager.activeSlot = flushed.slot s.pager.activeSlot := by
    unfold File.slot
    refine File.read_congr fun i bound => outside _ ?_
    have apart := slotOffset_apart s.pager.activeSlot
    simp only [Pager.spare]
    omega
  have before := settled.recorded.framed (settled.pageSize ▸ framed) fun id may => may.2
  have kept : ∀ sn ∈ cur :: past, sn.Kept d.file :=
    fun sn member => (before.kept sn member).trans (same _ _)
  have spare := caught s.pager.spare (metaSlot env s'.pager.content) (by
    rw [state]; exact List.mem_singleton_self _)
  rw [state] at spare
  -- the spare slot holds nothing newer unless all of it was written
  have unchanged : (∀ other, Pager.validSlot env (d.file.slot (1 - s.pager.activeSlot)) = some other →
      other.txnId < cur.content.txnId) → ∃ pager d', Pager.openFile env d = .ok pager d' ∧
      (Recovers s pager d.file ∨ Recovers s' pager d.file) := by
    intro older
    have recorded : Recorded env cur past none s.pager.activeSlot floor d.file :=
      { before with
        len := Nat.le_trans before.len longer
        active := active.trans before.active
        kept := kept
        spare := fun other valid => Or.inl (older other valid) }
    obtain ⟨d', run⟩ := recorded.openFile works present
    exact ⟨_, d', run, Or.inl (Recovers.of_kept settled (kept cur List.mem_cons_self) _)⟩
  rcases spare with old | new | invalid
  · refine unchanged fun other valid => ?_
    have old : d.file.slot (1 - s.pager.activeSlot) = flushed.slot (1 - s.pager.activeSlot) := old
    rw [old] at valid
    exact before.older valid
  · have after := settled.of_committed committed grown small within
    have slot : s'.pager.activeSlot = s.pager.spare := by rw [committed.pager]; rfl
    have flushedKept : SameBelow s'.pager.content.pageSize s'.pager.content.pageCount flushed
      s'.disk.file := by
      rw [file]; exact SameBelow.store_meta inside
    have valid : Pager.validSlot env (d.file.slot s'.pager.activeSlot) = some s'.pager.content := by
      rw [slot, new]
      exact validSlot_metaSlot after.recorded.fits
    have long := before.len
    obtain ⟨m, run⟩ :=
      openFile_works works present (by omega) (File.chosen_of_newest valid fun other old => by
      rw [slot] at old
      have position : 1 - s.pager.spare = s.pager.activeSlot := one_sub_one_sub _
      rw [position, active, before.valid, Option.some.injEq] at old
      rw [← old, committed.pager]
      show _ < (s.pager.committed root n).content.txnId
      rw [settled.committed_content]
      exact Nat.lt_succ_self _)
    refine ⟨_, _, run, Or.inr ⟨rfl, fun id low lt => ?_⟩⟩
    rw [(same s'.pager.pageSize s'.pager.pageCount).read low lt]
    exact (flushedKept.read low lt).symm
  · refine unchanged fun other valid => ?_
    have invalid : verifies env (d.file.slot (1 - s.pager.activeSlot)) = false := invalid
    rw [Pager.validSlot, invalid] at valid
    cases valid

/-- Crash atomicity: wherever a call of a database is cut short, and whatever survives of its writes,
`open` finds the state before the call or the state after it, and the latter if the call returned. -/
theorem crash_atomic {lineage : List Snapshot} (run : Succeeded env (.running s) lineage)
    (c : Call) (fuel : Nat) (within : ¬ Exhausted (final (c.run env fuel s))) {crash : List Event}
    (started : s.disk.trace <+: crash) (point : crash <+: (final (c.run env fuel s)).disk.trace)
    {d : Disk} (present : d.present = true) (survives : Survives crash d.file)
    (caught : SurvivingSlotCaught env crash d.file)
    (works : ∀ k, s.disk.clock ≤ k → env.fault k = none) (later : s.disk.clock ≤ d.clock) :
    ∃ pager d', Pager.openFile env d = .ok pager d' ∧
      (Recovers s pager d.file ∨
        ∃ reply s', c.run env fuel s = .ok reply s' ∧ Recovers s' pager d.file) ∧
      (∀ reply s', c.run env fuel s = .ok reply s' → crash = s'.disk.trace →
        Recovers s' pager d.file) := by
  obtain ⟨cur, past, floor, -, settled, durable⟩ := run.durable
  have opening : ∀ k, d.clock ≤ k → env.fault k = none := fun k low => works k (Nat.le_trans later low)
  obtain ⟨p, rfl⟩ := started
  have cases := settled.call_cases c fuel within
  -- a crash in the data writes
  have early : ∀ {ext : List Event}, (∀ e ∈ ext, DataEvent (callFrom env s floor) e) → p <+: ext →
      ∃ pager d', Pager.openFile env d = .ok pager d' ∧ Recovers s pager d.file := by
    intro ext events inExt
    exact settled.recovers_before (Durable.events settled rfl
      (fun e member => events e (inExt.subset member)) durable)
      present survives opening
  rcases cases with failed | ⟨⟨reply, ok⟩, n, root, grown, small, -, committed⟩ | ⟨⟨k, low, -, fails⟩, -⟩
  · have unchanged : Settled env cur past none floor _ := settled.of_failed failed
    obtain ⟨n, during⟩ := failed
    obtain ⟨ext, trace, events, -⟩ := during.trace
    have trace : _ = s.disk.trace ++ ext := trace
    rw [trace] at point
    obtain ⟨pager, d', opened, recovers⟩ := early events ((List.prefix_append_right_inj _).mp point)
    refine ⟨pager, d', opened, Or.inl recovers, fun reply s' ok _ => ?_⟩
    rw [ok, Hoare.final_ok] at unchanged during
    exact recovers.unchanged settled unchanged during.pager
  · generalize hs : final (c.run env fuel s) = s' at *
    obtain ⟨flushed, ext, framed, file, trace, events, -⟩ := committed.file
    have trace : s'.disk.trace = s.disk.trace ++ (ext ++ [.sync flushed,
        .write (Pager.slotOffset s.pager.spare) (metaSlot env s'.pager.content),
          .sync s'.disk.file]) := by
      rw [← List.append_assoc]; exact trace
    have after := settled.of_committed committed grown small within
    rw [trace, List.prefix_append_right_inj] at point
    -- after the last sync nothing but the new state can be found
    have last : p = ext ++ [.sync flushed,
      .write (Pager.slotOffset s.pager.spare) (metaSlot env s'.pager.content),
        .sync s'.disk.file] → ∃ pager d', Pager.openFile env d = .ok pager d' ∧
          Recovers s' pager d.file := by
      rintro rfl
      have split : s.disk.trace ++ (ext ++ [.sync flushed, .write (Pager.slotOffset s.pager.spare)
          (metaSlot env s'.pager.content), .sync s'.disk.file]) = (s.disk.trace ++ ext ++ [.sync flushed,
          .write (Pager.slotOffset s.pager.spare) (metaSlot env s'.pager.content)]) ++
            [.sync s'.disk.file] := by
        simp only [List.append_assoc, List.cons_append, List.nil_append]
      rw [split] at survives
      have recorded := after.recorded.framed (survives_synced survives) fun id (may : n ≤ id) => may
      obtain ⟨d', opened⟩ := recorded.openFile opening present
      exact ⟨_, d', opened, Recovers.of_kept after (recorded.kept _ List.mem_cons_self) _⟩
    have complete : ∀ {pager : Pager}, p ≠ ext ++ [.sync flushed,
        .write (Pager.slotOffset s.pager.spare) (metaSlot env s'.pager.content), .sync s'.disk.file] →
        ∀ reply s'', c.run env fuel s = .ok reply s'' → s.disk.trace ++ p = s''.disk.trace →
          Recovers s'' pager d.file := by
      intro pager short reply s'' ok' same
      rw [ok'] at hs
      obtain rfl : s'' = s' := hs
      rw [trace, List.append_cancel_left_eq] at same
      exact absurd same short
    rcases prefix_append_cases point with inExt | ⟨q, rfl, inTail⟩
    · obtain ⟨pager, d', opened, recovers⟩ := early events inExt
      refine ⟨pager, d', opened, Or.inl recovers, complete ?_⟩
      rintro rfl
      have := inExt.length_le
      simp only [List.length_append, List.length_cons, List.length_nil] at this
      omega
    · match q, inTail with
      | [], _ =>
        obtain ⟨pager, d', opened, recovers⟩ := early events (by rw [List.append_nil])
        refine ⟨pager, d', opened, Or.inl recovers, complete fun same => ?_⟩
        exact absurd (congrArg List.length same) (by simp)
      | [e], inTail =>
        obtain ⟨-, rfl⟩ : True ∧ e = .sync flushed := by
          simpa using inTail
        have flushedEvent : DataEvent (callFrom env s floor) (.sync flushed) := framed
        obtain ⟨pager, d', opened, recovers⟩ := settled.recovers_before
          (Durable.events settled rfl (fun e member => by
            rcases List.mem_append.mp member with data | last
            · exact events e data
            · rw [List.mem_singleton.mp last]; exact flushedEvent) durable) present survives opening
        refine ⟨pager, d', opened, Or.inl recovers, complete fun same => ?_⟩
        exact absurd (congrArg List.length same) (by simp)
      | [e, e'], inTail =>
        obtain ⟨rfl, rfl⟩ : e = .sync flushed ∧
            e' = .write (Pager.slotOffset s.pager.spare) (metaSlot env s'.pager.content) := by
          simpa using inTail
        rw [← List.append_assoc] at survives caught
        obtain ⟨pager, d', opened, recovers⟩ :=
          settled.recovers_writing committed grown small within framed file
          present opening survives caught
        refine ⟨pager, d', opened, recovers.imp_right fun recovers => ⟨reply, s', ok, recovers⟩,
          complete fun same => ?_⟩
        exact absurd (congrArg List.length same) (by simp)
      | e :: e' :: e'' :: rest, inTail =>
        obtain ⟨rfl, rfl, rfl, rfl⟩ : e = .sync flushed ∧
            e' = .write (Pager.slotOffset s.pager.spare) (metaSlot env s'.pager.content) ∧
            e'' = .sync s'.disk.file ∧ rest = [] := by
          simpa using inTail
        obtain ⟨pager, d', opened, recovers⟩ := last rfl
        refine ⟨pager, d', opened, Or.inr ⟨reply, s', ok, recovers⟩, fun reply s'' ok' _ => ?_⟩
        rw [ok'] at hs
        obtain rfl : s'' = s' := hs
        exact recovers
  · rw [works k low] at fails
    cases fails

theorem File.slice_read (f : File) {off n at' m : Nat} (inside : at' + m ≤ n) :
    slice (f.read off n) at' m = f.read (off + at') m := by
  apply List.ext_getElem?
  intro i
  rw [Slice.getElem?_slice, getElem?_read, getElem?_read]
  by_cases below : i < m
  · rw [if_pos below, if_pos below, if_pos (by omega), Nat.add_assoc]
  · rw [if_neg below, if_neg below]

theorem storedChecksum_of_slice {buf : Bytes} {v : Nat} (len : buf.length = metaSlotLen)
    (bytes : slice buf 4088 8 = toBe 8 v) (range : v < 18446744073709551616) :
    storedChecksum buf = v := by
  have read : readU64 buf 4088 = .ok v := readU64_of_slice (by rw [len]; decide) bytes range
  have start : metaSlotLen - checksumLen = 4088 := rfl
  rw [storedChecksum, len, start, read]

/-- A meta slot is stored over zeroes, but for its checksum. -/
theorem slot_torn {file : File} {slot : Fin 2} (data : Bytes)
    (zero : file.slot slot = List.replicate metaSlotLen 0) :
    storedChecksum ((file.store (Pager.slotOffset slot) data ⟨4088, fun _ => true⟩).slot slot) = 0 := by
  let torn := file.store (Pager.slotOffset slot) data ⟨4088, fun _ => true⟩
  have kept : slice (torn.slot slot) 4088 8 = slice (file.slot slot) 4088 8 := by
    unfold File.slot
    rw [File.slice_read torn (by decide), File.slice_read file (by decide)]
    refine File.read_congr fun i _ => if_neg ?_
    show ¬ (_ ∧ _ < Pager.slotOffset slot + min 4088 data.length ∧ _)
    omega
  refine storedChecksum_of_slice ?_ ?_ (by decide)
  · unfold File.slot
    rw [File.length_read]
  · rw [kept, zero, slice, List.drop_replicate, List.take_replicate]
    decide

/-- A crash while the first insertion writes its meta slot, which is stored without its checksum:
the empty tree is found. -/
theorem crash_atomic_torn_slot :
    let env := Env.faultless .dev fun _ => 1
    let call := Call.insert ⟨1, by decide, by decide⟩ ⟨[]⟩
    ∃ s s' crash flushed slot d pager d',
      Database.createWithCapacity env PageSize.default 1 ⟨false, File.empty, 0, []⟩ = .ok s s.disk ∧
      call.run env u32Max s = .ok .done s' ∧ s.disk.trace <+: crash ∧ crash <+: s'.disk.trace ∧
      crashState crash = (flushed, [(Pager.slotOffset 1, slot)]) ∧ slot.length = metaSlotLen ∧
      d.file = flushed.store (Pager.slotOffset 1) slot ⟨4088, fun _ => true⟩ ∧
      Pager.openFile env d = .ok pager d' ∧ Recovers s pager d.file := by
  intro env call
  have encodes : Row.encode ⟨[]⟩ ⟨1, by decide, by decide⟩ = .ok [0, 0, 0, 0] := rfl
  obtain ⟨s, create, steady, next⟩ : ∃ s, _ ∧ Steady env PageSize.default _ s none ∧ _ :=
    Steady.created (fun _ => rfl) (Nat.le_refl 1)
  obtain ⟨-, created⟩ := createWithCapacity_ok create
  obtain ⟨s', step, -⟩ := steady.first_short (Nat.le_refl _) encodes (by decide) (by rw [next]; decide)
  obtain ⟨⟨cur, past, floor, -, settled, -⟩, -⟩ := steady
  have within : ¬ Exhausted s' := step.steady.fresh
  obtain ⟨n, root, grown, small, -, committed⟩ :=
    settled.mutate_ok (show call.Mutates from trivial) step.run within
  obtain ⟨flushed, ext, framed, file, trace, -⟩ := committed.file
  have spare : s.pager.spare = 1 := by
    rw [created.pager]
    rfl
  let slot := metaSlot env s'.pager.content
  let crash := s.disk.trace ++ ext ++ [.sync flushed, .write (Pager.slotOffset s.pager.spare) slot]
  have whole : s'.disk.trace = crash ++ [.sync s'.disk.file] := by
    have trace : s'.disk.trace = s.disk.trace ++ ext ++
      [.sync flushed, .write (Pager.slotOffset s.pager.spare) slot, .sync s'.disk.file] := trace
    rw [trace, List.append_assoc (s.disk.trace ++ ext)]
    rfl
  have state : crashState crash = (flushed, [(Pager.slotOffset s.pager.spare, slot)]) := by
    rw [crashState, List.foldl_append]
    rfl
  have sized : slot.length = metaSlotLen := length_metaSlot _
  -- what is stored of the slot fails its checksum, which is 0 and should be 1
  let torn := flushed.store (Pager.slotOffset s.pager.spare) slot ⟨4088, fun _ => true⟩
  have old : ∀ slot', flushed.slot slot' = s.disk.file.slot slot' := framed.slot
  have caught : verifies env (torn.slot s.pager.spare) = false := by
    have zero : flushed.slot s.pager.spare = List.replicate metaSlotLen 0 := by
      rw [old, spare, created.zero]
    rw [verifies, slot_torn slot zero]
    rfl
  let d : Disk := ⟨true, torn, s'.disk.clock, []⟩
  have survives : Survives crash d.file := by
    refine ⟨by rw [state]; exact File.len_le_store _ _ _ _, fun i => ?_⟩
    rw [state]
    by_cases stored : Pager.slotOffset s.pager.spare ≤ i ∧
      i < Pager.slotOffset s.pager.spare + min 4088 slot.length ∧ true = true
    · have below : i < Pager.slotOffset s.pager.spare + slot.length := by omega
      exact Or.inr ⟨_, List.mem_singleton_self _, stored.1, below, if_pos stored⟩
    · exact Or.inl (if_neg stored)
  have slotCaught : SurvivingSlotCaught env crash d.file := by
    intro slot' data member
    rw [state] at member
    obtain ⟨offset, -⟩ := Prod.mk.inj (List.mem_singleton.mp member)
    obtain rfl := slotOffset_inj offset
    exact Or.inr (Or.inr caught)
  have started : s.disk.trace <+: crash := ⟨_, (List.append_assoc _ _ _).symm⟩
  have point : crash <+: (final (call.run env u32Max s)).disk.trace := by
    rw [step.run, Hoare.final_ok, whole]
    exact List.prefix_append _ _
  obtain ⟨pager, d', opened, recovers, -⟩ :=
    crash_atomic (.create rfl create) call u32Max (by rw [step.run]; exact within) started point
    (d := d) rfl survives slotCaught (fun _ _ => rfl) committed.clock
  have before : Recovers s pager d.file := by
    apply recovers.resolve_right
    intro done
    obtain ⟨reply, s'', run, after⟩ := done
    obtain ⟨-, rfl⟩ := EStateM.Result.ok.inj (step.run.symm.trans run)
    -- the slot of the new state is not taken, and the other one holds the old state
    have content := after.content
    rcases openFile_cases env d with ⟨slot', content', m, run', -, -, chosen⟩ | ⟨e, m, run', -⟩
    · obtain ⟨rfl, -⟩ := EStateM.Result.ok.inj (opened.symm.trans run')
      obtain ⟨valid, -⟩ := File.valid_of_chosen chosen
      cases slot_cases s.pager.activeSlot slot' with
      | inl active =>
        have kept : d.file.slot s.pager.activeSlot = s.disk.file.slot s.pager.activeSlot :=
          (slot_store_other sized).trans (old _)
        rw [active, kept, settled.recorded.valid, Option.some.injEq, ← settled.content] at valid
        have same : s'.pager.content = s.pager.content := content.symm.trans valid.symm
        rw [committed.pager] at same
        have txn := congrArg MetaContent.txnId (same.symm.trans (settled.committed_content root n))
        rw [settled.content] at txn
        exact absurd txn (Nat.ne_of_lt (Nat.lt_succ_self _))
      | inr other =>
        rw [other, Pager.validSlot] at valid
        have caught : verifies env (d.file.slot (1 - s.pager.activeSlot)) = false := caught
        rw [caught] at valid
        cases valid
    · cases opened.symm.trans run'
  rw [spare] at state
  exact ⟨s, s', crash, flushed, slot, d, pager, d', create, step.run, started, ⟨_, whole.symm⟩, state,
    sized, by rw [← spare], opened, before⟩

end Pinax
