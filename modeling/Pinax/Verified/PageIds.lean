import Pinax.Verified.Lineage

/-! # Page ids

Page ids are handed out in order and never taken back.  As long as `next_page_id` stays below
`u32::MAX`, every id handed out is past all pages of all committed states, so no page write touches
them.
-/

namespace Pinax

open Hoare (final)

/-- What is true of the trace: ids are proper data page ids, those handed out since the database was
opened are increasing, and pages are written past the committed ones. -/
structure IdsSound (session : Session) : Prop where
  proper : ∀ id ∈ allocated session.machine.disk.trace, firstDataPageId ≤ id ∧ id < u32Max
  increasing : (allocated (session.machine.disk.trace.drop session.since)).Pairwise (· < ·)
  writes : ∀ id count, Event.pageWrite id count ∈ session.machine.disk.trace →
    firstDataPageId ≤ id ∧ count ≤ id
  counts : session.lineage.Pairwise fun newer older => older.content.pageCount < newer.content.pageCount
  bounds : ∀ sn ∈ session.lineage, firstDataPageId ≤ sn.content.pageCount ∧ sn.content.pageCount ≤ u32Max
  kept : ∀ sn ∈ session.lineage, sn.Kept session.machine.disk.file

/-- The ids a call hands out next: larger than those handed out since the database was opened, and past
every committed page. -/
structure NextIds (session : Session) (ids : List Nat) : Prop where
  increasing : ids.Pairwise (· < ·)
  proper : ∀ id ∈ ids, firstDataPageId ≤ id
  fresh : ∀ id ∈ ids, ∀ old ∈ allocated (session.machine.disk.trace.drop session.since), old < id
  past : ∀ id ∈ ids, ∀ sn ∈ session.lineage, sn.content.pageCount ≤ id

variable {env : Env} {s : Database} {session : Session} {cur : Snapshot} {past : List Snapshot}
  {half : Option File} {floor : Nat}

/-- The ids handed out since the database was opened run up to `next_page_id`. -/
def HandedOut (session : Session) (s : Database) : Prop :=
  session.since ≤ s.disk.trace.length ∧ ∃ first, firstDataPageId ≤ first ∧ first ≤ s.nextPageId ∧
    allocated (s.disk.trace.drop session.since) = List.range' first (s.nextPageId - first)

theorem called_machine (s s' : Database) (lineage : List Snapshot) (half : Option File) (since : Nat) :
    (Session.called s s' lineage half since).machine = .running s' ∧
      (Session.called s s' lineage half since).since = since := by
  unfold Session.called
  split <;> exact ⟨rfl, rfl⟩

theorem opened_machine (d : Disk) (s : Database) (lineage : List Snapshot) (half : Option File) :
    (Session.opened d s lineage half).machine = .running s ∧
      (Session.opened d s lineage half).since = d.trace.length := by
  unfold Session.opened
  split <;> exact ⟨rfl, rfl⟩

theorem HandedOut.step {session session' : Session} {s' : Database} (before : HandedOut session s)
    (since : session'.since = session.since) {ext : List Event}
    (trace : s'.disk.trace = s.disk.trace ++ ext) (grown : s.nextPageId ≤ s'.nextPageId)
    (ids : allocated ext = List.range' s.nextPageId (s'.nextPageId - s.nextPageId)) :
    HandedOut session' s' := by
  obtain ⟨inside, first, two, low, handed⟩ := before
  refine ⟨by rw [since, trace, List.length_append]; omega, first, two, by omega, ?_⟩
  rw [since, trace, List.drop_append_of_le_length inside, allocated_append, handed, ids,
    range'_append_range' low grown]

theorem Reachable.handedOut (h : Reachable env session) :
    match session.machine with
    | .running s => HandedOut session s
    | .closed d => ∃ first n, allocated (d.trace.drop session.since) = List.range' first n := by
  induction h with
  | create blank run =>
    obtain ⟨-, created⟩ := createWithCapacity_ok run
    obtain ⟨slot, trace⟩ := created.trace
    refine ⟨Nat.zero_le _, firstDataPageId, Nat.le_refl _, Nat.le_of_eq created.next.symm, ?_⟩
    rw [trace, blank, created.next]
    rfl
  | @call s lineage half since c fuel before within caught ih =>
    obtain ⟨cur, past, rfl, floor, settled⟩ := before.good
    obtain ⟨ext, trace, -, grown, ids⟩ := settled.call_trace c fuel within
    obtain ⟨machine, kept⟩ := called_machine s (final (c.run env fuel s)) (cur :: past) half since
    rw [machine]
    -- a call hands out the ids from the next one on
    exact HandedOut.step ih kept trace grown ids
  | drop _ ih =>
    obtain ⟨-, first, -, -, ids⟩ := ih
    exact ⟨first, _, ids⟩
  | @reopen d d' s lineage half since capacity before run _ =>
    obtain ⟨machine, kept⟩ := opened_machine d s lineage half
    obtain ⟨cur, past, rfl, present, slot, floor, recorded⟩ := before.good
    have opened := openWithCapacity_ok run
    obtain ⟨n, idle⟩ := opened.idle
    have trace : s.disk.trace = d.trace := by rw [opened.disk, idle]; rfl
    rw [machine]
    show HandedOut _ s
    -- no id was handed out since the opening
    refine ⟨by rw [kept, trace], s.nextPageId, ?_, Nat.le_refl _, ?_⟩
    · obtain ⟨cur', past', -, settled⟩ := recorded.opened opened
      rw [machine] at settled
      obtain ⟨floor, settled⟩ := settled
      have := settled.recorded.two
      have := settled.recorded.below
      have := settled.next
      omega
    · rw [kept, trace, List.drop_length, Nat.sub_self]
      rfl
  | refused _ run ih =>
    obtain ⟨n, rfl⟩ := openWithCapacity_error run
    exact ih

/-- What is true of the whole trace, when a call adds to it. -/
theorem Settled.trace_sound (h : Settled env cur past half floor s) (c : Call) (fuel : Nat)
    (within : ¬ Exhausted (final (c.run env fuel s)))
    (proper : ∀ id ∈ allocated s.disk.trace, firstDataPageId ≤ id ∧ id < u32Max)
    (writes : ∀ id count, Event.pageWrite id count ∈ s.disk.trace → firstDataPageId ≤ id ∧ count ≤ id) :
    (∀ id ∈ allocated (final (c.run env fuel s)).disk.trace, firstDataPageId ≤ id ∧ id < u32Max) ∧
      ∀ id count, Event.pageWrite id count ∈ (final (c.run env fuel s)).disk.trace →
        firstDataPageId ≤ id ∧ count ≤ id := by
  obtain ⟨ext, trace, events, grown, ids⟩ := h.call_trace c fuel within
  have two := h.recorded.two
  have below := h.recorded.below
  have next := h.next
  refine ⟨fun id member => ⟨?_, ?_⟩, fun id count member => ?_⟩
  · rw [trace, allocated_append, ids] at member
    rcases List.mem_append.mp member with old | new
    · exact (proper id old).1
    · have := (List.mem_range'_1.mp new).1
      omega
  · by_contra large
    exact within ⟨id, member, Nat.le_of_not_lt large⟩
  · rw [trace] at member
    rcases List.mem_append.mp member with old | new
    · exact writes id count old
    · obtain ⟨low, high, rfl⟩ := events _ new
      have same : s.pager.pageCount = cur.content.pageCount := congrArg MetaContent.pageCount h.content
      exact ⟨low, by omega⟩

theorem Reachable.trace_sound (h : Reachable env session) :
    (∀ id ∈ allocated session.machine.disk.trace, firstDataPageId ≤ id ∧ id < u32Max) ∧
      ∀ id count, Event.pageWrite id count ∈ session.machine.disk.trace → firstDataPageId ≤ id ∧
        count ≤ id := by
  induction h with
  | @create ps capacity d d' s blank run =>
    obtain ⟨-, created⟩ := createWithCapacity_ok run
    obtain ⟨slot, trace⟩ := created.trace
    have whole : (Session.created s).machine.disk.trace = [.write 0 slot, .sync s.disk.file] := by
      show s.disk.trace = _
      rw [trace, blank]
      rfl
    rw [whole]
    refine ⟨fun id member => absurd member (by simp [allocated]), fun id count member => ?_⟩
    simp at member
  | @call s lineage half since c fuel before within caught ih =>
    obtain ⟨cur, past, rfl, floor, settled⟩ := before.good
    rw [(called_machine _ _ _ _ _).1]
    exact settled.trace_sound c fuel within ih.1 ih.2
  | drop _ ih => exact ih
  | @reopen d d' s lineage half since capacity before run ih =>
    have opened := openWithCapacity_ok run
    obtain ⟨n, idle⟩ := opened.idle
    have trace : s.disk.trace = d.trace := by rw [opened.disk, idle]; rfl
    rw [(opened_machine _ _ _ _).1]
    show (∀ id ∈ allocated s.disk.trace, _) ∧ ∀ id count, _ ∈ s.disk.trace → _
    rw [trace]
    exact ih
  | refused _ run ih =>
    obtain ⟨n, rfl⟩ := openWithCapacity_error run
    exact ih

/-- Every state of the lineage is still in the file. -/
theorem Reachable.recorded (h : Reachable env session) :
    ∃ cur past slot floor, session.lineage = cur :: past ∧
      Recorded env cur past session.half slot floor session.machine.disk.file := by
  obtain ⟨cur, past, same, good⟩ := h.good
  cases machine : session.machine with
  | running s =>
    rw [machine] at good
    obtain ⟨floor, settled⟩ := good
    exact ⟨cur, past, _, floor, same, settled.recorded⟩
  | closed d =>
    rw [machine] at good
    obtain ⟨-, slot, floor, recorded⟩ := good
    exact ⟨cur, past, slot, floor, same, recorded⟩

/-- Page counts only grow, up to the largest `u32`. -/
theorem Recorded.bounds {slot : Fin 2} {file : File} (h : Recorded env cur past half slot floor file)
    (two : ∀ sn ∈ cur :: past, firstDataPageId ≤ sn.content.pageCount) :
    ∀ sn ∈ cur :: past, firstDataPageId ≤ sn.content.pageCount ∧ sn.content.pageCount ≤ u32Max := by
  intro sn member
  have := h.count_le member
  have := h.fits.pageCount
  exact ⟨two sn member, by simp only [u32Max]; omega⟩

theorem Reachable.two (h : Reachable env session) :
    ∀ sn ∈ session.lineage, firstDataPageId ≤ sn.content.pageCount := by
  induction h with
  | create blank run =>
    obtain ⟨-, created⟩ := createWithCapacity_ok run
    intro sn member
    rw [List.mem_singleton.mp member]
    exact (Settled.of_created created).recorded.two
  | @call s lineage half since c fuel before within caught ih =>
    -- a call adds one state at most, and that is a settled one
    have after := (Reachable.call c fuel before within caught).good
    obtain ⟨cur, past, same, good⟩ := after
    rw [(called_machine _ _ _ _ _).1] at good
    obtain ⟨floor, settled⟩ := good
    unfold Session.called at same ⊢
    split at same
    next unchanged => rw [if_pos unchanged]; exact ih
    next changed =>
      rw [if_neg changed]
      injection same with head tail
      intro sn member
      rcases List.mem_cons.mp member with rfl | older
      · rw [head]; exact settled.recorded.two
      · exact ih sn older
  | drop _ ih => exact ih
  | @reopen d d' s lineage half since capacity before run ih =>
    -- an opening may take the state of a half commit, which is settled too
    have after := (Reachable.reopen before run).good
    obtain ⟨cur, past, same, good⟩ := after
    rw [(opened_machine _ _ _ _).1] at good
    obtain ⟨floor, settled⟩ := good
    unfold Session.opened at same ⊢
    split at same
    next unchanged => rw [if_pos unchanged]; exact ih
    next changed =>
      rw [if_neg changed]
      injection same with head tail
      intro sn member
      rcases List.mem_cons.mp member with rfl | older
      · rw [head]; exact settled.recorded.two
      · exact ih sn older
  | refused _ _ ih => exact ih

/-- As long as no call of `allocate_page_id` finds `next_page_id` at `u32::MAX`: every id handed out
is a data page id, larger than those handed out before it since the database was opened, and past
every page of every committed state; page counts grow strictly; and no page write touches a
committed page. -/
theorem page_ids_sound (h : Reachable env session) :
    IdsSound session ∧ ∀ s, session.machine = .running s →
      ∀ c fuel, ¬ Exhausted (final (Call.run env fuel c s)) →
      NextIds session
        (allocated ((final (Call.run env fuel c s)).disk.trace.drop s.disk.trace.length)) := by
  obtain ⟨cur, past, slot, floor, same, recorded⟩ := h.recorded
  have traced := h.trace_sound
  have two := h.two
  refine ⟨⟨traced.1, ?_, traced.2, ?_, ?_, ?_⟩, fun s running c fuel within => ?_⟩
  -- the ids since the database was opened are consecutive
  · have handed := h.handedOut
    cases machine : session.machine with
    | running s =>
      rw [machine] at handed
      obtain ⟨-, first, -, -, ids⟩ := handed
      show (allocated (s.disk.trace.drop session.since)).Pairwise _
      rw [ids]
      exact List.pairwise_lt_range'
    | closed d =>
      rw [machine] at handed
      obtain ⟨first, n, ids⟩ := handed
      show (allocated (d.trace.drop session.since)).Pairwise _
      rw [ids]
      exact List.pairwise_lt_range'
  · rw [same]; exact recorded.ordered
  · rw [same] at two ⊢
    exact recorded.bounds two
  · rw [same]; exact recorded.kept
  -- the next ids follow those, past the pages of every committed state
  · obtain ⟨cur, past, same, good⟩ := h.good
    have handed := h.handedOut
    rw [running] at good handed
    obtain ⟨floor, settled⟩ := good
    obtain ⟨-, first, -, upTo, ids⟩ := handed
    obtain ⟨ext, trace, -, -, new⟩ := settled.call_trace c fuel within
    have low := settled.recorded.two
    have below := settled.recorded.below
    have next := settled.next
    rw [trace, List.drop_left, new]
    refine ⟨List.pairwise_lt_range', fun id member => ?_, fun id member old handed => ?_,
      fun id member sn older => ?_⟩
    · have := (List.mem_range'_1.mp member).1
      omega
    · rw [running] at handed
      have handed : old ∈ allocated (s.disk.trace.drop session.since) := handed
      rw [ids] at handed
      have := (List.mem_range'_1.mp handed).2
      have := (List.mem_range'_1.mp member).1
      omega
    · rw [same] at older
      have := settled.recorded.count_le older
      have := (List.mem_range'_1.mp member).1
      omega

end Pinax
