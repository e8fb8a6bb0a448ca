import Pinax.Verified.Session

/-! # Sessions and the states they descend from -/

namespace Pinax

open Hoare (final)

inductive Machine
  | running (s : Database)
  | closed (d : Disk)

def Machine.disk : Machine → Disk
  | .running s => s.disk
  | .closed d => d

/-- A database, open or not, with the states it descends from, newest first.  `half` is the file as it
was when the spare meta slot was last written by a commit that then failed, and `since` the length of
the trace when the database was last opened. -/
structure Session where
  machine : Machine
  lineage : List Snapshot
  half : Option File
  since : Nat

namespace Session

/-- A database that was just created. -/
def created (s : Database) : Session := ⟨.running s, [⟨s.pager.content, s.disk.file⟩], none, 0⟩

/-- A call that took `s` to `s'`: the pager changes exactly when a commit returns `Ok`. -/
def called (s s' : Database) (lineage : List Snapshot) (half : Option File) (since : Nat) : Session :=
  if s'.pager = s.pager then
    { machine := .running s'
      since
      lineage
      half := if s'.disk.file.slot s.pager.spare = s.disk.file.slot s.pager.spare then half
        else some s'.disk.file }
  else
    { machine := .running s'
      since
      lineage := ⟨s'.pager.content, s'.disk.file⟩ :: lineage
      half := none }

/-- `open` found either the state that was last committed, or the one of a commit that had failed. -/
def opened (d : Disk) (s : Database) (lineage : List Snapshot) (half : Option File) : Session :=
  if lineage.head?.map Snapshot.content = some s.pager.content then
    ⟨.running s, lineage, none, d.trace.length⟩
  else ⟨.running s, ⟨s.pager.content, half.getD d.file⟩ :: lineage, none, d.trace.length⟩

end Session

variable (env : Env)

/-- The sessions in which the page ids were never exhausted and every torn meta slot was caught. -/
inductive Reachable : Session → Prop
  | create {ps : PageSize} {capacity : Nat} {d d' : Disk} {s : Database} (blank : d.trace = [])
      (run : Database.createWithCapacity env ps capacity d = .ok s d') : Reachable (.created s)
  | call {s : Database} {lineage : List Snapshot} {half : Option File} {since : Nat}
      (c : Call) (fuel : Nat)
      (before : Reachable ⟨.running s, lineage, half, since⟩)
      (within : ¬ Exhausted (final (c.run env fuel s)))
      (caught : TornSlotCaught env s.disk (final (c.run env fuel s)).disk) :
      Reachable (.called s (final (c.run env fuel s)) lineage half since)
  | drop {s : Database} {lineage : List Snapshot} {half : Option File} {since : Nat}
      (before : Reachable ⟨.running s, lineage, half, since⟩) :
      Reachable ⟨.closed s.disk, lineage, half, since⟩
  | reopen {d d' : Disk} {s : Database} {lineage : List Snapshot} {half : Option File}
      {since capacity : Nat}
      (before : Reachable ⟨.closed d, lineage, half, since⟩)
      (run : Database.openWithCapacity env capacity d = .ok s d') : Reachable (.opened d s lineage half)
  | refused {d d' : Disk} {e : Stop} {lineage : List Snapshot} {half : Option File} {since capacity : Nat}
      (before : Reachable ⟨.closed d, lineage, half, since⟩)
      (run : Database.openWithCapacity env capacity d = .error e d') :
      Reachable ⟨.closed d', lineage, half, since⟩

/-- What is true of every reachable session. -/
def Session.Good (session : Session) : Prop :=
  ∃ cur past, session.lineage = cur :: past ∧
    match session.machine with
    | .running s => ∃ floor, Settled env cur past session.half floor s
    | .closed d => d.present = true ∧ ∃ slot floor, Recorded env cur past session.half slot floor d.file

variable {env} {s s' : Database} {cur : Snapshot} {past : List Snapshot}
  {half : Option File} {floor : Nat}

theorem Settled.of_created {ps : PageSize} {capacity : Nat} {d : Disk} (h : Created env ps capacity d s) :
    Settled env ⟨s.pager.content, s.disk.file⟩ [] none firstDataPageId s := by
  have content : s.pager.content = MetaContent.initial ps := by rw [h.pager]; rfl
  have slot : s.pager.activeSlot = 0 := by rw [h.pager]; rfl
  have fits : (MetaContent.initial ps).Fits := MetaContent.initial_fits ps
  refine ⟨h.sound, h.present, rfl, ?_, by rw [h.next], ?_, ?_, ?_, ?_, ?_, ?_, ?_, ?_, ?_, ?_⟩
  · intro id dirty
    rw [h.dirty] at dirty
    exact absurd dirty (Finset.notMem_empty id)
  · rw [h.len]
  · rw [slot, h.slot, content]
  · rw [content]; exact fits
  · rw [content]; exact Nat.le_refl _
  · rw [content]; exact Nat.le_refl _
  · rw [content]; exact Nat.le_refl _
  · intro sn member
    rw [List.mem_singleton.mp member]
    exact SameBelow.refl _ _ _
  · intro sn member
    exact absurd member List.not_mem_nil
  · exact List.pairwise_singleton _ _
  · intro other valid
    rw [slot] at valid
    cases h.spare.symm.trans valid

/-- After a call the session is as `Session.called` says. -/
theorem Settled.called (h : Settled env cur past half floor s) (c : Call) (fuel : Nat)
    (within : ¬ Exhausted (final (c.run env fuel s)))
    (caught : TornSlotCaught env s.disk (final (c.run env fuel s)).disk) (since : Nat) :
    (Session.called s (final (c.run env fuel s)) (cur :: past) half since).Good env := by
  have cases := h.call_cases c fuel within
  generalize final (c.run env fuel s) = s' at *
  rcases cases with failed | ⟨-, n, root, grown, small, -, committed⟩ |
    ⟨-, n, root, grown, small, committed⟩
  · obtain ⟨m, during⟩ := failed
    have pager : s'.pager = s.pager := during.pager
    have slots : s'.disk.file.slot s.pager.spare = s.disk.file.slot s.pager.spare := during.framed.slot _
    rw [Session.called, if_pos pager, if_pos slots]
    exact ⟨cur, past, rfl, floor, h.of_failed ⟨m, during⟩⟩
  · have changed := h.pager_ne committed.pager
    rw [Session.called, if_neg changed]
    exact ⟨_, _, rfl, n, h.of_committed committed grown small within⟩
  · have pager : s'.pager = s.pager := committed.pager
    rw [Session.called, if_pos pager]
    exact ⟨cur, past, rfl, n, h.of_half committed grown small within caught⟩

theorem Recorded.valid {slot : Fin 2} {file : File} (h : Recorded env cur past half slot floor file) :
    Pager.validSlot env (file.slot slot) = some cur.content := by
  rw [h.active]
  exact validSlot_metaSlot h.fits

theorem slot_cases (slot slot' : Fin 2) : slot' = slot ∨ slot' = 1 - slot := by
  match slot, slot' with
  | 0, 0 => exact Or.inl rfl
  | 0, 1 => exact Or.inr rfl
  | 1, 0 => exact Or.inr rfl
  | 1, 1 => exact Or.inl rfl

/-- A database over a file that nobody has written yet is settled as soon as its slots are recorded. -/
theorem Opened.settled {d d' : Disk} {capacity : Nat} (run : Opened env d capacity s d')
    (content : s.pager.content = cur.content)
    (recorded : Recorded env cur past none s.pager.activeSlot cur.content.pageCount d.file) :
    Settled env cur past none cur.content.pageCount s := by
  obtain ⟨n, rfl⟩ := run.idle
  refine ⟨run.sound, by rw [run.disk]; exact run.present, content, ?_, ?_, ?_⟩
  · intro id dirty
    rw [run.dirty] at dirty
    exact absurd dirty (Finset.notMem_empty id)
  · rw [run.next, ← content]
    exact Nat.le_refl _
  · rw [run.disk]
    exact recorded

/-- `open` takes the committed slot. -/
theorem Recorded.opened_active {slot : Fin 2} {d d' : Disk} {capacity : Nat}
    (h : Recorded env cur past half slot floor d.file) (run : Opened env d capacity s d')
    (same : s.pager.activeSlot = slot) : Settled env cur past none cur.content.pageCount s := by
  obtain ⟨valid, newest⟩ := File.valid_of_chosen run.chosen
  have content : s.pager.content = cur.content := by
    rw [same, h.valid, Option.some.injEq] at valid
    exact valid.symm
  refine run.settled content ?_
  rw [same]
  refine { h with below := Nat.le_refl _, spare := fun spare validSpare => Or.inl ?_ }
  have notNewer := newest spare (by rw [same]; exact validSpare)
  rw [content] at notNewer
  rcases h.spare spare validSpare with older | pending
  · exact older
  · have := pending.txnId
    omega

/-- `open` takes the spare slot: it holds a pending state. -/
theorem Recorded.opened_spare {slot : Fin 2} {d d' : Disk} {capacity : Nat}
    (h : Recorded env cur past half slot floor d.file) (run : Opened env d capacity s d')
    (other : s.pager.activeSlot = 1 - slot) :
    Pending env cur half (d.file.slot (1 - slot)) floor d.file s.pager.content := by
  obtain ⟨valid, newest⟩ := File.valid_of_chosen run.chosen
  have notNewer := newest cur.content (by rw [other, one_sub_one_sub]; exact h.valid)
  rw [other] at valid
  rcases h.spare _ valid with older | pending
  · omega
  · exact pending

/-- `open` finds the committed state or the pending one. -/
theorem Recorded.opened {slot : Fin 2} {d d' : Disk} {capacity : Nat}
    (h : Recorded env cur past half slot floor d.file) (run : Opened env d capacity s d') :
    (Session.opened d s (cur :: past) half).Good env := by
  rcases slot_cases slot s.pager.activeSlot with same | other
  -- the slot that was active is taken again
  · have settled := h.opened_active run same
    rw [Session.opened, if_pos (by rw [settled.content]; rfl)]
    exact ⟨cur, past, rfl, _, settled⟩
  -- the slot of the half commit is taken, so its state is the newest of the lineage
  · have pending := h.opened_spare run other
    obtain ⟨f, recorded, kept⟩ := pending.kept
    have txn := pending.txnId
    have grown := pending.grown
    have two := h.two
    have successor := h.txnId
    have different : s.pager.content ≠ cur.content := by
      intro same
      rw [same] at txn
      omega
    rw [Session.opened,
      if_neg (by rw [List.head?_cons, Option.map_some, Option.some.injEq]; exact Ne.symm different),
      recorded, Option.getD_some]
    refine ⟨⟨s.pager.content, f⟩, cur :: past, rfl, _,
      Opened.settled run rfl (?_ : Recorded env ⟨s.pager.content, f⟩ _ _ _ _ _)⟩
    refine ⟨h.len, ?_, pending.fits, ?_, ?_, Nat.le_refl _, ?_, ?_, ?_, ?_⟩
    · rw [other]; exact pending.slot
    · show firstDataPageId ≤ s.pager.content.pageCount
      omega
    · show s.pager.content.txnId + 2 ≤ s.pager.content.pageCount
      omega
    · intro sn member
      rcases List.mem_cons.mp member with rfl | older
      · exact kept
      · exact h.kept sn older
    · intro sn member
      exact (h.pageSize_eq member).trans pending.pageSize.symm
    · refine List.pairwise_cons.mpr ⟨fun sn member => ?_, h.ordered⟩
      exact Nat.lt_of_le_of_lt (h.count_le member) grown
    · intro content validOld
      rw [other, one_sub_one_sub, h.valid, Option.some.injEq] at validOld
      rw [← validOld]
      exact Or.inl (by show cur.content.txnId < s.pager.content.txnId; omega)

/-- Without a half-committed state there is nothing pending. -/
theorem Recorded.older {slot : Fin 2} {file : File} (h : Recorded env cur past none slot floor file)
    {content : MetaContent} (valid : Pager.validSlot env (file.slot (1 - slot)) = some content) :
    content.txnId < cur.content.txnId := by
  rcases h.spare content valid with older | pending
  · exact older
  · obtain ⟨f, none, -⟩ := pending.kept
    cases none

/-- The slot `open` takes is the one that is recorded as active. -/
theorem Recorded.chosen {slot : Fin 2} {file : File} (h : Recorded env cur past none slot floor file) :
    file.chosen env = some (slot, cur.content) :=
  File.chosen_of_newest h.valid fun _ valid => h.older valid

theorem Recorded.activeSlot {slot : Fin 2} {d d' : Disk} {capacity : Nat}
    (h : Recorded env cur past none slot floor d.file) (run : Opened env d capacity s d') :
    s.pager.activeSlot = slot := by
  rcases slot_cases slot s.pager.activeSlot with same | other
  · exact same
  · obtain ⟨f, none, -⟩ := (h.opened_spare run other).kept
    cases none

/-- The run lemma: every reachable session is good. -/
theorem Reachable.good {session : Session} (h : Reachable env session) : session.Good env := by
  induction h with
  | create blank run =>
    obtain ⟨-, created⟩ := createWithCapacity_ok run
    exact ⟨_, [], rfl, firstDataPageId, Settled.of_created created⟩
  | call c fuel _ within caught ih =>
    obtain ⟨cur, past, rfl, floor, settled⟩ := ih
    exact settled.called c fuel within caught _
  | drop _ ih =>
    obtain ⟨cur, past, same, floor, settled⟩ := ih
    exact ⟨cur, past, same, settled.present, _, floor, settled.recorded⟩
  | reopen _ run ih =>
    obtain ⟨cur, past, rfl, present, slot, floor, recorded⟩ := ih
    exact recorded.opened (openWithCapacity_ok run)
  | refused _ run ih =>
    obtain ⟨cur, past, same, present, slot, floor, recorded⟩ := ih
    obtain ⟨n, rfl⟩ := openWithCapacity_error run
    exact ⟨cur, past, same, present, slot, floor, recorded⟩

end Pinax
