import Pinax.Verified.Session

/-! # A commit that fails

`commit` syncs the data, writes the spare meta slot and syncs again.  Whether a failed commit is
undone by a reopen depends on what it left in the spare slot.
-/

namespace Pinax

open Hoare (final)

variable (env : Env)

/-- The states of a pager, over its file: it is made by `create` or by `open`, on any file that
opens, and then reads, writes and commits, with I/O calls failing anywhere. -/
inductive PagerRun : Pager → Disk → Prop
  | create {pageSize : PageSize} {pager : Pager} {d d' : Disk} (absent : d.present = false)
      (run : Pager.create env pageSize d = .ok pager d') : PagerRun pager d'
  | openFile {pager : Pager} {d d' : Disk} (run : Pager.openFile env d = .ok pager d') : PagerRun pager d'
  | read {pager : Pager} {d : Disk} (before : PagerRun pager d) (id : Nat) :
      PagerRun pager (final (pager.readDataPage env id d))
  | write {pager : Pager} {d : Disk} (before : PagerRun pager d) (id : Nat) {data : Bytes}
      (len : data.length = pager.pageSize.bytes) :
      PagerRun pager (final (pager.writeStamped env id data d))
  | sync {pager : Pager} {d : Disk} (before : PagerRun pager d) :
      PagerRun pager (final (Pinax.sync env d))
  | commit {pager pager' : Pager} {d d' : Disk} {root count : Nat} (before : PagerRun pager d)
      (rootFits : root < 4294967296) (countFits : count < 4294967296)
      (run : pager.commit env root count d = .ok pager' d') : PagerRun pager' d'
  | failed {pager : Pager} {d d' : Disk} {root count : Nat} {e : Stop} (before : PagerRun pager d)
      (run : pager.commit env root count d = .error e d') : PagerRun pager d'

/-- The active slot of the file holds what the pager has in memory. -/
structure PagerOver (pager : Pager) (d : Disk) : Prop where
  present : d.present = true
  long : metaRegionLen ≤ d.file.len
  active : Pager.validSlot env (d.file.slot pager.activeSlot) = some pager.content

/-- `open` does not take a spare slot with `content` for anything but the state of `pager`. -/
def Pager.Supersedes (pager : Pager) (content : MetaContent) : Prop :=
  content.txnId < pager.txnId ∨ content.txnId = pager.txnId ∧
    (pager.activeSlot = 0 ∨ content.rootPageId = pager.rootPageId ∧ content.pageCount = pager.pageCount)

/-- The spare slot of `file` is not taken for the current state. -/
def Pager.SpareYields (pager : Pager) (file : File) : Prop :=
  ∀ content, Pager.validSlot env (file.slot pager.spare) = some content → pager.Supersedes content

/-- The failing step of a commit leaves nothing that `open` would take: the first sync fails over a
spare slot that is no later, or the meta write is torn into such a slot.  Where the last sync fails
the new slot is complete, and only a wrapped transaction id makes it no later. -/
def FailsUnseen (pager : Pager) (root count : Nat) (d : Disk) : Prop :=
  let slot := metaSlot env (pager.committed root count).content
  match env.fault d.clock, env.fault (d.clock + 1) with
  | some _, _ => pager.SpareYields env d.file
  | none, some torn => pager.SpareYields env (d.file.store (Pager.slotOffset pager.spare) slot torn)
  | none, none => 2 ^ 64 ≤ pager.txnId + 1

variable {env} {pager : Pager} {d d' : Disk} {root count : Nat}

/-! ## The active slot -/

theorem PagerOver.ticked (h : PagerOver env pager d) : PagerOver env pager d.tick := { h with }
theorem PagerOver.synced (h : PagerOver env pager d) : PagerOver env pager d.synced := { h with }

/-- A write of the spare slot, complete or torn, leaves the active one. -/
theorem PagerOver.written (h : PagerOver env pager d) {slot : Bytes} (len : slot.length = metaSlotLen)
    (torn : Torn) :
    PagerOver env pager (d.written (Pager.slotOffset pager.spare) slot torn) where
  present := h.present
  long := Nat.le_trans h.long (File.len_le_store _ _ _ _)
  active := by
    show Pager.validSlot env ((d.file.store (Pager.slotOffset (1 - pager.activeSlot)) slot torn).slot
      pager.activeSlot) = _
    rw [slot_store_other len]
    exact h.active

theorem PagerOver.pageWritten (h : PagerOver env pager d) {data : Bytes}
    (len : data.length = pager.pageSize.bytes) (id : Nat) (torn : Torn) :
    PagerOver env pager (d.pageWritten pager id data torn) where
  present := h.present
  long := Nat.le_trans h.long (File.len_le_store _ _ _ _)
  active := by
    let writable : Nat → Prop := fun id' => id' = id
    have framed : Framed pager.pageSize writable d.file
      (d.file.store (Pager.fileOffset pager.pageSize id) data torn) :=
      Framed.store rfl len
    show Pager.validSlot env ((d.file.store (Pager.fileOffset pager.pageSize id) data torn).slot
      pager.activeSlot) = _
    rw [framed.slot]
    exact h.active

theorem Pager.fits_committed (pager : Pager) (rootFits : root < 4294967296)
    (countFits : count < 4294967296) :
    (pager.committed root count).content.Fits :=
  ⟨Nat.mod_lt _ (by decide), rootFits, countFits⟩

theorem PagerRun.over (h : PagerRun env pager d) : PagerOver env pager d := by
  induction h with
  | @create pageSize pager d d' absent run =>
    rcases Pager.create_cases env pageSize absent with
      ⟨-, create⟩ | ⟨-, torn, -, create⟩ | ⟨-, -, -, create⟩ | ⟨-, -, -, -, create⟩ | ⟨-, -, -, -, create⟩
    · cases run.symm.trans create
    · cases run.symm.trans create
    · cases run.symm.trans create
    · cases run.symm.trans create
    · rw [create] at run
      injection run with same sameDisk
      subst same sameDisk
      refine ⟨rfl, Nat.le_refl _, ?_⟩
      have first := (d.laidOut_slots env pageSize).1
      show Pager.validSlot env ((d.laidOut env pageSize).file.slot 0) = _
      rw [first]
      exact validSlot_metaSlot (MetaContent.initial_fits _)
  | @openFile pager d d' run =>
    rcases openFile_cases env d with ⟨slot, content, n, opened, present, long, chosen⟩ | ⟨e, n, opened, -⟩
    · rw [opened] at run
      injection run with same sameDisk
      subst same sameDisk
      exact ⟨present, long, (File.valid_of_chosen chosen).1⟩
    · cases run.symm.trans opened
  | @read pager d _ id ih =>
    -- reads and page writes leave the meta slots
    rcases readDataPage_cases env pager id d with ⟨buf, run, -⟩ | ⟨e, run, -⟩
    · rw [run]; exact ih.ticked
    · rw [run]; exact ih.ticked
  | @write pager d _ id data len ih =>
    rcases writeStamped_cases env pager id data d with ⟨-, run⟩ | ⟨torn, -, run⟩
    · rw [run]; exact ih.pageWritten len id _
    · rw [run]; exact ih.pageWritten len id _
  | @sync pager d _ ih =>
    rcases sync_apply env d with ⟨-, run⟩ | ⟨-, run⟩
    · rw [run]; exact ih.synced
    · rw [run]; exact ih.ticked
  | @commit pager pager' d d' root count _ rootFits countFits run ih =>
    have len : (metaSlot env (pager.committed root count).content).length = metaSlotLen :=
      length_metaSlot _
    rcases Pager.commit_cases env pager root count d with
      ⟨-, done⟩ | ⟨-, fails⟩ | ⟨-, fails⟩ | ⟨_, -, fails⟩ | ⟨-, fails⟩
    -- the slot that was the spare one is the active one now
    · rw [done] at run
      injection run with same sameDisk
      subst same sameDisk
      refine ⟨ih.present, Nat.le_trans ih.long (File.len_le_store _ _ _ _), ?_⟩
      show Pager.validSlot env ((d.file.write (Pager.slotOffset pager.spare) _).slot pager.spare) = _
      rw [slot_write_same len]
      exact validSlot_metaSlot (pager.fits_committed rootFits countFits)
    · cases run.symm.trans fails
    · cases run.symm.trans fails
    · cases run.symm.trans fails
    · cases run.symm.trans fails
  | @failed pager d d' root count e _ run ih =>
    have len : (metaSlot env (pager.committed root count).content).length = metaSlotLen :=
      length_metaSlot _
    rcases Pager.commit_cases env pager root count d with
      ⟨-, done⟩ | ⟨-, fails⟩ | ⟨-, fails⟩ | ⟨torn, -, fails⟩ | ⟨-, fails⟩
    · cases run.symm.trans done
    -- whichever step failed, the active slot was not written
    all_goals
      rw [fails] at run
      injection run with _ sameDisk
      subst sameDisk
    · exact ih.ticked
    · exact ih.synced
    · exact ih.synced.written len torn
    · exact (ih.synced.written len (Torn.whole _)).ticked

/-! ## Reopening -/

/-- The fields that are read from a slot fit their widths. -/
theorem validSlot_fits {slot : Bytes} {content : MetaContent}
    (valid : Pager.validSlot env slot = some content) : content.Fits := by
  rw [Pager.validSlot] at valid
  split at valid
  next checked =>
    rw [decodeMetaSlot] at valid
    split at valid
    next => cases valid
    next magic read =>
      split at valid
      next => cases valid
      next =>
        cases fields : (do
            let pageSizeRaw ← readU32 slot offsetPageSize
            let pageSize ← PageSize.tryFrom pageSizeRaw
            let txnId ← readU64 slot offsetTxnId
            let rootPageId ← readU32 slot offsetRoot
            let pageCount ← readU32 slot offsetPageCount
            return { pageSize, txnId, rootPageId, pageCount } : Res MetaContent) with
        | error e =>
          rw [fields] at valid
          cases valid
        | ok decoded =>
          rw [fields] at valid
          obtain rfl := Option.some.inj valid
          obtain ⟨_, -, fields⟩ := Res.bind_ok fields
          obtain ⟨_, -, fields⟩ := Res.bind_ok fields
          obtain ⟨txnId, readTxnId, fields⟩ := Res.bind_ok fields
          obtain ⟨root, readRoot, fields⟩ := Res.bind_ok fields
          obtain ⟨count, readCount, fields⟩ := Res.bind_ok fields
          injection fields with fields
          subst fields
          exact ⟨readU64_lt readTxnId, readU32_lt readRoot, readU32_lt readCount⟩
  next => cases valid

/-- A transaction id that was read from a slot is a `u64`. -/
theorem validSlot_txnId {slot : Bytes} {content : MetaContent}
    (valid : Pager.validSlot env slot = some content) :
    content.txnId < 2 ^ 64 := (validSlot_fits valid).txnId

/-- The state `content` is that of the pager. -/
def Pager.Same (pager : Pager) (content : MetaContent) : Prop :=
  content.txnId = pager.txnId ∧ content.rootPageId = pager.rootPageId ∧
    content.pageCount = pager.pageCount

/-- Between the active slot and a valid spare one, `open` takes the current state exactly when the
spare slot does not supersede it. -/
theorem PagerOver.chosen_spare (h : PagerOver env pager d) {content : MetaContent}
    (spare : Pager.validSlot env (d.file.slot pager.spare) = some content) :
    ∃ slot taken, d.file.chosen env = some (slot, taken) ∧
      (pager.Same taken ↔ pager.Supersedes content) := by
  have active := h.active
  rw [Pager.spare] at spare
  match first : pager.activeSlot with
  | 0 =>
    rw [first] at active spare
    rw [File.chosen, active, show Pager.validSlot env (d.file.slot 1) = some content from spare,
      Pager.chooseSlot]
    -- the active slot is the first one, which is kept when the ids are equal
    by_cases later : content.txnId > pager.content.txnId
    · rw [if_pos later]
      refine ⟨1, content, rfl, fun same => absurd same.1 (Nat.ne_of_gt later), fun superseded => ?_⟩
      rcases superseded with less | ⟨equal, -⟩
      · exact absurd later (Nat.not_lt.mpr (Nat.le_of_lt less))
      · exact absurd equal (Nat.ne_of_gt later)
    · rw [if_neg later]
      refine ⟨0, pager.content, rfl, fun _ => ?_, fun _ => ⟨rfl, rfl, rfl⟩⟩
      rcases Nat.lt_or_eq_of_le (Nat.not_lt.mp later) with less | equal
      · exact Or.inl less
      · exact Or.inr ⟨equal, Or.inl first⟩
  | 1 =>
    rw [first] at active spare
    rw [File.chosen, active, show Pager.validSlot env (d.file.slot 0) = some content from spare,
      Pager.chooseSlot]
    -- the active slot is the second one, which is given up when they are
    by_cases earlier : pager.content.txnId > content.txnId
    · rw [if_pos earlier]
      exact ⟨1, pager.content, rfl, fun _ => Or.inl earlier, fun _ => ⟨rfl, rfl, rfl⟩⟩
    · rw [if_neg earlier]
      refine ⟨0, content, rfl, fun same => Or.inr ⟨same.1, Or.inr same.2⟩, fun superseded => ?_⟩
      rcases superseded with less | ⟨equal, zero | same⟩
      · exact absurd less earlier
      · exact absurd (first.symm.trans zero) (by decide)
      · exact ⟨equal, same⟩

theorem PagerOver.chosen (h : PagerOver env pager d) :
    ∃ slot taken, d.file.chosen env = some (slot, taken) ∧
      (pager.Same taken ↔ pager.SpareYields env d.file) := by
  cases spare : Pager.validSlot env (d.file.slot pager.spare) with
  | none =>
    refine ⟨pager.activeSlot, pager.content, File.chosen_of_newest h.active fun other found => ?_,
      fun _ => ?_, fun _ => ⟨rfl, rfl, rfl⟩⟩
    · cases spare.symm.trans found
    · intro content found
      cases spare.symm.trans found
  | some content =>
    obtain ⟨slot, taken, chosen, same⟩ := h.chosen_spare spare
    refine ⟨slot, taken, chosen, same.trans ⟨fun superseded content' found => ?_,
      fun yields => yields content spare⟩⟩
    obtain rfl := Option.some.inj (spare.symm.trans found)
    exact superseded

/-- The state `open` finds is that of the pager exactly when the spare slot yields. -/
theorem PagerOver.reopened_iff (h : PagerOver env pager d)
    (works : ∀ k, d.clock ≤ k → env.fault k = none) :
    (∃ pager' d', Pager.openFile env d = .ok pager' d' ∧ pager.Same pager'.content) ↔
      pager.SpareYields env d.file := by
  obtain ⟨slot, taken, chosen, same⟩ := h.chosen
  obtain ⟨n, opened⟩ := openFile_works works h.present h.long chosen
  rw [← same, opened]
  constructor
  · rintro ⟨pager', d', run, found⟩
    injection run with run
    subst run
    exact found
  · exact fun found => ⟨_, _, rfl, found⟩

/-- A complete new slot is later than the state it was made from, but when the transaction id
wrapped. -/
theorem Pager.spareYields_committed {file : File} (rootFits : root < 4294967296)
    (countFits : count < 4294967296)
    (slot : file.slot pager.spare = metaSlot env (pager.committed root count).content)
    (fits : pager.txnId < 2 ^ 64) :
    pager.SpareYields env file ↔ 2 ^ 64 ≤ pager.txnId + 1 := by
  have valid : Pager.validSlot env (file.slot pager.spare) =
    some (pager.committed root count).content := by
    rw [slot]
    exact validSlot_metaSlot (pager.fits_committed rootFits countFits)
  have next : (pager.committed root count).content.txnId = (pager.txnId + 1) % 2 ^ 64 := rfl
  constructor
  · intro yields
    have superseded := yields _ valid
    by_contra small
    rw [Pager.Supersedes, next, Nat.mod_eq_of_lt (by omega)] at superseded
    omega
  · intro last content found
    obtain rfl := Option.some.inj (valid.symm.trans found)
    refine Or.inl ?_
    rw [next]
    omega

/-- A commit that failed is undone by a reopen exactly when its failing step left nothing later in
the spare slot. -/
theorem commit_failure_undone_iff {e : PinaxError} (state : PagerRun env pager d)
    (rootFits : root < 4294967296) (countFits : count < 4294967296)
    (failed : pager.commit env root count d = .error (.err e) d')
    (works : ∀ k, d'.clock ≤ k → env.fault k = none) :
    (∃ pager' d'', Pager.openFile env d' = .ok pager' d'' ∧ pager'.txnId = pager.txnId ∧
      pager'.rootPageId = pager.rootPageId ∧ pager'.pageCount = pager.pageCount) ↔
        FailsUnseen env pager root count d := by
  have known := (PagerRun.failed state failed).over
  have len : (metaSlot env (pager.committed root count).content).length = metaSlotLen := length_metaSlot _
  refine Iff.trans (known.reopened_iff works) ?_
  rcases Pager.commit_cases env pager root count d with
    ⟨-, done⟩ | ⟨fails, run⟩ | ⟨-, run⟩ | ⟨torn, ⟨worked, fails⟩, run⟩ | ⟨⟨worked, worked', fails⟩, run⟩
  · cases failed.symm.trans done
  · -- the data sync failed: the file is as before
    rw [run] at failed
    injection failed with _ same
    subst same
    obtain ⟨torn, fails⟩ := Option.isSome_iff_exists.mp fails
    simp only [FailsUnseen, fails, Disk.tick_file]
  · rw [run] at failed
    cases failed
  · -- the meta write failed, and stored what `torn` let through
    rw [run] at failed
    injection failed with _ same
    subst same
    simp only [FailsUnseen, worked, fails]
    exact Iff.rfl
  · -- the last sync failed: the new slot is complete
    rw [run] at failed
    injection failed with _ same
    subst same
    simp only [FailsUnseen, worked, worked']
    exact pager.spareYields_committed rootFits countFits (slot_write_same len)
      (validSlot_txnId state.over.active)

/-- The environment in which I/O call `n` fails without storing anything. -/
def Env.failingAt (profile : Profile) (xxh3 : Bytes → UInt64) (n : Nat) : Env where
  __ := Env.faultless profile xxh3
  fault := fun k => if k = n then some ⟨0, fun _ => false⟩ else none

/-- A file that was created when nothing of the creation failed. -/
theorem create_failingAt (profile : Profile) (xxh3 : Bytes → UInt64) {n : Nat} (late : 4 ≤ n) :
    let env := Env.failingAt profile xxh3 n
    let d : Disk := ⟨false, File.empty, 0, []⟩
    Pager.create env PageSize.default d
      = .ok ((MetaContent.initial PageSize.default).pager 0) (d.laidOut env PageSize.default).synced := by
  intro env d
  have works : ∀ k, k < 4 → env.fault k = none := fun k early => if_neg (by omega)
  rcases Pager.create_cases env PageSize.default (show d.present = false from rfl) with
    ⟨failed, -⟩ | ⟨-, torn, failed, -⟩ | ⟨-, -, failed, -⟩ | ⟨-, -, -, failed, -⟩ | ⟨-, -, -, -, create⟩
  · cases failed.symm.trans (congrArg Option.isSome (works 0 (by omega)))
  · cases failed.symm.trans (works 1 (by omega))
  · cases failed.symm.trans (congrArg Option.isSome (works 2 (by omega)))
  · cases failed.symm.trans (congrArg Option.isSome (works 3 (by omega)))
  · exact create

/-- The last sync of the first commit fails: `commit` reports an error, and `open` finds what it
committed. -/
theorem failed_commit_found : ∃ d₀ : Disk, d₀ = ⟨false, File.empty, 0, []⟩ ∧
    ∀ (profile : Profile) (xxh3 : Bytes → UInt64), let env := Env.failingAt profile xxh3 6
      ∃ pager d d' pager' d'', Pager.create env PageSize.default d₀ = .ok pager d ∧
        pager.commit env 2 3 d = .error Stop.io d' ∧ Pager.openFile env d' = .ok pager' d'' ∧
        (pager.txnId, pager.rootPageId, pager.pageCount) = (0, 0, 2) ∧
        (pager'.txnId, pager'.rootPageId, pager'.pageCount) = (1, 2, 3) := by
  refine ⟨_, rfl, fun profile xxh3 => ?_⟩
  intro env
  let d₀ : Disk := ⟨false, File.empty, 0, []⟩
  let pager := (MetaContent.initial PageSize.default).pager 0
  let d := (d₀.laidOut env PageSize.default).synced
  have len : (metaSlot env (pager.committed 2 3).content).length = metaSlotLen := length_metaSlot _
  have create := create_failingAt profile xxh3 (show 4 ≤ 6 by omega)
  rcases Pager.commit_cases env pager 2 3 d with
    ⟨⟨-, -, -, worked⟩, -⟩ | ⟨failed, -⟩ | ⟨overflow, -⟩ | ⟨torn, ⟨-, failed⟩, -⟩ | ⟨-, run⟩
  · cases worked
  · cases failed
  · exact absurd overflow.2 (by decide)
  · cases failed
  · have known := (PagerRun.failed (PagerRun.create rfl create) run).over
    have spare : Pager.validSlot env ((d.file.write (Pager.slotOffset 1)
        (metaSlot env (pager.committed 2 3).content)).slot 1) = some (pager.committed 2 3).content := by
      rw [slot_write_same len]
      exact validSlot_metaSlot (pager.fits_committed (by omega) (by omega))
    have chosen := File.chosen_of_newest spare fun other found => by
      obtain rfl := Option.some.inj (known.active.symm.trans found)
      decide
    have works : ∀ k, 7 ≤ k → env.fault k = none := fun k late => if_neg (by omega)
    obtain ⟨n, opened⟩ := openFile_works works known.present known.long chosen
    exact ⟨_, _, _, _, _, create, run, opened, rfl, rfl⟩

/-- A first commit whose data sync fails is undone. -/
theorem commit_failure_undone_iff_first_sync :
    let env := Env.failingAt .dev (fun _ => 0) 4
    ∃ pager d d' pager' d'', Pager.create env PageSize.default ⟨false, File.empty, 0, []⟩ = .ok pager d ∧
      pager.commit env 2 3 d = .error Stop.io d' ∧ Pager.openFile env d' = .ok pager' d'' ∧
      pager'.txnId = pager.txnId ∧ pager'.rootPageId = pager.rootPageId ∧
        pager'.pageCount = pager.pageCount := by
  intro env
  let d₀ : Disk := ⟨false, File.empty, 0, []⟩
  let pager := (MetaContent.initial PageSize.default).pager 0
  let d := (d₀.laidOut env PageSize.default).synced
  have create : Pager.create env PageSize.default d₀ = .ok pager d :=
    create_failingAt .dev (fun _ => 0) (Nat.le_refl 4)
  rcases Pager.commit_cases env pager 2 3 d with
    ⟨⟨-, worked, -⟩, -⟩ | ⟨-, run⟩ | ⟨overflow, -⟩ | ⟨torn, ⟨worked, -⟩, -⟩ | ⟨⟨worked, -⟩, -⟩
  · cases worked
  · have works : ∀ k, 5 ≤ k → env.fault k = none := fun k late => if_neg (by omega)
    have unseen : FailsUnseen env pager 2 3 d := by
      show pager.SpareYields env d.file
      intro content found
      have spare : Pager.validSlot env (d.file.slot pager.spare) = none := by
        have zero : d.file.slot 1 = List.replicate metaSlotLen 0 :=
          (d₀.laidOut_slots env PageSize.default).2
        rw [show pager.spare = 1 from (by decide : (1 : Fin 2) - 0 = 1), zero]
        exact validSlot_zero env
      cases spare.symm.trans found
    obtain ⟨pager', d'', opened, same⟩ :=
      (commit_failure_undone_iff (PagerRun.create rfl create) (by omega) (by omega) run works).mpr unseen
    exact ⟨_, _, _, pager', d'', create, run, opened, same⟩
  · exact absurd overflow.2 (by decide)
  · cases worked
  · cases worked

end Pinax
