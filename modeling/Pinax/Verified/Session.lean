import Pinax.Verified.Outcome
import Pinax.Verified.Opening

/-! # Whole sessions

A session is a database that is created, called, dropped and opened again, in any order, with I/O calls
failing anywhere.  It carries the states it descends from: each is the content of a meta slot and the
file it was committed in.  `Recorded` is what is true of the file between two steps.
-/

namespace Pinax

open Hoare (Ends Triple final)

/-! ## Calls -/

inductive Call
  | insert (key : I64) (row : Row)
  | get (key : I64)
  | update (key : I64) (row : Row)
  | delete (key : I64)
  | scan
  deriving DecidableEq

inductive Reply
  | done
  | binding (row : Option Row)
  | removed (row : Row)
  | rows (rows : List (I64 × Row))
  deriving DecidableEq

def Call.run (env : Env) (fuel : Nat) : Call → PoolM Reply
  | .insert key row => do Database.insert env fuel key row; return .done
  | .get key => do return .binding (← Database.get env fuel key)
  | .update key row => do Database.update env fuel key row; return .done
  | .delete key => do return .removed (← Database.delete env fuel key)
  | .scan => do return .rows (← Database.scan env fuel)

/-- The calls that change the tree. -/
def Call.Mutates : Call → Prop
  | .insert _ _ | .update _ _ | .delete _ => True
  | .get _ | .scan => False

instance (c : Call) : Decidable c.Mutates := by cases c <;> unfold Call.Mutates <;> infer_instance

variable {env : Env} {o : Origin} {k : Nat} {s s' : BufferPool}

theorem Commits.map {α β : Type} {x : PoolM α} {j : Nat} (h : Commits env o k j x) (f : α → β) :
    Commits env o k j (x >>= fun a => pure (f a)) :=
  Triple.bind h fun _ => Triple.pure fun _ changed => changed

/-- How a call ends that stays below the last page id. -/
theorem call_ends (fresh : ∀ id, o.start.nextPageId ≤ id → o.writable id) (c : Call) (fuel : Nat)
    (past : Past env o k s) (within : ¬ Exhausted (final (c.run env fuel s))) :
    Ends (fun _ s' => if c.Mutates then Changed env o (k + 1) s' else Past env o k s')
      (Halted env o (k + 1))
      (c.run env fuel s) := by
  -- the two calls that change nothing leave the state as it was, up to the cache
  have reading : ∀ {α : Type} {x : PoolM α} (f : α → Reply), Safe env o k x (fun _ => True) →
      Triple Exhausted (Past env o k) (x >>= fun a => pure (f a)) (fun _ => Past env o k)
        (Halted env o (k + 1)) :=
    fun f safe => Triple.bind (Triple.conseq safe (fun _ h => h) (fun _ _ both => both.2)
      (fun _ _ failed => Or.inl failed)) fun _ => Triple.pure fun _ past => past
  -- the other three end in a commit
  have changing : c.Mutates → Commits env o k (k + 1) (c.run env fuel) := by
    intro mutates
    cases c with
    | insert key row =>
      simpa only [Call.run, Database.insert, bind_assoc, pure_bind] using
        (insert_commits fresh fuel key row).map fun _ => Reply.done
    | update key row =>
      simpa only [Call.run, Database.update, bind_assoc, pure_bind] using
        (update_commits fresh fuel key row).map fun _ => Reply.done
    | delete key =>
      simpa only [Call.run, Database.delete, bind_assoc, pure_bind] using
        (delete_commits fresh fuel key).map fun removed => Reply.removed removed.2
    | get key => exact absurd mutates id
    | scan => exact absurd mutates id
  have triple : Triple Exhausted (Past env o k) (c.run env fuel)
      (fun _ s' => if c.Mutates then Changed env o (k + 1) s' else Past env o k s')
        (Halted env o (k + 1)) := by
    by_cases mutates : c.Mutates
    · simp only [if_pos mutates]
      exact changing mutates
    · simp only [if_neg mutates]
      cases c with
      | get key => exact reading Reply.binding (get_safe fuel key)
      | scan => exact reading Reply.rows (scan_safe fuel)
      | insert key row => exact absurd trivial mutates
      | update key row => exact absurd trivial mutates
      | delete key => exact absurd trivial mutates
  have reached := triple.post s past
  cases run : c.run env fuel s with
  | ok reply s' => rw [run] at reached within; exact reached.resolve_left within
  | error e s' => rw [run] at reached within; exact reached.resolve_left within

/-! ## Committed states -/

/-- A committed state: the content of its meta slot, and the file it was committed in. -/
structure Snapshot where
  content : MetaContent
  file : File

/-- `g` has the data pages below `count` that `f` has. -/
structure SameBelow (ps : PageSize) (count : Nat) (f g : File) : Prop where
  grown : f.len ≤ g.len
  same : ∀ i, metaRegionLen ≤ i → i < Pager.fileOffset ps count → g.byte i = f.byte i

/-- The pages of the committed state are still what they were. -/
def Snapshot.Kept (sn : Snapshot) (file : File) : Prop :=
  SameBelow sn.content.pageSize sn.content.pageCount sn.file file

namespace SameBelow

variable {ps : PageSize} {count count' : Nat} {f g h : File}

theorem refl (ps : PageSize) (count : Nat) (f : File) : SameBelow ps count f f :=
  ⟨Nat.le_refl _, fun _ _ _ => rfl⟩

theorem trans (first : SameBelow ps count f g) (second : SameBelow ps count g h) :
    SameBelow ps count f h :=
  ⟨Nat.le_trans first.grown second.grown,
    fun i low high => (second.same i low high).trans (first.same i low high)⟩

theorem mono (same : SameBelow ps count f g) (le : count' ≤ count) : SameBelow ps count' f g :=
  ⟨same.grown, fun i low high => same.same i low (Nat.lt_of_lt_of_le high (fileOffset_mono ps le))⟩

/-- A page below `count` reads the same. -/
theorem read (same : SameBelow ps count f g) {id : Nat} (low : firstDataPageId ≤ id) (lt : id < count) :
    g.read (Pager.fileOffset ps id) ps.bytes = f.read (Pager.fileOffset ps id) ps.bytes := by
  have start := metaRegionLen_le_fileOffset ps id
  have stop := fileOffset_add_le ps low lt
  exact File.read_congr fun i inside => same.same _ (by omega) (by omega)

theorem diskPage (same : SameBelow ps count f g) {id : Nat} {content : Bytes} (low : firstDataPageId ≤ id)
    (lt : id < count) (found : diskPage env ps f id = some content) :
    diskPage env ps g id = some content :=
  diskPage_mono found same.grown (same.read low lt)

theorem of_framed {writable : Nat → Prop} (framed : Framed ps writable f g)
    (above : ∀ id, writable id → count ≤ id) : SameBelow ps count f g :=
  ⟨framed.grown, fun i _ high => framed.same i fun id may =>
    Or.inl (Nat.lt_of_lt_of_le high (fileOffset_mono ps (above id may)))⟩

theorem store_meta {off : Nat} {data : Bytes} {torn : Torn} (inside : off + data.length ≤ metaRegionLen) :
    SameBelow ps count f (f.store off data torn) :=
  ⟨File.len_le_store _ _ _ _, fun i low _ => File.byte_store_outside (by omega)⟩

end SameBelow

/-! ## The file between two steps -/

/-- The spare slot holds a successor of the committed state that no `commit` returned `Ok` for. -/
structure Pending (env : Env) (cur : Snapshot) (half : Option File) (spare : Bytes)
    (floor : Nat) (file : File) (content : MetaContent) : Prop where
  slot : spare = metaSlot env content
  txnId : content.txnId = cur.content.txnId + 1
  pageSize : content.pageSize = cur.content.pageSize
  grown : cur.content.pageCount < content.pageCount
  below : content.pageCount ≤ floor
  fits : content.Fits
  kept : ∃ f, half = some f ∧ SameBelow content.pageSize content.pageCount f file

/-- `cur` is committed in `slot` of the file and descends from `past`; the pages below `floor` are not
written any more. -/
structure Recorded (env : Env) (cur : Snapshot) (past : List Snapshot) (half : Option File) (slot : Fin 2)
    (floor : Nat) (file : File) : Prop where
  len : metaRegionLen ≤ file.len
  active : file.slot slot = metaSlot env cur.content
  fits : cur.content.Fits
  two : firstDataPageId ≤ cur.content.pageCount
  txnId : cur.content.txnId + 2 ≤ cur.content.pageCount
  below : cur.content.pageCount ≤ floor
  kept : ∀ sn ∈ cur :: past, sn.Kept file
  pageSize : ∀ sn ∈ past, sn.content.pageSize = cur.content.pageSize
  ordered : (cur :: past).Pairwise fun newer older => older.content.pageCount < newer.content.pageCount
  spare : ∀ content, Pager.validSlot env (file.slot (1 - slot)) = some content →
    content.txnId < cur.content.txnId ∨ Pending env cur half (file.slot (1 - slot)) floor file content

/-- A running database between two calls. -/
structure Settled (env : Env) (cur : Snapshot) (past : List Snapshot) (half : Option File) (floor : Nat)
    (s : Database) : Prop where
  sound : Sound env s
  present : s.disk.present = true
  content : s.pager.content = cur.content
  dirty : ∀ id ∈ s.dirty, floor ≤ id
  next : floor ≤ s.nextPageId
  recorded : Recorded env cur past half s.pager.activeSlot floor s.disk.file

variable {cur : Snapshot} {past : List Snapshot} {half : Option File} {floor : Nat}
  {slot : Fin 2} {file : File}

theorem Recorded.count_le (h : Recorded env cur past half slot floor file) {sn : Snapshot}
    (member : sn ∈ cur :: past) : sn.content.pageCount ≤ cur.content.pageCount := by
  rcases List.mem_cons.mp member with rfl | older
  · exact Nat.le_refl _
  · exact Nat.le_of_lt ((List.pairwise_cons.mp h.ordered).1 sn older)

theorem Recorded.pageSize_eq (h : Recorded env cur past half slot floor file) {sn : Snapshot}
    (member : sn ∈ cur :: past) : sn.content.pageSize = cur.content.pageSize := by
  rcases List.mem_cons.mp member with rfl | older
  · rfl
  · exact h.pageSize sn older

/-- Page writes from `floor` on change nothing that is recorded. -/
theorem Recorded.framed {file' : File} {writable : Nat → Prop}
    (h : Recorded env cur past half slot floor file)
    (framed : Framed cur.content.pageSize writable file file') (above : ∀ id, writable id → floor ≤ id) :
    Recorded env cur past half slot floor file' where
  len := Nat.le_trans h.len framed.grown
  active := (framed.slot slot).trans h.active
  fits := h.fits
  two := h.two
  txnId := h.txnId
  below := h.below
  kept := fun sn member => by
    have same := SameBelow.of_framed framed above
    have := h.count_le member
    have := h.below
    refine SameBelow.trans (h.kept sn member) ?_
    rw [h.pageSize_eq member]
    exact same.mono (by omega)
  pageSize := h.pageSize
  ordered := h.ordered
  spare := fun content valid => by
    rw [framed.slot] at valid ⊢
    rcases h.spare content valid with older | pending
    · exact Or.inl older
    · refine Or.inr { pending with kept := ?_ }
      obtain ⟨f, recorded, same⟩ := pending.kept
      refine ⟨f, recorded, same.trans ?_⟩
      rw [pending.pageSize]
      exact (SameBelow.of_framed framed above).mono pending.below

/-! ## What a call does to the file -/

/-- A call may write the pages from `floor` on. -/
def callFrom (env : Env) (s : Database) (floor : Nat) : Origin where
  start := s
  writable id := firstDataPageId ≤ id ∧ floor ≤ id
  base id := if firstDataPageId ≤ id ∧ id < floor then s.page env id else none
  two := fun _ may => may.1
  safe := fun id content known may => by
    split at known
    next below => exact absurd may.2 (by omega)
    next => cases known

theorem Settled.start (h : Settled env cur past half floor s) :
    Past env (callFrom env s floor) s.nextPageId s := by
  have two := h.recorded.two
  have below := h.recorded.below
  refine ⟨s.nextPageId, Nat.le_refl _, During.init h.sound rfl
    (fun id dirty => ⟨?_, h.dirty id dirty⟩) ?_ (fun _ _ known => known)⟩
  · have := h.dirty id dirty
    omega
  · intro id content known
    simp only [callFrom] at known
    split at known
    next low => exact ⟨low.1, known⟩
    next => cases known

theorem Settled.fresh (h : Settled env cur past half floor s) (id : Nat)
    (high : (callFrom env s floor).start.nextPageId ≤ id) : (callFrom env s floor).writable id := by
  have := h.recorded.two
  have := h.recorded.below
  have next := h.next
  have high : s.nextPageId ≤ id := high
  exact ⟨by omega, by omega⟩

theorem Settled.pageSize (h : Settled env cur past half floor s) :
    s.pager.pageSize = cur.content.pageSize := congrArg MetaContent.pageSize h.content

/-- The state a call leaves: no commit, a commit, or a commit that failed half-way. -/
theorem Settled.call_cases (h : Settled env cur past half floor s) (c : Call) (fuel : Nat)
    (within : ¬ Exhausted (final (c.run env fuel s))) :
    let o := callFrom env s floor
    let s' := final (c.run env fuel s)
    Failed env o s' ∨ ((∃ reply, c.run env fuel s = .ok reply s') ∧ Changed env o (s.nextPageId + 1) s') ∨
      (Faulted env o s' ∧
        ∃ n root, s.nextPageId + 1 ≤ n ∧ root < 4294967296 ∧ HalfCommitted env o o.base n root s') := by
  intro o s'
  have ends := call_ends h.fresh c fuel h.start within
  cases run : c.run env fuel s with
  | ok reply s₁ =>
    rw [run] at ends
    have same : s' = s₁ := congrArg final run
    rw [same]
    by_cases mutates : c.Mutates
    · exact Or.inr (Or.inl ⟨⟨reply, rfl⟩, (if_pos mutates).mp ends⟩)
    · exact Or.inl ((if_neg mutates).mp ends : Past env o s.nextPageId s₁).failed
  | error e s₁ =>
    rw [run] at ends
    have same : s' = s₁ := congrArg final run
    rw [same]
    rcases ends with failed | ⟨-, faulted, half⟩
    · exact Or.inl failed
    · exact Or.inr (Or.inr ⟨faulted, half⟩)

/-- A call that did not commit leaves everything that is recorded. -/
theorem Settled.of_failed (h : Settled env cur past half floor s)
    (failed : Failed env (callFrom env s floor) s') : Settled env cur past half floor s' := by
  obtain ⟨n, during⟩ := failed
  have pager : s'.pager = s.pager := during.pager
  have framed := during.framed
  have next := h.next
  have grown : s.nextPageId ≤ n := during.grown
  refine ⟨during.sound, during.present.trans h.present, ?_,
    fun id dirty => (during.dirty id dirty).2, ?_, ?_⟩
  · rw [pager]; exact h.content
  · rw [during.next]; omega
  · rw [pager]
    refine h.recorded.framed ?_ fun id may => (show firstDataPageId ≤ id ∧ floor ≤ id from may).2
    rw [← h.pageSize]
    exact framed

theorem mem_range'_last {a n : Nat} (lt : a < n) : n - 1 ∈ List.range' a (n - a) :=
  List.mem_range'_1.mpr ⟨by omega, by omega⟩

/-- Below the last page id the page count fits its field. -/
theorem count_le_of_within {ext tail : List Event} {n : Nat} (within : ¬ Exhausted s')
    (trace : s'.disk.trace = s.disk.trace ++ ext ++ tail)
    (ids : allocated ext = List.range' s.nextPageId (n - s.nextPageId)) (grown : s.nextPageId + 1 ≤ n) :
    n ≤ u32Max := by
  by_contra large
  refine within ⟨n - 1, ?_, by omega⟩
  rw [trace, allocated_append, allocated_append, ids]
  exact List.mem_append_left _ (List.mem_append_right _ (mem_range'_last (by omega)))

theorem Settled.committed_content (h : Settled env cur past half floor s) (root n : Nat) :
    (s.pager.committed root n).content =
      ⟨cur.content.pageSize, cur.content.txnId + 1, root, n⟩ := by
  have fits := h.recorded.fits
  have txn := h.recorded.txnId
  have count := fits.pageCount
  rw [← h.content] at txn count ⊢
  simp only [Pager.committed, Pager.content] at txn count ⊢
  rw [Nat.mod_eq_of_lt (by omega)]

/-- The database that a commit leaves has another transaction id. -/
theorem Settled.pager_ne (h : Settled env cur past half floor s) {root n : Nat} {s' : Database}
    (pager : s'.pager = s.pager.committed root n) : s'.pager ≠ s.pager := by
  intro same
  have content := h.committed_content root n
  rw [← pager, same, h.content] at content
  have txn := congrArg MetaContent.txnId content
  exact absurd txn (Nat.ne_of_lt (Nat.lt_succ_self _))

theorem committed_fits (h : Settled env cur past half floor s) {root n : Nat} (small : root < 4294967296)
    (count : n ≤ u32Max) : (s.pager.committed root n).content.Fits := by
  rw [h.committed_content]
  have := h.recorded.fits.pageCount
  have := h.recorded.txnId
  simp only [u32Max] at count
  exact ⟨by show cur.content.txnId + 1 < _; omega, small, by show n < _; omega⟩

/-- What was recorded before a meta slot was written is so afterwards, the spare slot apart. -/
theorem Recorded.kept_store (h : Recorded env cur past half slot floor file) {file' flushed : File}
    {writable : Nat → Prop} {data : Bytes} {torn : Torn} (sized : data.length = metaSlotLen)
    (framed : Framed cur.content.pageSize writable file flushed) (above : ∀ id, writable id → floor ≤ id)
    (stored : file' = flushed.store (Pager.slotOffset (1 - slot)) data torn) :
    (∀ count, count ≤ floor → SameBelow cur.content.pageSize count file file') ∧
      file'.slot slot = file.slot slot ∧ (∀ sn ∈ cur :: past, sn.Kept file') ∧
        metaRegionLen ≤ file'.len := by
  have inside : Pager.slotOffset (1 - slot) + data.length ≤ metaRegionLen := by
    rw [sized]; exact slotOffset_bound _
  have same : ∀ count, count ≤ floor → SameBelow cur.content.pageSize count file file' :=
    fun count le => by
    rw [stored]
    exact ((SameBelow.of_framed framed above).trans (SameBelow.store_meta inside)).mono le
  refine ⟨same, ?_, fun sn member => ?_, Nat.le_trans h.len (same 0 (Nat.zero_le _)).grown⟩
  · rw [stored, slot_store_other sized, framed.slot]
  · refine SameBelow.trans (h.kept sn member) ?_
    rw [h.pageSize_eq member]
    exact same _ (Nat.le_trans (h.count_le member) h.below)

theorem one_sub_one_sub (slot : Fin 2) : 1 - (1 - slot) = slot := by
  match slot with
  | 0 => rfl
  | 1 => rfl

/-- A call that committed adds one state. -/
theorem Settled.of_committed (h : Settled env cur past half floor s) {n root : Nat}
    (committed : Committed env (callFrom env s floor) (callFrom env s floor).base n root s')
    (grown : s.nextPageId + 1 ≤ n) (small : root < 4294967296) (within : ¬ Exhausted s') :
    Settled env ⟨s'.pager.content, s'.disk.file⟩ (cur :: past) none n s' := by
  obtain ⟨flushed, ext, framed, file, trace, -, ids⟩ := committed.file
  have pager : s'.pager = s.pager.committed root n := committed.pager
  have spare : s'.pager.activeSlot = 1 - s.pager.activeSlot := by rw [pager]; rfl
  have count := count_le_of_within within trace ids grown
  have content := h.committed_content root n
  have fits := committed_fits h small count
  have sized : (metaSlot env s'.pager.content).length = metaSlotLen := length_metaSlot _
  have framed : Framed cur.content.pageSize _ s.disk.file flushed := h.pageSize ▸ framed
  -- no page of a committed state was written, nor was the slot that was active
  obtain ⟨-, active, kept, len⟩ := h.recorded.kept_store sized framed (fun id may => may.2) file
  have below := h.recorded.below
  have next := h.next
  have two := h.recorded.two
  have txn := h.recorded.txnId
  refine ⟨committed.sound, committed.present.trans h.present, rfl, ?_, ?_,
    len, ?_, ?_, ?_, ?_, ?_, ?_, ?_, ?_, ?_⟩
  · intro id dirty
    rw [committed.dirty] at dirty
    exact absurd dirty (Finset.notMem_empty id)
  · rw [committed.next]
  · rw [spare, file]
    exact slot_write_same sized
  · rw [pager]; exact fits
  · show firstDataPageId ≤ s'.pager.content.pageCount
    rw [pager, content]
    show firstDataPageId ≤ n
    omega
  · show s'.pager.content.txnId + 2 ≤ s'.pager.content.pageCount
    rw [pager, content]
    show cur.content.txnId + 1 + 2 ≤ n
    omega
  · show s'.pager.content.pageCount ≤ n
    rw [pager, content]
  · intro sn member
    rcases List.mem_cons.mp member with rfl | older
    · exact SameBelow.refl _ _ _
    · exact kept sn older
  · intro sn older
    show sn.content.pageSize = s'.pager.content.pageSize
    rw [pager, content]
    exact h.recorded.pageSize_eq older
  · refine List.pairwise_cons.mpr ⟨fun sn older => ?_, h.recorded.ordered⟩
    show sn.content.pageCount < s'.pager.content.pageCount
    rw [pager, content]
    have := h.recorded.count_le older
    show sn.content.pageCount < n
    omega
  -- the spare slot is the one that was active: it holds the state before
  · intro other valid
    rw [spare, one_sub_one_sub, active, h.recorded.active, validSlot_metaSlot h.recorded.fits,
      Option.some.injEq] at valid
    refine Or.inl ?_
    show other.txnId < s'.pager.content.txnId
    rw [← valid, pager, content]
    exact Nat.lt_succ_self _

/-- A meta slot that was written is as it was before, as it was to be, or fails its checksum. -/
def TornSlotCaught (env : Env) (before after : Disk) : Prop :=
  ∀ slot data, Event.write (Pager.slotOffset slot) data ∈ after.trace.drop before.trace.length →
    after.file.slot slot = before.file.slot slot ∨ after.file.slot slot = data ∨
      verifies env (after.file.slot slot) = false

/-- A commit that failed half-way leaves everything that is recorded, but for the spare slot. -/
theorem Settled.of_half (h : Settled env cur past half floor s) {n root : Nat}
    (committed : HalfCommitted env (callFrom env s floor) (callFrom env s floor).base n root s')
    (grown : s.nextPageId + 1 ≤ n) (small : root < 4294967296) (within : ¬ Exhausted s')
    (caught : TornSlotCaught env s.disk s'.disk) :
    Settled env cur past (if s'.disk.file.slot s.pager.spare = s.disk.file.slot s.pager.spare then half
      else some s'.disk.file) n s' := by
  obtain ⟨flushed, ext, torn, framed, file, trace, -, ids⟩ := committed.file
  have pager : s'.pager = s.pager := committed.pager
  have count := count_le_of_within within trace ids grown
  have content := h.committed_content root n
  have fits := committed_fits h small count
  have sized : (metaSlot env (s.pager.committed root n).content).length = metaSlotLen := length_metaSlot _
  have framed : Framed cur.content.pageSize _ s.disk.file flushed := h.pageSize ▸ framed
  obtain ⟨same, active, kept, len⟩ := h.recorded.kept_store sized framed (fun id may => may.2) file
  have below := h.recorded.below
  have next := h.next
  refine ⟨committed.sound, committed.present.trans h.present, by rw [pager]; exact h.content, ?_, ?_,
    len, ?_, h.recorded.fits, h.recorded.two, h.recorded.txnId, by omega, kept, h.recorded.pageSize,
    h.recorded.ordered, ?_⟩
  · intro id dirty
    rw [committed.dirty] at dirty
    exact absurd dirty (Finset.notMem_empty id)
  · rw [committed.next]
  · rw [pager, active]; exact h.recorded.active
  · intro other valid
    rw [pager] at valid ⊢
    -- the torn slot is as before, or as it should be, or caught
    have written := caught s.pager.spare (metaSlot env (s.pager.committed root n).content) (by
      rw [trace]
      show _ ∈ List.drop s.disk.trace.length (s.disk.trace ++ ext ++ _)
      rw [List.append_assoc, List.drop_left]
      exact List.mem_append_right _ (List.mem_cons_of_mem _ List.mem_cons_self))
    have spare : s.pager.spare = 1 - s.pager.activeSlot := rfl
    rw [spare] at written ⊢
    -- a slot that did not change still holds what it held, and a half commit from before with it
    by_cases unchanged : s'.disk.file.slot (1 - s.pager.activeSlot) =
      s.disk.file.slot (1 - s.pager.activeSlot)
    · rw [if_pos unchanged]
      rw [unchanged] at valid ⊢
      rcases h.recorded.spare other valid with older | pending
      · exact Or.inl older
      · refine Or.inr { pending with below := Nat.le_trans pending.below (by omega), kept := ?_ }
        obtain ⟨f, recorded, kept⟩ := pending.kept
        refine ⟨f, recorded, kept.trans ?_⟩
        rw [pending.pageSize]
        exact same _ pending.below
    · rw [if_neg unchanged]
      rcases written with same | new | invalid
      · exact absurd same unchanged
      -- the new state is pending: the next opening takes it, the next commit overwrites it
      · rw [new, validSlot_metaSlot fits, Option.some.injEq] at valid
        refine Or.inr ?_
        rw [← valid] at *
        refine ⟨new, ?_, ?_, ?_, ?_, fits, s'.disk.file, rfl, SameBelow.refl _ _ _⟩
        · rw [content]
        · rw [content]
        · rw [content]
          show cur.content.pageCount < n
          omega
        · rw [content]
      · rw [Pager.validSlot, invalid] at valid
        cases valid

/-! ## What a call adds to the trace -/

/-- An event of a call of `s`, whose commit is at most one write of the spare meta slot. -/
def CallEvent (s : Database) (floor : Nat) : Event → Prop
  | .alloc _ => True
  | .pageWrite id count => firstDataPageId ≤ id ∧ floor ≤ id ∧ count = s.pager.pageCount
  | .write off data =>
    (∃ id, firstDataPageId ≤ id ∧ floor ≤ id ∧ off = Pager.fileOffset s.pager.pageSize id ∧
      data.length = s.pager.pageSize.bytes) ∨
    (off = Pager.slotOffset s.pager.spare ∧ data.length = metaSlotLen)
  | .sync _ => True

theorem DataEvent.callEvent {e : Event} (h : DataEvent (callFrom env s floor) e) :
    CallEvent s floor e := by
  cases e with
  | alloc id => trivial
  | pageWrite id count => exact ⟨h.1.1, h.1.2, h.2⟩
  | write off data =>
    obtain ⟨id, may, at', len⟩ := h
    exact Or.inl ⟨id, may.1, may.2, at', len⟩
  | sync file => trivial

/-- The page ids a call hands out follow `next_page_id`, and it writes pages from `floor` on. -/
theorem Settled.call_trace (h : Settled env cur past half floor s) (c : Call) (fuel : Nat)
    (within : ¬ Exhausted (final (c.run env fuel s))) :
    let s' := final (c.run env fuel s)
    ∃ ext, s'.disk.trace = s.disk.trace ++ ext ∧ (∀ e ∈ ext, CallEvent s floor e) ∧
      s.nextPageId ≤ s'.nextPageId ∧
      allocated ext = List.range' s.nextPageId (s'.nextPageId - s.nextPageId) := by
  intro s'
  -- the events of the data pages come first, then those of the meta slot
  have commits : ∀ {ext tail : List Event} {n : Nat}, s'.nextPageId = n → s.nextPageId ≤ n →
      s'.disk.trace = s.disk.trace ++ ext ++ tail → allocated tail = [] →
        (∀ e ∈ tail, CallEvent s floor e) →
      (∀ e ∈ ext, DataEvent (callFrom env s floor) e) →
      allocated ext = List.range' s.nextPageId (n - s.nextPageId) →
      ∃ ext, s'.disk.trace = s.disk.trace ++ ext ∧ (∀ e ∈ ext, CallEvent s floor e) ∧
        s.nextPageId ≤ s'.nextPageId ∧
        allocated ext = List.range' s.nextPageId (s'.nextPageId - s.nextPageId) := by
    intro ext tail n next grown trace none tailEvents events ids
    refine ⟨ext ++ tail, by rw [trace, List.append_assoc], fun e member => ?_, by omega, ?_⟩
    · rcases List.mem_append.mp member with data | last
      · exact (events e data).callEvent
      · exact tailEvents e last
    · rw [allocated_append, none, List.append_nil, ids, next]
  -- nothing is committed, or the whole slot, or the last sync of the commit fails
  rcases h.call_cases c fuel within with ⟨n, during⟩ | ⟨-, n, root, -, -, -, committed⟩ |
    ⟨-, n, root, -, -, committed⟩
  · obtain ⟨ext, trace, events, ids⟩ := during.trace
    exact commits during.next during.grown (trace.trans (List.append_nil _).symm) rfl
      (fun _ member => absurd member List.not_mem_nil) events ids
  · obtain ⟨flushed, ext, -, -, trace, events, ids⟩ := committed.file
    refine commits committed.next committed.grown trace rfl (fun e member => ?_) events ids
    simp only [List.mem_cons, List.not_mem_nil, or_false] at member
    rcases member with rfl | rfl | rfl
    · trivial
    · exact Or.inr ⟨rfl, length_metaSlot _⟩
    · trivial
  · obtain ⟨flushed, ext, -, -, -, trace, events, ids⟩ := committed.file
    refine commits committed.next committed.grown trace rfl (fun e member => ?_) events ids
    simp only [List.mem_cons, List.not_mem_nil, or_false] at member
    rcases member with rfl | rfl
    · trivial
    · exact Or.inr ⟨rfl, length_metaSlot _⟩

end Pinax
