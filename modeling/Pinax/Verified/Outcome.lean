import Pinax.Verified.Safe

/-! # How a call ends

The safety of every function of the tree, put together: a call either stays `During` the operation it
started, or commits, or fails half-way through its commit.
-/

namespace Pinax

open Hoare (Ends Triple final)
open BufferPool (allocatePageId)

variable {env : Env} {o : Origin} {k : Nat}

theorem Safe.allocates_bind {α β : Type} {x : PoolM α} {f : α → PoolM β} {Q : α → Prop} {R : β → Prop}
    (first : Safe env o k x Q) (rest : ∀ a, Q a → Allocates env o k (f a) R)
    [appends : ∀ a, Appends (f a)] :
    Allocates env o k (x >>= f) R :=
  Triple.bind first fun a => Triple.of_fact (appends a).exhausted (rest a)

theorem Allocates.bind {α β : Type} {x : PoolM α} {f : α → PoolM β} {Q : α → Prop} {R : β → Prop}
    (first : Allocates env o k x Q) (rest : ∀ a, Q a → Safe env o (k + 1) (f a) R)
    [appends : ∀ a, Appends (f a)] :
    Allocates env o k (x >>= f) R :=
  Triple.bind first fun a => Triple.of_fact (appends a).exhausted (rest a)

theorem Allocates.safe {α : Type} {x : PoolM α} {Q : α → Prop} (h : Allocates env o k x Q) :
    Safe env o k x Q :=
  Triple.weaken h fun _ _ both => ⟨both.1, both.2.mono (Nat.le_succ k)⟩

theorem Allocates.ite {α : Type} {c : Prop} [Decidable c] {x y : PoolM α} {Q : α → Prop}
    (left : Allocates env o k x Q) (right : Allocates env o k y Q) :
    Allocates env o k (if c then x else y) Q := by
  split
  · exact left
  · exact right

/-- A page id of 32 bits, if the result is one. -/
def NodeResult.Small (result : NodeResult) : Prop := ∀ id, result = .replaced id → id < 4294967296

theorem NodeResult.small_replaced {id : Nat} (lt : id < u32Max) : (NodeResult.replaced id).Small := by
  intro id' same
  injection same with same
  simp only [u32Max] at lt
  omega

theorem NodeResult.small_split {left right : Nat} {key : I64} : (NodeResult.split left right key).Small :=
  fun _ same => absurd same nofun

theorem readU32_lt {buf : Bytes} {at' v : Nat} (h : readU32 buf at' = .ok v) : v < 4294967296 := by
  rw [readU32, readBytes] at h
  split at h
  next bound =>
    injection h with h
    have := BigEndian.ofBe_lt (slice buf at' 4)
    rw [Slice.length_slice_of_le bound, h] at this
    omega
  next => cases h

theorem readU64_lt {buf : Bytes} {at' v : Nat} (h : readU64 buf at' = .ok v) : v < 2 ^ 64 := by
  rw [readU64, readBytes] at h
  split at h
  next bound =>
    injection h with h
    have := BigEndian.ofBe_lt (slice buf at' 8)
    rw [Slice.length_slice_of_le bound, h] at this
    omega
  next => cases h

section functions

variable (fresh : ∀ id, o.start.nextPageId ≤ id → o.writable id)
include fresh

/-- A page-sized buffer is put under an id that was just allocated. -/
theorem alloc_put {β : Type} {buf : Bytes} {f : Nat → PoolM β} {R : β → Prop}
    [appends : ∀ a, Appends (f a)] (len : buf.length = o.start.pager.pageSize.bytes)
    (rest : ∀ id, id < u32Max → Safe env o (k + 1) (f id) R) :
    Allocates env o k (allocatePageId env >>= fun id => BufferPool.putNew env id buf >>=
      fun _ => f id) R := by
  refine Allocates.bind allocatePageId_allocates fun id both => ?_
  exact Safe.bind (Safe.putNew (fresh id both.1) len) fun _ _ => rest id both.2

theorem writeChunks_safe (chunks : List Bytes) (nextId : Nat) :
    Safe env o k (writeChunks env chunks nextId) (fun _ => True) := by
  induction chunks generalizing nextId k with
  | nil => exact Safe.pure trivial
  | cons chunk chunks ih =>
    rw [writeChunks]
    refine Safe.bind Safe.pageSize fun ps same => ?_
    subst same
    refine Safe.bind (Safe.res fun _ ok => writeBytes_length ok) fun buf₁ len₁ => ?_
    refine Safe.bind (Safe.res fun _ ok => writeBytes_length ok) fun buf₂ len₂ => ?_
    refine Safe.bind (Safe.res fun _ ok => writeBytes_length ok) fun buf₃ len₃ => ?_
    have len : buf₃.length = o.start.pager.pageSize.bytes := by
      rw [len₃, len₂, len₁, List.length_replicate]
    exact (alloc_put fresh len fun id _ => ih id).safe

theorem buildRowCell_safe (key : I64) (row : Row) :
    Safe env o k (buildRowCell env key row) (fun _ => True) := by
  have chain : ∀ tail, Safe env o k (writeOverflowChain env tail) (fun _ => True) := by
    intro tail
    unfold writeOverflowChain
    refine Safe.ite (Safe.pure trivial) (Safe.bind Safe.pageSize fun ps _ => ?_)
    exact writeChunks_safe fresh _ _
  have spill : ∀ encoded, Safe env o k (spillIfNeeded env encoded) (fun _ => True) := by
    intro encoded
    unfold spillIfNeeded
    refine Safe.bind Safe.pageSize fun ps _ => Safe.ite (Safe.pure trivial) ?_
    exact Safe.bind (chain _) fun _ _ => Safe.pure trivial
  unfold buildRowCell
  refine Safe.bind (Safe.res fun _ _ => trivial) fun encoded _ => ?_
  exact Safe.bind (spill encoded) fun _ _ => Safe.pure trivial

set_option synthInstance.maxSize 256 in
theorem leafSplitWithNewCell_allocates (leafBuf : Bytes) (insertIdx : Nat) (newCell : Bytes) :
    Allocates env o k (Btree.leafSplitWithNewCell env leafBuf insertIdx newCell) NodeResult.Small := by
  unfold Btree.leafSplitWithNewCell
  refine Safe.allocates_bind Safe.pageSize fun ps same => ?_
  subst same
  refine Safe.allocates_bind (Safe.res fun _ _ => trivial) fun n _ => ?_
  refine Safe.allocates_bind (Safe.res fun _ _ => trivial) fun oldCells _ => ?_
  refine Safe.allocates_bind (Safe.res fun _ ok => buildLeafHalf_length ok) fun leftBuf leftLen => ?_
  refine Safe.allocates_bind (Safe.res fun _ ok => buildLeafHalf_length ok) fun rightBuf rightLen => ?_
  refine Safe.allocates_bind (Safe.res fun _ _ => trivial) fun separatorKey _ => ?_
  exact alloc_put fresh leftLen fun _ _ =>
    (alloc_put fresh rightLen fun _ _ => Safe.pure NodeResult.small_split).safe

theorem leafInsertOrSplit_allocates {leafBuf : Bytes}
    (len : leafBuf.length = o.start.pager.pageSize.bytes) (insertIdx : Nat) (cell : Bytes) :
    Allocates env o k (Btree.leafInsertOrSplit env leafBuf insertIdx cell) NodeResult.Small := by
  unfold Btree.leafInsertOrSplit
  refine Safe.allocates_bind (Safe.res fun _ _ => trivial) fun free _ => ?_
  refine Allocates.ite ?_ (leafSplitWithNewCell_allocates fresh _ _ _)
  refine Safe.allocates_bind (Safe.res fun _ ok => insertCellAt_length ok) fun buf sameLen => ?_
  exact alloc_put fresh (sameLen.trans len) fun _ small => Safe.pure (NodeResult.small_replaced small)

theorem splitInteriorEntries_safe (keys : List I64) (children : List Nat) :
    Safe env o k (splitInteriorEntries env o.start.pager.pageSize.bytes keys children)
      NodeResult.Small := by
  unfold splitInteriorEntries
  refine Safe.bind (Safe.res fun _ _ => trivial) fun promoted _ => ?_
  refine Safe.bind (Safe.res fun _ ok => buildInteriorPage_length ok) fun leftBuf leftLen => ?_
  refine Safe.bind (Safe.res fun _ ok => buildInteriorPage_length ok) fun rightBuf rightLen => ?_
  exact (alloc_put fresh leftLen fun _ _ =>
    (alloc_put fresh rightLen fun _ _ => Safe.pure NodeResult.small_split).safe).safe

theorem applyResultToInterior_safe (ancestorId oldChildId : Nat) (result : NodeResult) :
    Safe env o k (applyResultToInterior env ancestorId oldChildId result) NodeResult.Small := by
  cases result with
  | replaced newChild =>
    unfold applyResultToInterior
    refine Safe.bind Safe.pageSize fun ps same => ?_
    subst same
    refine Safe.bind (Safe.get ancestorId) fun buf len => ?_
    refine Safe.bind (Safe.res fun _ _ => trivial) fun slot _ => ?_
    refine Safe.bind (Safe.res (Q := fun buf' => buf'.length = buf.length) fun buf' ok => ?_)
      fun buf' sameLen => ?_
    · cases slot with
      | cell index => exact interiorSetChildAt_length ok
      | rightmost => exact writeBytes_length ok
    · exact (alloc_put fresh (sameLen.trans len) fun _ small =>
        Safe.pure (NodeResult.small_replaced small)).safe
  | split left right separatorKey =>
    unfold applyResultToInterior
    refine Safe.bind Safe.pageSize fun ps same => ?_
    subst same
    refine Safe.bind (Safe.get ancestorId) fun buf len => ?_
    refine Safe.bind (Safe.res fun _ _ => trivial) fun entries _ => ?_
    refine Safe.ite ?_ (splitInteriorEntries_safe fresh _ _)
    refine Safe.bind (Safe.res fun _ ok => buildInteriorPage_length ok) fun rebuilt len => ?_
    exact (alloc_put fresh len fun _ small => Safe.pure (NodeResult.small_replaced small)).safe

theorem propagate_safe (ancestors : List Nat) (oldChildId : Nat) {result : NodeResult}
    (small : result.Small) :
    Safe env o k (propagate env ancestors oldChildId result) NodeResult.Small := by
  induction ancestors generalizing oldChildId result with
  | nil => exact Safe.pure small
  | cons ancestorId ancestors ih =>
    rw [propagate]
    exact Safe.bind (applyResultToInterior_safe fresh _ _ _) fun result small => ih _ small

theorem finalizeRoot_safe {result : NodeResult} (small : result.Small) :
    Safe env o k (finalizeRoot env result) (fun root => root < 4294967296) := by
  cases result with
  | replaced id => exact Safe.pure (small id rfl)
  | split left right separatorKey =>
    unfold finalizeRoot
    refine Safe.bind Safe.pageSize fun ps same => ?_
    subst same
    refine Safe.bind (Safe.res fun _ ok => initInterior_length ok) fun buf len => ?_
    refine Safe.bind (Safe.res fun _ ok => insertCellAt_length ok) fun buf' len' => ?_
    refine (alloc_put fresh (by rw [len', len, List.length_replicate]) fun _ small => Safe.pure ?_).safe
    simp only [u32Max] at small
    omega

end functions

/-! ## Reading -/

theorem descendPath_safe (fuel root : Nat) (key : I64) :
    Safe env o k (descendPath env fuel root key) (fun _ => True) := by
  unfold descendPath
  generalize [root] = path
  induction fuel generalizing root path with
  | zero => exact Safe.throw
  | succ fuel ih =>
    rw [descendPathFrom]
    refine Safe.bind (Safe.get _) fun buf _ => Safe.bind (Safe.res fun _ _ => trivial)
      fun pageType _ => ?_
    refine Safe.ite (Safe.pure trivial) ?_
    exact Safe.bind (Safe.res fun _ _ => trivial) fun _ _ =>
      Safe.bind (Safe.res fun _ _ => trivial) fun next _ => ih _ _

theorem collapseRootIfNeeded_safe {root : Nat} (small : root < 4294967296) :
    Safe env o k (collapseRootIfNeeded env root) (fun root => root < 4294967296) := by
  unfold collapseRootIfNeeded
  refine Safe.bind (Safe.get _) fun buf _ => Safe.bind (Safe.res fun _ _ => trivial) fun pageType _ => ?_
  refine Safe.ite (Safe.pure small) (Safe.bind (Safe.res fun _ _ => trivial) fun n _ => ?_)
  exact Safe.ite (Safe.res fun _ ok => readU32_lt ok) (Safe.pure small)

theorem readChain_safe (bound current need : Nat) (out : Bytes) :
    Safe env o k (readChain env bound current need out) (fun _ => True) := by
  induction bound generalizing current need out with
  | zero => exact Safe.pure trivial
  | succ bound ih =>
    rw [readChain]
    refine Safe.ite ?_ (Safe.pure trivial)
    refine Safe.bind (Safe.get _) fun buf _ => Safe.bind (Safe.res fun _ _ => trivial) fun _ _ => ?_
    refine Safe.bind (Safe.res fun _ _ => trivial) fun next _ => Safe.bind Safe.pageSize fun ps _ => ?_
    exact Safe.bind (Safe.res fun _ _ => trivial) fun chunk _ => ih _ _ _

theorem reassemble_safe (cell : LeafCell) : Safe env o k (reassemble env cell) (fun _ => True) := by
  unfold reassemble
  refine Safe.ite (Safe.pure trivial) (Safe.bind Safe.pageSize fun ps _ => ?_)
  exact Safe.bind (readChain_safe _ _ _ _) fun _ _ => Safe.pure trivial

theorem getFrom_safe (fuel current : Nat) (key : I64) :
    Safe env o k (Btree.getFrom env fuel current key) (fun _ => True) := by
  induction fuel generalizing current with
  | zero => exact Safe.throw
  | succ fuel ih =>
    rw [Btree.getFrom_succ]
    refine Safe.bind Safe.pageSize fun ps _ => Safe.bind (Safe.get _) fun buf _ => ?_
    refine Safe.bind (Safe.res fun _ _ => trivial) fun pageType _ => ?_
    refine Safe.ite ?_ ?_
    · refine Safe.bind (Safe.res fun _ _ => trivial) fun found _ => ?_
      cases found with
      | found index =>
        unfold Btree.getFound
        refine Safe.bind (Safe.res fun _ _ => trivial) fun cell _ => Safe.bind (reassemble_safe cell)
          fun full _ => ?_
        exact Safe.bind (Safe.res fun _ _ => trivial) fun row _ => Safe.pure trivial
      | insertAt index => exact Safe.pure trivial
    · exact Safe.bind (Safe.res fun _ _ => trivial) fun _ _ =>
        Safe.bind (Safe.res fun _ _ => trivial) fun next _ => ih _

theorem get_safe (fuel : Nat) (key : I64) : Safe env o k (Btree.get env fuel key) (fun _ => True) := by
  unfold Btree.get
  exact Safe.bind Safe.rootPageId fun root _ => Safe.ite (Safe.pure trivial) (getFrom_safe _ _ _)

theorem scanLeaf_safe (buf : Bytes) (maxLocal i count : Nat) (out : List (I64 × Row)) :
    Safe env o k (Btree.scanLeaf env buf maxLocal i count out) (fun _ => True) := by
  induction count generalizing i out with
  | zero => exact Safe.pure trivial
  | succ count ih =>
    rw [Btree.scanLeaf]
    refine Safe.bind (Safe.res fun _ _ => trivial) fun cell _ => Safe.bind (reassemble_safe cell)
      fun full _ => ?_
    exact Safe.bind (Safe.res fun _ _ => trivial) fun row _ => ih _ _

theorem Safe.foldlM {α β : Type} {f : α → β → PoolM α} [appends : ∀ a b, Appends (f a b)]
    (h : ∀ a b, Safe env o k (f a b) (fun _ => True)) (l : List β) (a : α) :
    Safe env o k (l.foldlM f a) (fun _ => True) := by
  induction l generalizing a with
  | nil => exact Safe.pure trivial
  | cons b l ih =>
    rw [List.foldlM_cons]
    have rest := Moving.foldlM appends l
    exact Safe.bind (h a b) fun a' _ => ih a'

theorem scanNode_safe (fuel : Nat) (out : List (I64 × Row)) (id : Nat) :
    Safe env o k (Btree.scanNode env fuel out id) (fun _ => True) := by
  induction fuel generalizing out id with
  | zero => exact Safe.throw
  | succ fuel ih =>
    rw [Btree.scanNode]
    have fold : ∀ children out, Appends (List.foldlM (Btree.scanNode env fuel) out children) :=
      Moving.foldlM inferInstance
    refine Safe.bind (Safe.get _) fun buf _ => Safe.bind (Safe.res fun _ _ => trivial)
      fun pageType _ => ?_
    refine Safe.ite ?_ ?_
    · exact Safe.bind Safe.pageSize fun ps _ => Safe.bind (Safe.res fun _ _ => trivial) fun n _ =>
        scanLeaf_safe _ _ _ _ _
    · exact Safe.bind (Safe.res fun _ _ => trivial) fun _ _ =>
        Safe.bind (Safe.res fun _ _ => trivial) fun entries _ => Safe.foldlM ih _ _

theorem scan_safe (fuel : Nat) : Safe env o k (Btree.scan env fuel) (fun _ => True) := by
  unfold Btree.scan
  exact Safe.bind Safe.rootPageId fun root _ => Safe.ite (Safe.pure trivial) (scanNode_safe _ _ _)

/-! ## Calls that commit -/

/-- The call committed a root, with the next id at `j` or beyond. -/
def Changed (env : Env) (o : Origin) (j : Nat) (s : BufferPool) : Prop :=
  ∃ n root, j ≤ n ∧ root < 4294967296 ∧ ¬ o.start.pager.TxnOverflow env ∧ Committed env o o.base n root s

/-- The call failed: before it wrote a meta slot, or by an I/O error while it did. -/
def Halted (env : Env) (o : Origin) (j : Nat) (e : Stop) (s : BufferPool) : Prop :=
  Failed env o s ∨
    e = Stop.io ∧ Faulted env o s ∧ ∃ n root, j ≤ n ∧ root < 4294967296 ∧
      HalfCommitted env o o.base n root s

/-- `x` ends in a commit or fails. -/
def Commits {α : Type} (env : Env) (o : Origin) (k j : Nat) (x : PoolM α) : Prop :=
  Triple Exhausted (Past env o k) x (fun _ => Changed env o j) (Halted env o j)

variable {j : Nat}

theorem Commits.ofSafe {α β : Type} {x : PoolM α} {f : α → PoolM β} {Q : α → Prop}
    (first : Safe env o k x Q) (rest : ∀ a, Q a → Commits env o k j (f a))
    [appends : ∀ a, Appends (f a)] :
    Commits env o k j (x >>= f) :=
  Triple.bind (Triple.conseq first (fun _ h => h) (fun _ _ h => h) (fun _ _ failed => Or.inl failed))
    fun a => Triple.of_fact (appends a).exhausted (rest a)

theorem Commits.ofAllocates {α β : Type} {x : PoolM α} {f : α → PoolM β} {Q : α → Prop}
    (first : Allocates env o k x Q) (rest : ∀ a, Q a → Commits env o (k + 1) j (f a))
    [appends : ∀ a, Appends (f a)] :
    Commits env o k j (x >>= f) :=
  Triple.bind (Triple.conseq first (fun _ h => h) (fun _ _ h => h) (fun _ _ failed => Or.inl failed))
    fun a => Triple.of_fact (appends a).exhausted (rest a)

theorem Commits.throw {α : Type} {e : Stop} : Commits env o k j (throw e : PoolM α) :=
  Triple.throw fun _ past => Or.inl past.failed

theorem Commits.ite {α : Type} {c : Prop} [Decidable c] {x y : PoolM α} (left : Commits env o k j x)
    (right : Commits env o k j y) : Commits env o k j (if c then x else y) := by
  split
  · exact left
  · exact right

/-- The last step of every change. -/
theorem commit_commits {α : Type} {root : Nat} (small : root < 4294967296) (a : α) :
    Commits env o k k (BufferPool.commit env root >>= fun _ => pure a) := by
  refine Triple.bind (R := fun _ => Changed env o k) (Triple.ofEnds inferInstance ?_)
    fun _ => Triple.pure fun _ changed => changed
  rintro s ⟨n, low, during⟩
  have reached := commit_ends during root
  cases run : BufferPool.commit env root s with
  | ok _ s' =>
    rw [run] at reached
    exact ⟨n, root, low, small, reached⟩
  | error e s' =>
    rw [run] at reached
    rcases reached with failed | ⟨io, faulted, half⟩ | ⟨-, -, still, -⟩
    · exact Or.inl failed.failedIo.failed
    · exact Or.inr ⟨io, faulted, n, root, low, small, half⟩
    · exact Or.inl still.failed

section changes

variable (fresh : ∀ id, o.start.nextPageId ≤ id → o.writable id)
include fresh

theorem insert_commits (fuel : Nat) (key : I64) (row : Row) :
    Commits env o k (k + 1) (Btree.insert env fuel key row) := by
  rw [Btree.insert_eq]
  refine Commits.ofSafe Safe.rootPageId fun root _ => Commits.ite ?_ ?_
  · unfold Btree.insertFirst
    refine Commits.ofSafe (buildRowCell_safe fresh key row) fun cell _ => ?_
    refine Commits.ofSafe Safe.pageSize fun ps same => ?_
    subst same
    refine Commits.ofSafe (Safe.res fun _ ok => initSlotted_length ok) fun buf len => ?_
    refine Commits.ofSafe (Safe.res fun _ ok => insertCellAt_length ok) fun buf' len' => ?_
    have sized : buf'.length = o.start.pager.pageSize.bytes := by rw [len', len, List.length_replicate]
    refine Commits.ofAllocates allocatePageId_allocates fun id both => ?_
    refine Commits.ofSafe (Safe.putNew (fresh id both.1) sized) fun _ _ => commit_commits ?_ _
    have := both.2
    simp only [u32Max] at this
    omega
  · refine Commits.ofSafe (descendPath_safe _ _ _) fun path _ => ?_
    refine Commits.ofSafe (Safe.res fun _ _ => trivial) fun leafId _ => ?_
    refine Commits.ofSafe (Safe.get leafId) fun leafBuf len => ?_
    refine Commits.ofSafe (Safe.res fun _ _ => trivial) fun found _ => ?_
    cases found with
    | found index => exact Commits.throw
    | insertAt insertIdx =>
      unfold Btree.insertFound
      refine Commits.ofSafe (buildRowCell_safe fresh key row) fun cell _ => ?_
      refine Commits.ofAllocates (leafInsertOrSplit_allocates fresh len insertIdx cell)
        fun result small => ?_
      refine Commits.ofSafe (propagate_safe fresh _ _ small) fun result small => ?_
      exact Commits.ofSafe (finalizeRoot_safe fresh small) fun newRoot small => commit_commits small _

theorem update_commits (fuel : Nat) (key : I64) (row : Row) :
    Commits env o k (k + 1) (Btree.update env fuel key row) := by
  rw [Btree.update_eq]
  refine Commits.ofSafe Safe.rootPageId fun root _ => Commits.ite Commits.throw ?_
  refine Commits.ofSafe (descendPath_safe _ _ _) fun path _ => ?_
  refine Commits.ofSafe (Safe.res fun _ _ => trivial) fun leafId _ => ?_
  refine Commits.ofSafe (Safe.get leafId) fun leafBuf len => ?_
  refine Commits.ofSafe (Safe.res fun _ _ => trivial) fun found _ => ?_
  cases found with
  | insertAt index => exact Commits.throw
  | found index =>
    unfold Btree.updateFound
    refine Commits.ofSafe (buildRowCell_safe fresh key row) fun cell _ => ?_
    refine Commits.ofSafe (Safe.res fun _ ok => removeCellAt_length ok) fun removed removedLen => ?_
    refine Commits.ofAllocates (leafInsertOrSplit_allocates fresh (removedLen.trans len) index cell)
      fun result small => ?_
    refine Commits.ofSafe (propagate_safe fresh _ _ small) fun result small => ?_
    exact Commits.ofSafe (finalizeRoot_safe fresh small) fun newRoot small => commit_commits small _

theorem delete_commits (fuel : Nat) (key : I64) :
    Commits env o k (k + 1) (Btree.delete env fuel key) := by
  rw [Btree.delete_eq]
  refine Commits.ofSafe Safe.rootPageId fun root _ => Commits.ite Commits.throw ?_
  refine Commits.ofSafe Safe.pageSize fun ps _ => ?_
  refine Commits.ofSafe (descendPath_safe _ _ _) fun path _ => ?_
  refine Commits.ofSafe (Safe.res fun _ _ => trivial) fun leafId _ => ?_
  refine Commits.ofSafe (Safe.get leafId) fun leafBuf len => ?_
  refine Commits.ofSafe (Safe.res fun _ _ => trivial) fun found _ => ?_
  cases found with
  | insertAt index => exact Commits.throw
  | found index =>
    unfold Btree.deleteFound
    refine Commits.ofSafe (Safe.res fun _ _ => trivial) fun cell _ => ?_
    refine Commits.ofSafe (reassemble_safe cell) fun full _ => ?_
    refine Commits.ofSafe (Safe.res fun _ _ => trivial) fun row _ => ?_
    refine Commits.ofSafe (Safe.res fun _ ok => removeCellAt_length ok) fun removed removedLen => ?_
    unfold Btree.deleteRemoved
    refine Commits.ofAllocates allocatePageId_allocates fun newLeafId both => ?_
    refine Commits.ofSafe (Safe.putNew (fresh newLeafId both.1) (removedLen.trans len)) fun _ _ => ?_
    refine Commits.ofSafe (propagate_safe fresh _ _ (NodeResult.small_replaced both.2))
      fun result small => ?_
    refine Commits.ofSafe (finalizeRoot_safe fresh small) fun newRoot small => ?_
    exact Commits.ofSafe (collapseRootIfNeeded_safe small) fun newRoot small => commit_commits small _

end changes

end Pinax
