import Pinax.Database
import Pinax.Verified.Commit
import Pinax.Verified.Lengths

/-! # Every operation stays within its own pages

Whatever the pages of the tree hold, an operation only puts pages under ids it has just allocated, until
it commits.  `Safe` is that statement about a program; it is closed under sequencing, so every function
of the tree gets it from the functions it calls.
-/

namespace Pinax

open Hoare (Triple)

/-- Within an operation from `o`, with the next id at `k` or beyond. -/
def Past (env : Env) (o : Origin) (k : Nat) (s : BufferPool) : Prop :=
  ∃ n, k ≤ n ∧ During env o o.base n s

/-- `x` keeps within the operation, also when it fails, and returns values with `Q`. -/
def Safe {α : Type} (env : Env) (o : Origin) (k : Nat) (x : PoolM α) (Q : α → Prop) : Prop :=
  Triple Exhausted (Past env o k) x (fun a s => Q a ∧ Past env o k s) (fun _ => Failed env o)

variable {env : Env} {o : Origin} {k : Nat}

theorem Past.failed {s : BufferPool} (h : Past env o k s) : Failed env o s := by
  obtain ⟨n, -, during⟩ := h
  exact ⟨n, during⟩

theorem Past.mono {k' : Nat} {s : BufferPool} (h : Past env o k s) (le : k' ≤ k) : Past env o k' s := by
  obtain ⟨n, low, during⟩ := h
  exact ⟨n, Nat.le_trans le low, during⟩

/-- A triple that holds from every state of the operation. -/
theorem Safe.ofDuring {α : Type} {x : PoolM α} {Q : α → Prop} {k' : Nat}
    (h : ∀ n, k ≤ n → Triple Exhausted (During env o o.base n) x (fun a s => Q a ∧ Past env o k' s)
      (fun _ => Failed env o)) :
    Triple Exhausted (Past env o k) x (fun a s => Q a ∧ Past env o k' s) (fun _ => Failed env o) where
  stable := (h k (Nat.le_refl _)).stable
  post := fun s ⟨n, low, during⟩ => (h n low).post s during

namespace Safe

variable {α β : Type} {Q : α → Prop} {R : β → Prop}

theorem pure {a : α} (h : Q a) : Safe env o k (pure a) Q := Triple.pure fun _ past => ⟨h, past⟩

theorem throw {e : Stop} : Safe env o k (throw e : PoolM α) Q := Triple.throw fun _ past => past.failed

theorem res {r : Res α} (h : ∀ a, r = .ok a → Q a) : Safe env o k (liftM r) Q := by
  cases r with
  | ok a => exact pure (h a rfl)
  | error e => exact throw

theorem bind {x : PoolM α} {f : α → PoolM β} (first : Safe env o k x Q)
    (rest : ∀ a, Q a → Safe env o k (f a) R)
    [appends : ∀ a, Appends (f a)] :
    Safe env o k (x >>= f) R :=
  Triple.bind first fun a => Triple.of_fact (appends a).exhausted (rest a)

theorem ite {c : Prop} [Decidable c] {x y : PoolM α} (left : Safe env o k x Q)
    (right : Safe env o k y Q) :
    Safe env o k (if c then x else y) Q := by
  split
  · exact left
  · exact right

theorem get (id : Nat) :
    Safe env o k (BufferPool.get env id) (fun buf => buf.length = o.start.pager.pageSize.bytes) :=
  Safe.ofDuring fun n low => (get_any id).weaken fun _ _ both => ⟨both.2, n, low, both.1⟩

theorem pageSize : Safe env o k BufferPool.pageSize (fun ps => ps = o.start.pager.pageSize) :=
  Safe.ofDuring fun n low => pageSize_spec.weaken fun _ _ both => ⟨both.1, n, low, both.2⟩

theorem rootPageId : Safe env o k BufferPool.rootPageId (fun root => root = o.start.pager.rootPageId) :=
  Safe.ofDuring fun n low => rootPageId_spec.weaken fun _ _ both => ⟨both.1, n, low, both.2⟩

theorem putNew {id : Nat} {buf : Bytes} (may : o.writable id)
    (len : buf.length = o.start.pager.pageSize.bytes) :
    Safe env o k (BufferPool.putNew env id buf) (fun _ => True) :=
  Safe.ofDuring fun n low => (putNew_spec may len).conseq (fun _ h => h)
    (fun _ _ during => ⟨trivial, n, low, during.weaken
      (fun id' content known => by
        have ne : id' ≠ id := by
          rintro rfl
          exact o.safe id' content known may
        rw [withPage_other ne]
        exact known)
      (fun _ _ known => known)⟩)
    (fun _ _ failed => failed.failed)

end Safe

/-- As `Safe`, and at least one page id is handed out. -/
def Allocates {α : Type} (env : Env) (o : Origin) (k : Nat) (x : PoolM α) (Q : α → Prop) : Prop :=
  Triple Exhausted (Past env o k) x (fun a s => Q a ∧ Past env o (k + 1) s) (fun _ => Failed env o)

theorem allocatePageId_allocates :
    Allocates env o k (BufferPool.allocatePageId env) (fun id => o.start.nextPageId ≤ id ∧ id < u32Max) :=
  Safe.ofDuring fun n low => allocatePageId_spec.conseq (fun _ h => h)
    (R := fun id s => (o.start.nextPageId ≤ id ∧ id < u32Max) ∧ Past env o (k + 1) s)
    (fun id s both => ⟨by rw [both.1]; exact ⟨both.2.1, both.2.2.1⟩, n + 1, by omega, both.2.2.2⟩)
    (fun _ _ failed => failed.failed)

/-! ## What the operations do to the trace and to the page ids -/

section moving

variable {rel : BufferPool → BufferPool → Prop} [PoolRel rel]

instance : Moving rel BufferPool.pageSize := by unfold BufferPool.pageSize; infer_instance
instance : Moving rel BufferPool.rootPageId := by unfold BufferPool.rootPageId; infer_instance

instance : Moving rel (onDisk (sync env)) := .onDisk fun d => by
  rcases sync_apply env d with ⟨-, run⟩ | ⟨-, run⟩ <;> rw [run]
  · exact ⟨[.sync d.file], rfl, rfl⟩
  · exact ⟨[], (List.append_nil _).symm, rfl⟩

instance : Moving rel (BufferPool.flushAllDirty env) := by unfold BufferPool.flushAllDirty; infer_instance

instance (root : Nat) : Moving rel (BufferPool.commit env root) := by
  unfold BufferPool.commit
  refine .bind inferInstance fun _ => ⟨fun s => PoolRel.of_sameIds s _ ?_⟩
  show SameIds s (Hoare.final ((onDisk (s.pager.commit env root s.nextPageId) >>= fun pager => modify
    fun s => { s with pager } :
    PoolM PUnit) s))
  rcases Pager.commit_cases env s.pager root s.nextPageId s.disk with
    ⟨-, run⟩ | ⟨-, run⟩ | ⟨-, run⟩ | ⟨_, -, run⟩ | ⟨-, run⟩
  · rw [Hoare.bind_ok (onDisk_ok run)]
    exact ⟨rfl, rfl, _, (List.append_assoc _ _ _).trans (List.append_assoc _ _ _), rfl⟩
  · rw [Hoare.bind_error (onDisk_error run)]
    exact ⟨rfl, rfl, [], (List.append_nil _).symm, rfl⟩
  · rw [Hoare.bind_error (onDisk_error run)]
    exact ⟨rfl, rfl, [.sync _], rfl, rfl⟩
  · rw [Hoare.bind_error (onDisk_error run)]
    exact ⟨rfl, rfl, _, List.append_assoc _ _ _, rfl⟩
  · rw [Hoare.bind_error (onDisk_error run)]
    exact ⟨rfl, rfl, _, List.append_assoc _ _ _, rfl⟩

instance (fuel current : Nat) (key : I64) (path : List Nat) :
    Moving rel (descendPathFrom env fuel current key path) := by
  induction fuel generalizing current path with
  | zero => exact .throw
  | succ fuel ih =>
    rw [descendPathFrom]
    infer_instance

instance (fuel root : Nat) (key : I64) : Moving rel (descendPath env fuel root key) := by
  unfold descendPath; infer_instance

instance (root : Nat) : Moving rel (collapseRootIfNeeded env root) := by
  unfold collapseRootIfNeeded; infer_instance

instance (bound current need : Nat) (out : Bytes) :
    Moving rel (readChain env bound current need out) := by
  induction bound generalizing current need out with
  | zero => exact .pure
  | succ bound ih => rw [readChain]; infer_instance

instance (firstId totalLen : Nat) : Moving rel (readOverflowChain env firstId totalLen) := by
  unfold readOverflowChain; infer_instance

instance (cell : LeafCell) : Moving rel (reassemble env cell) := by
  unfold reassemble; infer_instance

end moving

instance (pageSize : Nat) (keys : List I64) (children : List Nat) :
    Appends (splitInteriorEntries env pageSize keys children) := by
  unfold splitInteriorEntries
  infer_instance

instance (ancestorId oldChildId : Nat) (result : NodeResult) :
    Appends (applyResultToInterior env ancestorId oldChildId result) := by
  unfold applyResultToInterior
  refine .bind inferInstance fun ps => ?_
  cases result with
  | replaced id => infer_instance
  | split left right separatorKey => infer_instance

instance (ancestors : List Nat) (oldChildId : Nat) (result : NodeResult) :
    Appends (propagate env ancestors oldChildId result) := by
  induction ancestors generalizing oldChildId result with
  | nil => exact .pure
  | cons ancestorId ancestors ih => rw [propagate]; infer_instance

instance (result : NodeResult) : Appends (finalizeRoot env result) := by
  cases result with
  | replaced id => exact .pure
  | split left right separatorKey => unfold finalizeRoot; infer_instance

instance (chunks : List Bytes) (nextId : Nat) : Appends (writeChunks env chunks nextId) := by
  induction chunks generalizing nextId with
  | nil => exact .pure
  | cons chunk chunks ih => rw [writeChunks]; infer_instance

instance (tail : Bytes) : Appends (writeOverflowChain env tail) := by
  unfold writeOverflowChain; infer_instance

instance (encoded : Bytes) : Appends (spillIfNeeded env encoded) := by
  unfold spillIfNeeded; infer_instance

instance (key : I64) (row : Row) : Appends (buildRowCell env key row) := by
  unfold buildRowCell; infer_instance

instance (leafBuf : Bytes) (insertIdx : Nat) (newCell : Bytes) :
    Appends (Btree.leafSplitWithNewCell env leafBuf insertIdx newCell) := by
  unfold Btree.leafSplitWithNewCell
  refine .bind inferInstance fun ps => .bind inferInstance fun n => .bind inferInstance fun oldCells =>
    .bind inferInstance fun leftBuf => .bind inferInstance fun rightBuf => ?_
  infer_instance

instance (leafBuf : Bytes) (insertIdx : Nat) (cell : Bytes) :
    Appends (Btree.leafInsertOrSplit env leafBuf insertIdx cell) := by
  unfold Btree.leafInsertOrSplit; infer_instance

/-! The functions that search a leaf, cut after the search; and what `insert` does with an empty
tree. -/

namespace Btree

def getFound (env : Env) (maxLocal : Nat) (buf : Bytes) : SearchResult → PoolM (Option Row)
  | .found index => do
    let cell ← leafCellAt buf index maxLocal
    let full ← reassemble env cell
    let row ← Row.decode full
    return some row
  | .insertAt _ => return none

def insertFirst (env : Env) (key : I64) (row : Row) : PoolM Nat := do
  let cell ← buildRowCell env key row
  let ps ← BufferPool.pageSize
  let buf ← initLeaf env.profile (List.replicate ps.bytes 0)
  let buf ← insertCellAt env.profile buf leafHeaderLen 0 cell
  let id ← BufferPool.allocatePageId env
  BufferPool.putNew env id buf
  BufferPool.commit env id
  return id

def insertFound (env : Env) (key : I64) (row : Row) (path : List Nat) (leafId : Nat) (leafBuf : Bytes) :
    SearchResult → PoolM Nat
  | .found _ => throw (.permanent (.keyAlreadyExists key))
  | .insertAt insertIdx => do
    let cell ← buildRowCell env key row
    let result ← leafInsertOrSplit env leafBuf insertIdx cell
    let result ← propagate env path.dropLast.reverse leafId result
    let newRoot ← finalizeRoot env result
    BufferPool.commit env newRoot
    return newRoot

def updateFound (env : Env) (key : I64) (row : Row) (path : List Nat) (leafId : Nat) (leafBuf : Bytes) :
    SearchResult → PoolM Nat
  | .insertAt _ => throw (.permanent (.keyNotFound key))
  | .found index => do
    let newCell ← buildRowCell env key row
    let (buf, _) ← removeCellAt leafBuf leafHeaderLen index
    let result ← leafInsertOrSplit env buf index newCell
    let result ← propagate env path.dropLast.reverse leafId result
    let newRoot ← finalizeRoot env result
    BufferPool.commit env newRoot
    return newRoot

def deleteRemoved (env : Env) (path : List Nat) (leafId : Nat) (buf : Bytes) (removedRow : Row) :
    PoolM (Nat × Row) := do
  let newLeafId ← BufferPool.allocatePageId env
  BufferPool.putNew env newLeafId buf
  let result ← propagate env path.dropLast.reverse leafId (.replaced newLeafId)
  let newRoot ← finalizeRoot env result
  let newRoot ← collapseRootIfNeeded env newRoot
  BufferPool.commit env newRoot
  return (newRoot, removedRow)

def deleteFound (env : Env) (key : I64) (maxLocal : Nat) (path : List Nat) (leafId : Nat)
    (leafBuf : Bytes) :
    SearchResult → PoolM (Nat × Row)
  | .insertAt _ => throw (.permanent (.keyNotFound key))
  | .found index => do
    let removedCell ← leafCellAt leafBuf index maxLocal
    let removedFull ← reassemble env removedCell
    let removedRow ← Row.decode removedFull
    let (buf, _) ← removeCellAt leafBuf leafHeaderLen index
    deleteRemoved env path leafId buf removedRow

theorem getFrom_succ (fuel current : Nat) (key : I64) :
    getFrom env (fuel + 1) current key = (do
      let ps ← BufferPool.pageSize
      let buf ← BufferPool.get env current
      let pageType ← readU8 buf 0
      if pageType = pageTypeLeaf then getFound env ps.maxLocal buf (← leafSearch buf key)
      else
        Pager.expectPageType current buf pageTypeInterior "interior"
        let next ← interiorFindChildForKey buf key
        getFrom env fuel next key) := rfl

theorem insert_eq (fuel : Nat) (key : I64) (row : Row) :
    insert env fuel key row = (do
      let root ← BufferPool.rootPageId
      if root = emptyTreeRoot then insertFirst env key row
      else
        let path ← descendPath env fuel root key
        let leafId ← lastOf path
        let leafBuf ← BufferPool.get env leafId
        insertFound env key row path leafId leafBuf (← leafSearch leafBuf key)) := rfl

theorem update_eq (fuel : Nat) (key : I64) (row : Row) :
    update env fuel key row = (do
      let root ← BufferPool.rootPageId
      if root = emptyTreeRoot then throw (.permanent (.keyNotFound key))
      else
        let path ← descendPath env fuel root key
        let leafId ← lastOf path
        let leafBuf ← BufferPool.get env leafId
        updateFound env key row path leafId leafBuf (← leafSearch leafBuf key)) := rfl

theorem delete_eq (fuel : Nat) (key : I64) :
    delete env fuel key = (do
      let root ← BufferPool.rootPageId
      if root = emptyTreeRoot then throw (.permanent (.keyNotFound key))
      else
        let ps ← BufferPool.pageSize
        let path ← descendPath env fuel root key
        let leafId ← lastOf path
        let leafBuf ← BufferPool.get env leafId
        deleteFound env key ps.maxLocal path leafId leafBuf (← leafSearch leafBuf key)) := rfl

end Btree

section reading

variable {rel : BufferPool → BufferPool → Prop} [PoolRel rel]

instance (maxLocal : Nat) (buf : Bytes) (found : SearchResult) :
    Moving rel (Btree.getFound env maxLocal buf found) := by
  cases found <;> (unfold Btree.getFound; infer_instance)

instance (fuel current : Nat) (key : I64) : Moving rel (Btree.getFrom env fuel current key) := by
  induction fuel generalizing current with
  | zero => exact .throw
  | succ fuel ih =>
    rw [Btree.getFrom_succ]
    infer_instance

instance (fuel : Nat) (key : I64) : Moving rel (Btree.get env fuel key) := by
  unfold Btree.get; infer_instance

instance (buf : Bytes) (maxLocal i count : Nat) (out : List (I64 × Row)) :
    Moving rel (Btree.scanLeaf env buf maxLocal i count out) := by
  induction count generalizing i out with
  | zero => exact .pure
  | succ count ih => rw [Btree.scanLeaf]; infer_instance

theorem Moving.foldlM {α β : Type} {f : α → β → PoolM α} (moving : ∀ a b, Moving rel (f a b))
    (l : List β) (a : α) :
    Moving rel (l.foldlM f a) := by
  induction l generalizing a with
  | nil => exact .pure
  | cons b l ih => rw [List.foldlM_cons]; exact .bind (moving a b) ih

instance (fuel : Nat) (out : List (I64 × Row)) (id : Nat) :
    Moving rel (Btree.scanNode env fuel out id) := by
  induction fuel generalizing out id with
  | zero => exact .throw
  | succ fuel ih =>
    rw [Btree.scanNode]
    refine .bind inferInstance fun buf => .bind inferInstance fun _ => ?_
    split
    · infer_instance
    · exact .bind inferInstance fun _ => .bind inferInstance fun _ => .foldlM ih _ _

instance (fuel : Nat) : Moving rel (Btree.scan env fuel) := by
  unfold Btree.scan; infer_instance

end reading

instance (key : I64) (row : Row) : Appends (Btree.insertFirst env key row) := by
  unfold Btree.insertFirst; infer_instance

instance (key : I64) (row : Row) (path : List Nat) (leafId : Nat) (leafBuf : Bytes)
    (found : SearchResult) :
    Appends (Btree.insertFound env key row path leafId leafBuf found) := by
  cases found <;> (unfold Btree.insertFound; infer_instance)

instance (key : I64) (row : Row) (path : List Nat) (leafId : Nat) (leafBuf : Bytes)
    (found : SearchResult) :
    Appends (Btree.updateFound env key row path leafId leafBuf found) := by
  cases found <;> (unfold Btree.updateFound; infer_instance)

instance (path : List Nat) (leafId : Nat) (buf : Bytes) (removedRow : Row) :
    Appends (Btree.deleteRemoved env path leafId buf removedRow) := by
  unfold Btree.deleteRemoved; infer_instance

instance (key : I64) (maxLocal : Nat) (path : List Nat) (leafId : Nat) (leafBuf : Bytes)
    (found : SearchResult) :
    Appends (Btree.deleteFound env key maxLocal path leafId leafBuf found) := by
  cases found <;> (unfold Btree.deleteFound; infer_instance)

instance (fuel : Nat) (key : I64) (row : Row) : Appends (Btree.insert env fuel key row) := by
  rw [Btree.insert_eq]; infer_instance

instance (fuel : Nat) (key : I64) (row : Row) : Appends (Btree.update env fuel key row) := by
  rw [Btree.update_eq]; infer_instance

instance (fuel : Nat) (key : I64) : Appends (Btree.delete env fuel key) := by
  rw [Btree.delete_eq]; infer_instance

end Pinax
