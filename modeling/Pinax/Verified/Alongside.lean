import Pinax.Library.Lockstep
import Pinax.Verified.DurableMap
import Pinax.Verified.Stops

/-! # Two pools side by side

The B-tree reaches the pool through five calls only.  Where these run in lockstep over two pools,
possibly in two builds, so does every call of the database.
-/

namespace Pinax

open Hoare (Agrees Lockstep final)
open BufferPool (allocatePageId putNew)

/-- Two builds: the same one, or a `dev` build whose panics give up, beside any other. -/
class Builds (E : Stop → Prop) (profile profile' : Profile) : Prop where
  either : profile' = profile ∨ profile = .dev ∧ E .panic

/-- Related pools have the same pager. -/
class SamePager (R : BufferPool → BufferPool → Prop) : Prop where
  pager : ∀ s t, R s t → t.pager = s.pager

/-- Pools in states related by `R`, of which the first gives up with an error in `E` or escapes. -/
class Alongside (env env' : Env) (esc : BufferPool → Prop) (E : Stop → Prop)
    (R : BufferPool → BufferPool → Prop) : Prop where
  get : ∀ id, Lockstep esc E R (BufferPool.get env id) (BufferPool.get env' id)
  put : ∀ {α : Type} (buf : Bytes) {f g : Nat → PoolM α}, (∀ id, Lockstep esc E R (f id) (g id)) →
    Lockstep esc E R (allocatePageId env >>= fun id => putNew env id buf >>= fun _ => f id)
      (allocatePageId env' >>= fun id => putNew env' id buf >>= fun _ => g id)
  commit : ∀ root, Lockstep esc E R (BufferPool.commit env root) (BufferPool.commit env' root)

variable {env env' : Env} {esc : BufferPool → Prop} {E : Stop → Prop}
  {R : BufferPool → BufferPool → Prop} {profile profile' : Profile}

/-! ## Laying out pages -/

section layout

variable [builds : Builds E profile profile']

instance (wrapped : Nat) : Agrees E (profile.overflow wrapped) (profile'.overflow wrapped) := by
  cases builds.either with
  | inl same =>
    rw [same]
    exact .refl
  | inr dev =>
    rw [dev.1]
    exact .giveUp dev.2

instance (width a b : Nat) : Agrees E (addW profile width a b) (addW profile' width a b) := by
    unfold addW; infer_instance
instance (width a b : Nat) : Agrees E (subW profile width a b) (subW profile' width a b) := by
    unfold subW; infer_instance
instance (width a b : Nat) : Agrees E (mulW profile width a b) (mulW profile' width a b) := by
    unfold mulW; infer_instance

instance (buf : Bytes) (pageType : Nat) :
    Agrees E (initSlotted profile buf pageType) (initSlotted profile' buf pageType) := by
  unfold initSlotted; infer_instance

instance (buf : Bytes) (headerLen : Nat) :
    Agrees E (freeSpace profile buf headerLen) (freeSpace profile' buf headerLen) := by
  unfold freeSpace; infer_instance

instance (buf : Bytes) (headerLen index : Nat) (cell : Bytes) :
    Agrees E (insertCellAt profile buf headerLen index cell)
      (insertCellAt profile' buf headerLen index cell) := by
  unfold insertCellAt
  refine .bind .refl fun n => .bind .refl fun cs => ?_
  simp only
  infer_instance

instance (buf : Bytes) : Agrees E (initLeaf profile buf) (initLeaf profile' buf) := by
    unfold initLeaf; infer_instance

instance (buf : Bytes) (child : Nat) :
    Agrees E (initInterior profile buf child) (initInterior profile' buf child) := by
  unfold initInterior; infer_instance

instance (buf : Bytes) (index maxLocal : Nat) :
    Agrees E (leafCellByteLen profile buf index maxLocal)
      (leafCellByteLen profile' buf index maxLocal) := by
  unfold leafCellByteLen; infer_instance

instance (buf : Bytes) (maxLocal i count : Nat) :
    Agrees E (Btree.collectCells profile buf maxLocal i count)
      (Btree.collectCells profile' buf maxLocal i count) := by
  induction count generalizing i with
  | zero => exact .refl
  | succ count ih => rw [Btree.collectCells, Btree.collectCells]; infer_instance

instance (i : Nat) (cells : List Bytes) (buf : Bytes) :
    Agrees E (Btree.fillLeaf profile i cells buf) (Btree.fillLeaf profile' i cells buf) := by
  induction cells generalizing i buf with
  | nil => exact .refl
  | cons cell cells ih => rw [Btree.fillLeaf, Btree.fillLeaf]; infer_instance

instance (pageSize : Nat) (cells : List Bytes) :
    Agrees E (Btree.buildLeafHalf profile pageSize cells)
      (Btree.buildLeafHalf profile' pageSize cells) := by
  unfold Btree.buildLeafHalf; infer_instance

instance (children : List Nat) (i : Nat) (keys : List I64) (buf : Bytes) :
    Agrees E (insertInteriorCells profile children i keys buf)
      (insertInteriorCells profile' children i keys buf) := by
  induction keys generalizing i buf with
  | nil => exact .refl
  | cons key keys ih => rw [insertInteriorCells, insertInteriorCells]; infer_instance

instance (pageSize : Nat) (keys : List I64) (children : List Nat) :
    Agrees E (buildInteriorPage profile pageSize keys children)
      (buildInteriorPage profile' pageSize keys children) := by
  unfold buildInteriorPage; infer_instance

end layout

/-! ## Reading -/

instance {α σ τ : Type} {esc : σ → Prop} {R : σ → τ → Prop} {r r' : Res α} [agrees : Agrees E r r'] :
    Lockstep esc E R (liftM r : EStateM Stop σ α) (liftM r' : EStateM Stop τ α) := by
  cases agrees.agrees with
  | inl gaveUp =>
    obtain ⟨e, rfl, h⟩ := gaveUp
    exact .giveUp h
  | inr same =>
    subst same
    cases r' with
    | ok a => exact .pure
    | error e => exact .throw

theorem pager_lockstep [shared : SamePager R] {α : Type} (field : Pager → α) :
    Lockstep esc E R (do let s ← MonadState.get; return field s.pager : PoolM α)
      (do let s ← MonadState.get; return field s.pager) where
  stable := fun _ escaped => escaped
  runs := fun s t related => by
    show _ ∨ Hoare.Alike E R (.ok (field s.pager) s) (.ok (field t.pager) t)
    rw [shared.pager s t related]
    exact Or.inr (.ok related)

instance [SamePager R] : Lockstep esc E R BufferPool.pageSize BufferPool.pageSize :=
  pager_lockstep Pager.pageSize
instance [SamePager R] : Lockstep esc E R BufferPool.rootPageId BufferPool.rootPageId :=
  pager_lockstep Pager.rootPageId

section reading

variable [SamePager R] [alongside : Alongside env env' esc E R]

instance (id : Nat) : Lockstep esc E R (BufferPool.get env id) (BufferPool.get env' id) :=
  alongside.get id

instance (bound current need : Nat) (out : Bytes) :
    Lockstep esc E R (readChain env bound current need out) (readChain env' bound current need out) := by
  induction bound generalizing current need out with
  | zero => exact .pure
  | succ bound ih => rw [readChain, readChain]; infer_instance

instance (firstId totalLen : Nat) :
    Lockstep esc E R (readOverflowChain env firstId totalLen)
      (readOverflowChain env' firstId totalLen) := by
  unfold readOverflowChain; infer_instance

instance (cell : LeafCell) : Lockstep esc E R (reassemble env cell) (reassemble env' cell) := by
    unfold reassemble; infer_instance

instance (maxLocal : Nat) (buf : Bytes) (found : SearchResult) :
    Lockstep esc E R (Btree.getFound env maxLocal buf found)
      (Btree.getFound env' maxLocal buf found) := by
  cases found <;> (unfold Btree.getFound; infer_instance)

instance (fuel current : Nat) (key : I64) :
    Lockstep esc E R (Btree.getFrom env fuel current key) (Btree.getFrom env' fuel current key) := by
  induction fuel generalizing current with
  | zero => exact .throw
  | succ fuel ih => rw [Btree.getFrom_succ, Btree.getFrom_succ]; infer_instance

instance (buf : Bytes) (maxLocal i count : Nat) (out : List (I64 × Row)) :
    Lockstep esc E R (Btree.scanLeaf env buf maxLocal i count out)
      (Btree.scanLeaf env' buf maxLocal i count out) := by
  induction count generalizing i out with
  | zero => exact .pure
  | succ count ih => rw [Btree.scanLeaf, Btree.scanLeaf]; infer_instance

instance (fuel : Nat) (out : List (I64 × Row)) (id : Nat) :
    Lockstep esc E R (Btree.scanNode env fuel out id) (Btree.scanNode env' fuel out id) := by
  induction fuel generalizing out id with
  | zero => exact .throw
  | succ fuel ih =>
    rw [Btree.scanNode, Btree.scanNode]
    refine .bind inferInstance fun buf => .bind inferInstance fun _ => ?_
    split
    · infer_instance
    · exact .bind inferInstance fun _ => .bind inferInstance fun _ => .foldlM ih _ _

instance (fuel current : Nat) (key : I64) (path : List Nat) :
    Lockstep esc E R (descendPathFrom env fuel current key path)
      (descendPathFrom env' fuel current key path) := by
  induction fuel generalizing current path with
  | zero => exact .throw
  | succ fuel ih => rw [descendPathFrom, descendPathFrom]; infer_instance

end reading

/-! ## Changing the tree -/

section changing

variable [SamePager R] [Builds E env.profile env'.profile] [alongside : Alongside env env' esc E R]

instance {α : Type} (buf : Bytes) {f g : Nat → PoolM α} [rest : ∀ id, Lockstep esc E R (f id) (g id)] :
    Lockstep esc E R (allocatePageId env >>= fun id => putNew env id buf >>= fun _ => f id)
      (allocatePageId env' >>= fun id => putNew env' id buf >>= fun _ => g id) := alongside.put buf rest

instance (root : Nat) : Lockstep esc E R (BufferPool.commit env root) (BufferPool.commit env' root) :=
  alongside.commit root

instance (chunks : List Bytes) (nextId : Nat) :
    Lockstep esc E R (writeChunks env chunks nextId) (writeChunks env' chunks nextId) := by
  induction chunks generalizing nextId with
  | nil => exact .pure
  | cons chunk chunks ih => rw [writeChunks, writeChunks]; infer_instance

instance (tail : Bytes) :
    Lockstep esc E R (writeOverflowChain env tail) (writeOverflowChain env' tail) := by
  unfold writeOverflowChain; infer_instance

instance (encoded : Bytes) :
    Lockstep esc E R (spillIfNeeded env encoded) (spillIfNeeded env' encoded) := by
  unfold spillIfNeeded; infer_instance

instance (key : I64) (row : Row) :
    Lockstep esc E R (buildRowCell env key row) (buildRowCell env' key row) := by
  unfold buildRowCell; infer_instance

instance (leafBuf : Bytes) (insertIdx : Nat) (newCell : Bytes) :
    Lockstep esc E R (Btree.leafSplitWithNewCell env leafBuf insertIdx newCell)
      (Btree.leafSplitWithNewCell env' leafBuf insertIdx newCell) := by
  unfold Btree.leafSplitWithNewCell
  refine .bind inferInstance fun ps => .bind inferInstance fun n => .bind inferInstance fun oldCells => ?_
  simp only
  refine .bind inferInstance fun leftBuf => .bind inferInstance fun rightBuf => ?_
  infer_instance

instance (leafBuf : Bytes) (insertIdx : Nat) (cell : Bytes) :
    Lockstep esc E R (Btree.leafInsertOrSplit env leafBuf insertIdx cell)
      (Btree.leafInsertOrSplit env' leafBuf insertIdx cell) := by
  unfold Btree.leafInsertOrSplit; infer_instance

instance (pageSize : Nat) (keys : List I64) (children : List Nat) :
    Lockstep esc E R (splitInteriorEntries env pageSize keys children)
      (splitInteriorEntries env' pageSize keys children) := by
  unfold splitInteriorEntries; infer_instance

instance (ancestorId oldChildId : Nat) (result : NodeResult) :
    Lockstep esc E R (applyResultToInterior env ancestorId oldChildId result)
      (applyResultToInterior env' ancestorId oldChildId result) := by
  unfold applyResultToInterior
  refine .bind inferInstance fun ps => ?_
  cases result with
  | replaced id => infer_instance
  | split left right separatorKey => infer_instance

instance (ancestors : List Nat) (oldChildId : Nat) (result : NodeResult) :
    Lockstep esc E R (propagate env ancestors oldChildId result)
      (propagate env' ancestors oldChildId result) := by
  induction ancestors generalizing oldChildId result with
  | nil => exact .pure
  | cons ancestorId ancestors ih => rw [propagate, propagate]; infer_instance

instance (result : NodeResult) :
    Lockstep esc E R (finalizeRoot env result) (finalizeRoot env' result) := by
  cases result with
  | replaced id => exact .pure
  | split left right separatorKey => unfold finalizeRoot; infer_instance

instance (root : Nat) :
    Lockstep esc E R (collapseRootIfNeeded env root) (collapseRootIfNeeded env' root) := by
  unfold collapseRootIfNeeded; infer_instance

instance (key : I64) (row : Row) :
    Lockstep esc E R (Btree.insertFirst env key row) (Btree.insertFirst env' key row) := by
  unfold Btree.insertFirst; infer_instance

instance (key : I64) (row : Row) (path : List Nat) (leafId : Nat) (leafBuf : Bytes)
    (found : SearchResult) :
    Lockstep esc E R (Btree.insertFound env key row path leafId leafBuf found)
      (Btree.insertFound env' key row path leafId leafBuf found) := by
  cases found with
  | found index => exact .throw
  | insertAt index => unfold Btree.insertFound; infer_instance

instance (key : I64) (row : Row) (path : List Nat) (leafId : Nat) (leafBuf : Bytes)
    (found : SearchResult) :
    Lockstep esc E R (Btree.updateFound env key row path leafId leafBuf found)
      (Btree.updateFound env' key row path leafId leafBuf found) := by
  cases found with
  | found index => unfold Btree.updateFound; infer_instance
  | insertAt index => exact .throw

instance (path : List Nat) (leafId : Nat) (buf : Bytes) (removedRow : Row) :
    Lockstep esc E R (Btree.deleteRemoved env path leafId buf removedRow)
      (Btree.deleteRemoved env' path leafId buf removedRow) := by
  unfold Btree.deleteRemoved
  infer_instance

instance (key : I64) (maxLocal : Nat) (path : List Nat) (leafId : Nat) (leafBuf : Bytes)
    (found : SearchResult) :
    Lockstep esc E R (Btree.deleteFound env key maxLocal path leafId leafBuf found)
      (Btree.deleteFound env' key maxLocal path leafId leafBuf found) := by
  cases found with
  | found index => unfold Btree.deleteFound; infer_instance
  | insertAt index => exact .throw

/-- Every call of the database runs in lockstep. -/
theorem Call.lockstep (call : Call) (fuel : Nat) :
    Lockstep esc E R (call.run env fuel) (call.run env' fuel) := by
  cases call with
  | insert key row =>
    simp only [Call.run, Database.insert, Btree.insert_eq, descendPath]
    infer_instance
  | get key =>
    unfold Call.run Database.get Btree.get
    infer_instance
  | update key row =>
    simp only [Call.run, Database.update, Btree.update_eq, descendPath]
    infer_instance
  | delete key =>
    simp only [Call.run, Database.delete, Btree.delete_eq, descendPath]
    infer_instance
  | scan =>
    unfold Call.run Database.scan Btree.scan
    infer_instance

/-! ## Sequences of calls -/

/-- Replies that are the same until one of the first is an error in `E`. -/
inductive AlikeUntil (E : Stop → Prop) : List (Except Stop Reply) → List (Except Stop Reply) → Prop
  | nil : AlikeUntil E [] []
  | cons {r : Except Stop Reply} {rs rs' : List (Except Stop Reply)} :
      AlikeUntil E rs rs' → AlikeUntil E (r :: rs) (r :: rs')
  | gaveUp {e : Stop} {rs rs' : List (Except Stop Reply)} : E e → AlikeUntil E (.error e :: rs) rs'

theorem replies_alike {fuel : Nat} {calls : List Call} {s t : Database} (related : R s t)
    (within : ¬ esc (afterCalls env fuel calls s)) :
    AlikeUntil E (replies env fuel calls s) (replies env' fuel calls t) := by
  induction calls generalizing s t with
  | nil => exact .nil
  | cons call calls ih =>
    have step : ∀ call : Call, Lockstep esc E R (call.run env fuel) (call.run env' fuel) :=
      fun call => call.lockstep fuel
    have later : ∀ calls s, esc s → esc (afterCalls env fuel calls s) := by
      intro calls
      induction calls with
      | nil => exact fun s escaped => escaped
      | cons call calls ih => exact fun s escaped => ih _ ((step call).stable s escaped)
    rw [replies, replies]
    cases (step call).runs s t related with
    | inl escaped => exact absurd (later calls _ escaped) within
    | inr alike =>
      have within : ¬ esc (afterCalls env fuel calls (final (call.run env fuel s))) := within
      generalize call.run env fuel s = first, call.run env' fuel t = second at alike within
      cases alike with
      | ok related => exact .cons (ih related within)
      | error related => exact .cons (ih related within)
      | gaveUp h => exact .gaveUp h

end changing

end Pinax
