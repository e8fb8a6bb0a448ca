import Pinax.Library.Raises
import Pinax.Verified.Session
import Pinax.Verified.RowGrammar

/-! # How the functions can stop

Whatever bytes the pages hold: the functions that only read stop with errors of their own, the
functions that lay out pages may panic besides, and only the three that follow child ids can go on
for ever.
-/

namespace Pinax

open Hoare (Fails Raises)

/-- The errors of the program are among `E`. -/
class Errs (E : Stop → Prop) : Prop where
  err : ∀ err, E (.err err)

/-- Running on is among `E`. -/
class Loops (E : Stop → Prop) : Prop where
  running : E .running

/-- The panics of the build are among `E`. -/
class Overflows (profile : Profile) (E : Stop → Prop) : Prop where
  panic : profile = .dev → E .panic

instance : Errs (fun e => e ≠ .running) := ⟨fun _ same => by cases same⟩
instance (profile : Profile) : Overflows profile (fun e => e ≠ .running) := ⟨fun _ same => by cases same⟩
instance : Errs (fun e => e ≠ .panic) := ⟨fun _ same => by cases same⟩
instance : Loops (fun e => e ≠ .panic) := ⟨fun same => by cases same⟩

variable {E : Stop → Prop} {env : Env} {profile : Profile}

/-! ## Evictions end -/

theorem writeDataPage_entries {s s' : BufferPool} {u : Unit} {id : Nat} {buf : Bytes}
    (run : writeDataPage env (fun _ => pure ()) id buf s = .ok u s') : s'.entries = s.entries := by
  rw [writeDataPage] at run
  cases stamp : stampChecksum env buf with
  | error e =>
    rw [stamp] at run
    cases run
  | ok stampedBuf =>
    rw [stamp, liftM_ok, Hoare.bind_ok (Hoare.pure_apply _ _), Hoare.bind_ok (Hoare.pure_apply _ _),
      Hoare.get_bind] at run
    cases file : s.pager.writeStamped env id stampedBuf s.disk with
    | error e d =>
      rw [onDisk_error file] at run
      cases run
    | ok a d =>
      rw [onDisk_ok file] at run
      obtain ⟨-, rfl⟩ := EStateM.Result.ok.inj run
      rfl

/-- An eviction removes a page from the cache. -/
theorem evictOne_shorter {s s' : BufferPool} {u : Unit} (run : BufferPool.evictOne env s = .ok u s') :
    s'.entries.keys.length < s.entries.keys.length := by
  rw [BufferPool.evictOne, Hoare.get_bind] at run
  cases oldest : s.recency with
  | nil =>
    rw [oldest] at run
    cases run
  | cons id rest =>
    rw [oldest] at run
    simp only at run
    rw [Hoare.modify_bind] at run
    cases found : s.entries.lookup id with
    | none =>
      rw [found] at run
      cases run
    | some buf =>
      rw [found] at run
      simp only at run
      rw [Hoare.modify_bind] at run
      have member : id ∈ s.entries.keys := AList.mem_keys.mp (AList.lookup_isSome.mp (by rw [found]; rfl))
      have shorter : (s.entries.erase id).keys.length < s.entries.keys.length := by
        have positive := List.length_pos_of_mem member
        rw [AList.keys_erase, List.length_erase_of_mem member]
        omega
      split at run
      · rw [Hoare.modify_bind] at run
        rw [writeDataPage_entries run]
        exact shorter
      · obtain ⟨-, rfl⟩ := EStateM.Result.ok.inj run
        exact shorter

/-! ## Reading bytes -/

variable [errs : Errs E]

theorem Res.Typed.fails {α : Type} {r : Res α} (typed : r.Typed) : Fails E r := ⟨fun e run => by
  obtain ⟨err, rfl⟩ := typed e run
  exact errs.err err⟩

instance {α σ : Type} {r : Res α} [fails : Fails E r] : Raises E (liftM r : EStateM Stop σ α) :=
  ⟨fun s e s' run => by
  cases r with
  | ok a => cases run
  | error e' =>
    obtain ⟨rfl, -⟩ := EStateM.Result.error.inj run
    exact fails.fails e' rfl⟩

instance {α : Type} (e : PinaxError) : Fails E (.error (.err e) : Res α) := .error (errs.err e)
instance {α σ : Type} (e : PinaxError) : Raises E (throw (.err e) : EStateM Stop σ α) :=
  .throw (errs.err e)

instance (buf : Bytes) (at' n : Nat) : Fails E (readBytes buf at' n) := (readBytes_typed buf at' n).fails
instance (buf : Bytes) (at' : Nat) : Fails E (readU8 buf at') := by unfold readU8; infer_instance
instance (buf : Bytes) (at' : Nat) : Fails E (readU16 buf at') := by unfold readU16; infer_instance
instance (buf : Bytes) (at' : Nat) : Fails E (readU32 buf at') := by unfold readU32; infer_instance
instance (buf : Bytes) (at' : Nat) : Fails E (readI64 buf at') := by unfold readI64; infer_instance
instance (buf : Bytes) (at' n : Nat) : Fails E (readVec buf at' n) := by unfold readVec; infer_instance

instance (buf : Bytes) (at' : Nat) (bytes : Bytes) : Fails E (writeBytes buf at' bytes) := by
  unfold writeBytes bufferBounds Stop.fatal
  infer_instance

instance (buf : Bytes) (at' v : Nat) : Fails E (writeU8 buf at' v) := by unfold writeU8; infer_instance
instance (buf : Bytes) (at' v : Nat) : Fails E (writeU16 buf at' v) := by unfold writeU16; infer_instance
instance (buf : Bytes) (at' v : Nat) : Fails E (writeU32 buf at' v) := by unfold writeU32; infer_instance
instance (buf : Bytes) (at' v : Nat) : Fails E (writeU64 buf at' v) := by unfold writeU64; infer_instance

instance (buf : Bytes) : Fails E (numCells buf) := by unfold numCells; infer_instance
instance (buf : Bytes) : Fails E (contentStart buf) := by unfold contentStart; infer_instance
instance (buf : Bytes) (headerLen index : Nat) : Fails E (pointerAt buf headerLen index) := by
    unfold pointerAt; infer_instance
instance (buf : Bytes) (index : Nat) : Fails E (leafKeyAt buf index) := by
    unfold leafKeyAt; infer_instance
instance (buf : Bytes) (index : Nat) : Fails E (interiorKeyAt buf index) := by
    unfold interiorKeyAt; infer_instance
instance (buf : Bytes) (index : Nat) : Fails E (interiorChildAt buf index) := by
    unfold interiorChildAt; infer_instance
instance (buf : Bytes) : Fails E (interiorRightmost buf) := by unfold interiorRightmost; infer_instance
instance (buf : Bytes) (index maxLocal : Nat) : Fails E (leafCellAt buf index maxLocal) := by
    unfold leafCellAt; infer_instance

instance (buf : Bytes) (key : I64) (bound lo hi : Nat) :
    Fails E (leafSearchLoop buf key bound lo hi) := by
  induction bound generalizing lo hi with
  | zero => exact .ok
  | succ bound ih => rw [leafSearchLoop]; infer_instance

instance (buf : Bytes) (key : I64) : Fails E (leafSearch buf key) := by unfold leafSearch; infer_instance

instance (buf : Bytes) (key : I64) (i count : Nat) : Fails E (findChildForKeyFrom buf key i count) := by
  induction count generalizing i with
  | zero => rw [findChildForKeyFrom]; infer_instance
  | succ count ih => rw [findChildForKeyFrom]; infer_instance

instance (buf : Bytes) (key : I64) : Fails E (interiorFindChildForKey buf key) := by
  unfold interiorFindChildForKey; infer_instance

instance (buf : Bytes) (childId i count : Nat) : Fails E (findChildSlotFrom buf childId i count) := by
  induction count generalizing i with
  | zero => exact .ok
  | succ count ih => rw [findChildSlotFrom]; infer_instance

instance (buf : Bytes) (childId : Nat) : Fails E (interiorFindChildSlot buf childId) := by
  unfold interiorFindChildSlot; infer_instance

instance (buf : Bytes) (i count : Nat) : Fails E (interiorEntriesFrom buf i count) := by
  induction count generalizing i with
  | zero => exact .ok
  | succ count ih => rw [interiorEntriesFrom]; infer_instance

instance (buf : Bytes) : Fails E (interiorEntries buf) := by unfold interiorEntries; infer_instance
instance (buf : Bytes) : Fails E (Row.decode buf) := (Row.decode_typed buf).fails
instance (buf : Bytes) : Fails E (stampChecksum env buf) := by unfold stampChecksum; infer_instance

instance (id : Nat) (buf : Bytes) (expectedByte : Nat) (label : String) :
    Fails E (Pager.expectPageType id buf expectedByte label) := by
  unfold Pager.expectPageType Stop.fatal
  refine .bind inferInstance fun actual => ?_
  split
  · exact .pure
  · exact .error (errs.err _)

/-! ## The file and the pool -/

instance : Raises E (ioCall env) := ⟨fun _ _ _ none => by cases none⟩
instance (event : Event) : Raises E (record event) := by unfold record; infer_instance

instance (off n : Nat) : Raises E (readExactAt env off n) := by
  unfold readExactAt Stop.io Stop.fatal
  infer_instance

instance (off : Nat) (data : Bytes) : Raises E (writeAllAt env off data) := by
  refine .bind inferInstance fun fault => ?_
  cases fault with
  | none => exact .bind inferInstance fun _ => inferInstance
  | some torn => exact .bind inferInstance fun _ => .bind inferInstance fun _ => .throw (errs.err _)

instance : Raises E (sync env) := by
  refine .bind inferInstance fun fault => ?_
  cases fault with
  | none => exact .bind inferInstance fun _ => inferInstance
  | some torn => exact .throw (errs.err _)

instance (pager : Pager) (id : Nat) : Raises E (pager.readDataPage env id) := by
  unfold Pager.readDataPage Stop.fatal
  infer_instance

instance (pager : Pager) (id : Nat) (buf : Bytes) : Raises E (pager.writeStamped env id buf) := by
  unfold Pager.writeStamped
  infer_instance

instance {α : Type} {x : IoM α} [onFile : Raises E x] : Raises E (onDisk x) := ⟨fun s e s' run => by
  cases file : x s.disk with
  | ok a d =>
    rw [onDisk_ok file] at run
    cases run
  | error e' d =>
    rw [onDisk_error file] at run
    obtain ⟨rfl, -⟩ := EStateM.Result.error.inj run
    exact onFile.raises _ _ _ file⟩

theorem writeDataPage_raises {keep : Bytes → PoolM Unit} (keeps : ∀ b, Raises E (keep b))
    (id : Nat) (buf : Bytes) :
    Raises E (writeDataPage env keep id buf) := by
  unfold writeDataPage
  exact .bind inferInstance fun stampedBuf => .bind (keeps _) fun _ => .bind inferInstance
    fun s => inferInstance

instance : Raises E (BufferPool.evictOne env) := by
  unfold BufferPool.evictOne
  refine .bind .get fun s => ?_
  cases s.recency with
  | nil => exact .throw (errs.err _)
  | cons id rest =>
    refine .bind .modify fun _ => ?_
    cases s.entries.lookup id with
    | none => exact .throw (errs.err _)
    | some buf =>
      simp only
      refine .bind .modify fun _ => ?_
      split
      · exact .bind .modify fun _ => writeDataPage_raises (fun _ => .pure) id buf
      · exact .pure


theorem evictWhileFull_raises {bound : Nat} {s s' : BufferPool} {e : Stop}
    (enough : s.entries.keys.length < bound)
    (run : BufferPool.evictWhileFull env bound s = .error e s') : E e := by
  induction bound generalizing s with
  | zero => exact absurd enough (Nat.not_lt_zero _)
  | succ bound ih =>
    rw [BufferPool.evictWhileFull, Hoare.get_bind] at run
    split at run
    · cases first : BufferPool.evictOne env s with
      | error e' t =>
        rw [Hoare.bind_error first] at run
        obtain ⟨rfl, -⟩ := EStateM.Result.error.inj run
        exact Raises.raises s e' t first
      | ok u t =>
        rw [Hoare.bind_ok first] at run
        have shorter := evictOne_shorter first
        exact ih (by omega) run
    · cases run

instance (id : Nat) (buf : Bytes) (dirty : Bool) :
    Raises E (BufferPool.insertCached env id buf dirty) := by
  unfold BufferPool.insertCached
  refine .bind .modify fun _ => ⟨fun s e s' run => ?_⟩
  rw [Hoare.get_bind] at run
  cases evicted : BufferPool.evictWhileFull env (s.entries.keys.length + 1) s with
  | error e' t =>
    rw [Hoare.bind_error evicted] at run
    obtain ⟨rfl, -⟩ := EStateM.Result.error.inj run
    exact evictWhileFull_raises (Nat.lt_succ_self _) evicted
  | ok u t =>
    rw [Hoare.bind_ok evicted] at run
    cases run

instance (id : Nat) : Raises E (BufferPool.get env id) := by
  unfold BufferPool.get
  refine .bind .get fun s => ?_
  cases s.entries.lookup id with
  | none => exact .bind inferInstance fun buf => .bind inferInstance fun _ => .pure
  | some buf => exact .bind .modify fun _ => .pure

instance (id : Nat) (buf : Bytes) : Raises E (BufferPool.putNew env id buf) := by
    unfold BufferPool.putNew; infer_instance
instance : Raises E BufferPool.pageSize := by unfold BufferPool.pageSize; infer_instance
instance : Raises E BufferPool.rootPageId := by unfold BufferPool.rootPageId; infer_instance

instance (id : Nat) : Raises E (BufferPool.flushOne env id) := by
  unfold BufferPool.flushOne
  refine .bind .get fun s => ?_
  cases s.entries.lookup id with
  | none => exact .pure
  | some buf => exact writeDataPage_raises (fun _ => .modify) id buf

instance (ids : List Nat) : Raises E (BufferPool.flushIds env ids) := by
  induction ids with
  | nil => exact .pure
  | cons id ids ih => rw [BufferPool.flushIds]; infer_instance

instance : Raises E (BufferPool.flushAllDirty env) := by unfold BufferPool.flushAllDirty; infer_instance

/-! ## Reading rows -/

instance (bound current need : Nat) (out : Bytes) : Raises E (readChain env bound current need out) := by
  induction bound generalizing current need out with
  | zero => exact .pure
  | succ bound ih => rw [readChain]; infer_instance

instance (firstId totalLen : Nat) : Raises E (readOverflowChain env firstId totalLen) := by
  unfold readOverflowChain; infer_instance

instance (cell : LeafCell) : Raises E (reassemble env cell) := by unfold reassemble; infer_instance

instance (maxLocal : Nat) (buf : Bytes) (found : SearchResult) :
    Raises E (Btree.getFound env maxLocal buf found) := by
  cases found <;> (unfold Btree.getFound; infer_instance)

instance (buf : Bytes) (maxLocal i count : Nat) (out : List (I64 × Row)) :
    Raises E (Btree.scanLeaf env buf maxLocal i count out) := by
  induction count generalizing i out with
  | zero => exact .pure
  | succ count ih => rw [Btree.scanLeaf]; infer_instance

/-! ## Following child ids -/

section following

variable [loops : Loops E]

instance (fuel current : Nat) (key : I64) : Raises E (Btree.getFrom env fuel current key) := by
  induction fuel generalizing current with
  | zero => exact .throw loops.running
  | succ fuel ih => rw [Btree.getFrom_succ]; infer_instance

instance (fuel current : Nat) (key : I64) (path : List Nat) :
    Raises E (descendPathFrom env fuel current key path) := by
  induction fuel generalizing current path with
  | zero => exact .throw loops.running
  | succ fuel ih => rw [descendPathFrom]; infer_instance

instance (fuel : Nat) (out : List (I64 × Row)) (id : Nat) :
    Raises E (Btree.scanNode env fuel out id) := by
  induction fuel generalizing out id with
  | zero => exact .throw loops.running
  | succ fuel ih =>
    rw [Btree.scanNode]
    refine .bind inferInstance fun buf => .bind inferInstance fun _ => ?_
    split
    · infer_instance
    · exact .bind inferInstance fun _ => .bind inferInstance fun _ => .foldlM ih _ _

theorem Call.looks_raises (call : Call) (looks : ¬ call.Mutates) (fuel : Nat) :
    Raises E (call.run env fuel) := by
  cases call with
  | insert key row => exact absurd trivial looks
  | update key row => exact absurd trivial looks
  | delete key => exact absurd trivial looks
  | get key =>
    unfold Call.run Database.get Btree.get
    infer_instance
  | scan =>
    unfold Call.run Database.scan Btree.scan
    infer_instance

end following

/-! ## Laying out pages -/

instance [overflows : Overflows profile E] (wrapped : Nat) : Fails E (profile.overflow wrapped) := by
  cases profile with
  | dev => exact .error (overflows.panic rfl)
  | release => exact .ok

instance [Overflows profile E] (width a b : Nat) : Fails E (addW profile width a b) := by
    unfold addW; infer_instance
instance [Overflows profile E] (width a b : Nat) : Fails E (subW profile width a b) := by
    unfold subW; infer_instance
instance [Overflows profile E] (width a b : Nat) : Fails E (mulW profile width a b) := by
    unfold mulW; infer_instance

instance [Overflows profile E] (buf : Bytes) (pageType : Nat) :
    Fails E (initSlotted profile buf pageType) := by
  unfold initSlotted; infer_instance

instance [Overflows profile E] (buf : Bytes) (headerLen : Nat) :
    Fails E (freeSpace profile buf headerLen) := by
  unfold freeSpace; infer_instance

instance (buf : Bytes) (headerLen index offset : Nat) :
    Fails E (setPointerAt buf headerLen index offset) := by
  unfold setPointerAt; infer_instance

instance (buf : Bytes) (n : Nat) : Fails E (setNumCells buf n) := by unfold setNumCells; infer_instance
instance (buf : Bytes) (v : Nat) : Fails E (setContentStart buf v) := by
    unfold setContentStart; infer_instance

instance (headerLen index count : Nat) (buf : Bytes) :
    Fails E (shiftPointersRight headerLen index count buf) := by
  induction count generalizing buf with
  | zero => exact .ok
  | succ count ih => rw [shiftPointersRight]; infer_instance

instance (headerLen index count : Nat) (buf : Bytes) :
    Fails E (shiftPointersLeft headerLen index count buf) := by
  induction count generalizing index buf with
  | zero => exact .ok
  | succ count ih => rw [shiftPointersLeft]; infer_instance

instance [Overflows profile E] (buf : Bytes) (headerLen index : Nat) (cell : Bytes) :
    Fails E (insertCellAt profile buf headerLen index cell) := by
  unfold insertCellAt
  refine .bind inferInstance fun n => .bind inferInstance fun cs => ?_
  simp only
  infer_instance

instance (buf : Bytes) (headerLen index : Nat) : Fails E (removeCellAt buf headerLen index) := by
  unfold removeCellAt; infer_instance

instance [Overflows profile E] (buf : Bytes) : Fails E (initLeaf profile buf) := by
    unfold initLeaf; infer_instance

instance [Overflows profile E] (buf : Bytes) (child : Nat) :
    Fails E (initInterior profile buf child) := by
  unfold initInterior; infer_instance

instance [Overflows profile E] (buf : Bytes) (index maxLocal : Nat) :
    Fails E (leafCellByteLen profile buf index maxLocal) := by
  unfold leafCellByteLen; infer_instance

instance [Overflows profile E] (buf : Bytes) (maxLocal i count : Nat) :
    Fails E (Btree.collectCells profile buf maxLocal i count) := by
  induction count generalizing i with
  | zero => exact .ok
  | succ count ih => rw [Btree.collectCells]; infer_instance

instance [Overflows profile E] (i : Nat) (cells : List Bytes) (buf : Bytes) :
    Fails E (Btree.fillLeaf profile i cells buf) := by
  induction cells generalizing i buf with
  | nil => exact .ok
  | cons cell cells ih => rw [Btree.fillLeaf]; infer_instance

instance [Overflows profile E] (pageSize : Nat) (cells : List Bytes) :
    Fails E (Btree.buildLeafHalf profile pageSize cells) := by
  unfold Btree.buildLeafHalf; infer_instance

instance (rightHalf : List Bytes) : Fails E (Btree.separatorOf rightHalf) := by
  unfold Btree.separatorOf
  cases rightHalf.head? with
  | none => exact .error (errs.err _)
  | some cell => simp only; infer_instance

instance (keys : List I64) (mid : Nat) : Fails E (promotedKey keys mid) := by
  unfold promotedKey
  cases keys[mid]? with
  | none => exact .error (errs.err _)
  | some key => exact .ok

instance (path : List Nat) : Fails E (Btree.lastOf path) := by
  unfold Btree.lastOf
  cases path.getLast? with
  | none => exact .error (errs.err _)
  | some id => exact .ok

instance [Overflows profile E] (children : List Nat) (i : Nat) (keys : List I64) (buf : Bytes) :
    Fails E (insertInteriorCells profile children i keys buf) := by
  induction keys generalizing i buf with
  | nil => exact .ok
  | cons key keys ih => rw [insertInteriorCells]; infer_instance

instance [Overflows profile E] (pageSize : Nat) (keys : List I64) (children : List Nat) :
    Fails E (buildInteriorPage profile pageSize keys children) := by
  unfold buildInteriorPage; infer_instance

instance (buf : Bytes) (slot : ChildSlot) (newChild : Nat) :
    Fails E (setChildSlot buf slot newChild) := by
  cases slot with
  | cell index => unfold setChildSlot interiorSetChildAt; infer_instance
  | rightmost => unfold setChildSlot interiorSetRightmost; infer_instance

instance (len : Nat) (key : I64) : Fails E (tooLargeAsU32 len key) := by
  unfold tooLargeAsU32 Stop.permanent
  split
  · exact .ok
  · exact .error (errs.err _)

/-! ## Changing the tree -/

section changing

variable [Overflows env.profile E]

instance : Raises E (BufferPool.allocatePageId env) := by
  unfold BufferPool.allocatePageId; infer_instance

instance (content : MetaContent) : Fails E (encodeMetaSlot env content) := by
  rw [encodeMetaSlot_eq]
  exact .ok

instance (pager : Pager) (newRoot newPageCount : Nat) :
    Raises E (pager.commit env newRoot newPageCount) := by
  unfold Pager.commit; infer_instance

instance (newRoot : Nat) : Raises E (BufferPool.commit env newRoot) := by
  unfold BufferPool.commit; infer_instance

instance (chunks : List Bytes) (nextId : Nat) : Raises E (writeChunks env chunks nextId) := by
  induction chunks generalizing nextId with
  | nil => exact .pure
  | cons chunk chunks ih => rw [writeChunks]; infer_instance

instance (tail : Bytes) : Raises E (writeOverflowChain env tail) := by
    unfold writeOverflowChain; infer_instance
instance (encoded : Bytes) : Raises E (spillIfNeeded env encoded) := by
    unfold spillIfNeeded; infer_instance

instance (buf bytes : Bytes) (key : I64) : Fails E (pushLenPrefixed buf bytes key) := by
    unfold pushLenPrefixed; infer_instance

instance (buf : Bytes) (value : Value) (key : I64) : Fails E (encodeValue buf value key) := by
  cases value <;> (unfold encodeValue; infer_instance)

instance (key : I64) (buf : Bytes) (values : List Value) : Fails E (encodeValues key buf values) := by
  induction values generalizing buf with
  | nil => exact .ok
  | cons value values ih => rw [encodeValues]; infer_instance

instance (row : Row) (key : I64) : Fails E (row.encode key) := by unfold Row.encode; infer_instance

instance (key : I64) (row : Row) : Raises E (buildRowCell env key row) := by
    unfold buildRowCell; infer_instance

instance (leafBuf : Bytes) (insertIdx : Nat) (newCell : Bytes) :
    Raises E (Btree.leafSplitWithNewCell env leafBuf insertIdx newCell) := by
  unfold Btree.leafSplitWithNewCell
  refine .bind inferInstance fun ps => .bind inferInstance fun n => .bind inferInstance fun oldCells => ?_
  simp only
  refine .bind inferInstance fun leftBuf => .bind inferInstance fun rightBuf => ?_
  infer_instance

instance (leafBuf : Bytes) (insertIdx : Nat) (cell : Bytes) :
    Raises E (Btree.leafInsertOrSplit env leafBuf insertIdx cell) := by
  unfold Btree.leafInsertOrSplit; infer_instance

instance (pageSize : Nat) (keys : List I64) (children : List Nat) :
    Raises E (splitInteriorEntries env pageSize keys children) := by
  unfold splitInteriorEntries; infer_instance

instance (ancestorId oldChildId : Nat) (result : NodeResult) :
    Raises E (applyResultToInterior env ancestorId oldChildId result) := by
  unfold applyResultToInterior
  refine .bind inferInstance fun ps => ?_
  cases result with
  | replaced id => infer_instance
  | split left right separatorKey => infer_instance

instance (ancestors : List Nat) (oldChildId : Nat) (result : NodeResult) :
    Raises E (propagate env ancestors oldChildId result) := by
  induction ancestors generalizing oldChildId result with
  | nil => exact .pure
  | cons ancestorId ancestors ih => rw [propagate]; infer_instance

instance (result : NodeResult) : Raises E (finalizeRoot env result) := by
  cases result with
  | replaced id => exact .pure
  | split left right separatorKey => unfold finalizeRoot; infer_instance

instance (root : Nat) : Raises E (collapseRootIfNeeded env root) := by
    unfold collapseRootIfNeeded; infer_instance

instance (key : I64) (row : Row) : Raises E (Btree.insertFirst env key row) := by
    unfold Btree.insertFirst; infer_instance

instance (key : I64) (row : Row) (path : List Nat) (leafId : Nat) (leafBuf : Bytes)
    (found : SearchResult) :
    Raises E (Btree.insertFound env key row path leafId leafBuf found) := by
  cases found with
  | found index => exact .throw (errs.err _)
  | insertAt index => unfold Btree.insertFound; infer_instance

instance (key : I64) (row : Row) (path : List Nat) (leafId : Nat) (leafBuf : Bytes)
    (found : SearchResult) :
    Raises E (Btree.updateFound env key row path leafId leafBuf found) := by
  cases found with
  | found index => unfold Btree.updateFound; infer_instance
  | insertAt index => exact .throw (errs.err _)

instance (path : List Nat) (leafId : Nat) (buf : Bytes) (removedRow : Row) :
    Raises E (Btree.deleteRemoved env path leafId buf removedRow) := by
  unfold Btree.deleteRemoved
  refine .bind inferInstance fun newLeafId => .bind inferInstance fun _ => ?_
  infer_instance

instance (key : I64) (maxLocal : Nat) (path : List Nat) (leafId : Nat) (leafBuf : Bytes)
    (found : SearchResult) :
    Raises E (Btree.deleteFound env key maxLocal path leafId leafBuf found) := by
  cases found with
  | found index => unfold Btree.deleteFound; infer_instance
  | insertAt index => exact .throw (errs.err _)

theorem Call.raises [Loops E] (call : Call) (fuel : Nat) : Raises E (call.run env fuel) := by
  cases call with
  | insert key row =>
    simp only [Call.run, Database.insert, Btree.insert_eq, descendPath]
    infer_instance
  | update key row =>
    simp only [Call.run, Database.update, Btree.update_eq, descendPath, Stop.permanent]
    infer_instance
  | delete key =>
    simp only [Call.run, Database.delete, Btree.delete_eq, descendPath, Stop.permanent]
    infer_instance
  | get key => exact looks_raises (.get key) id fuel
  | scan => exact looks_raises .scan id fuel

end changing

end Pinax
