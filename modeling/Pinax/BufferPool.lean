import Pinax.Pager
import Mathlib.Data.List.AList

/-! # The buffer pool (`buffer_pool.rs`) -/

namespace Pinax

/-- `HashMap<u32, Vec<u8>>` -/
abbrev Entries := AList (fun _ : Nat => Bytes)

/-- `BufferPool`, with the file its pager works on. -/
structure BufferPool where
  disk : Disk
  pager : Pager
  capacity : Nat
  entries : Entries
  dirty : Finset Nat
  /-- LRU order, oldest first. -/
  recency : List Nat
  nextPageId : Nat

/-- Programs over the pool. -/
abbrev PoolM := EStateM Stop BufferPool

/-- A call that only touches the file. -/
def onDisk {α : Type} (x : IoM α) : PoolM α := fun s =>
  match x s.disk with
  | .ok a d => .ok a { s with disk := d }
  | .error e d => .error e { s with disk := d }

variable (env : Env)

/-- Stamp `buf`'s checksum and write it to data page `id`; `keep` is the caller's `&mut buf`, which
holds the stamped page from then on, also when the write fails. -/
def writeDataPage (keep : Bytes → PoolM Unit) (id : Nat) (buf : Bytes) : PoolM Unit := do
  let stampedBuf ← stampChecksum env buf
  keep stampedBuf
  let s ← get
  onDisk (s.pager.writeStamped env id stampedBuf)

namespace BufferPool

/-- `BufferPool::new`, over a pager that works on `disk`. -/
def new (disk : Disk) (pager : Pager) (capacity : Nat) : Res BufferPool :=
  if capacity ≥ 1 then
    .ok { disk, pager, capacity, entries := ∅, dirty := ∅, recency := [], nextPageId := pager.pageCount }
  else .error (.permanent .invalidBufferPoolCapacity)

def allocatePageId : PoolM Nat := do
  let s ← get
  let id := s.nextPageId
  onDisk (record (.alloc id))
  let next ← addW env.profile 32 s.nextPageId 1
  modify fun s => { s with nextPageId := next }
  return id

def touch (id : Nat) : PoolM Unit :=
  modify fun s => { s with recency := s.recency.filter (· ≠ id) ++ [id] }

def evictOne : PoolM Unit := do
  let s ← get
  match s.recency with
  | [] => throw (.fatal .poolInvariantViolated)
  | id :: rest =>
    modify fun s => { s with recency := rest }
    match s.entries.lookup id with
    | none => throw (.fatal .poolInvariantViolated)
    | some buf =>
      modify fun s => { s with entries := s.entries.erase id }
      if id ∈ s.dirty then
        modify fun s => { s with dirty := s.dirty.erase id }
        writeDataPage env (fun _ => pure ()) id buf

/-- `while self.entries.len() >= self.capacity { self.evict_one()?; }`, for `bound` rounds. -/
def evictWhileFull : Nat → PoolM Unit
  | 0 => throw .running
  | bound + 1 => do
    let s ← get
    if s.entries.keys.length ≥ s.capacity then
      evictOne env
      evictWhileFull bound
    else return ()

/-- Every eviction removes an entry, so one round per entry and one to stop are enough. -/
def insertCached (id : Nat) (buf : Bytes) (dirty : Bool) : PoolM Unit := do
  modify fun s =>
    if id ∈ s.entries then { s with
      entries := s.entries.erase id
      recency := s.recency.filter (· ≠ id) }
    else s
  let s ← get
  evictWhileFull env (s.entries.keys.length + 1)
  modify fun s => if dirty then { s with dirty := insert id s.dirty } else s
  modify fun s => { s with
    entries := s.entries.insert id buf
    recency := s.recency ++ [id] }

def get (id : Nat) : PoolM Bytes := do
  let s ← MonadState.get
  match s.entries.lookup id with
  | some buf =>
    touch id
    return buf
  | none =>
    let buf ← onDisk (s.pager.readDataPage env id)
    insertCached env id buf false
    return buf

def putNew (id : Nat) (buf : Bytes) : PoolM Unit := insertCached env id buf true

/-- `if let Some(buf) = self.entries.get_mut(&id) { self.pager.write_data_page(id, buf)?; }` -/
def flushOne (id : Nat) : PoolM Unit := do
  let s ← MonadState.get
  match s.entries.lookup id with
  | some buf =>
    writeDataPage env (fun stampedBuf => modify fun s =>
      { s with entries := s.entries.insert id stampedBuf }) id buf
  | none => return ()

/-- The loop of `flush_all_dirty` over the dirty ids. -/
def flushIds : List Nat → PoolM Unit
  | [] => return ()
  | id :: ids => do
    flushOne env id
    modify fun s => { s with dirty := s.dirty.erase id }
    flushIds ids

def flushAllDirty : PoolM Unit := do
  let s ← MonadState.get
  flushIds env (env.order s.disk.clock s.dirty)
  onDisk (sync env)

def commit (newRoot : Nat) : PoolM Unit := do
  flushAllDirty env
  let s ← MonadState.get
  let pager ← onDisk (s.pager.commit env newRoot s.nextPageId)
  modify fun s => { s with pager }

def pageSize : PoolM PageSize := do
  let s ← MonadState.get
  return s.pager.pageSize

def rootPageId : PoolM Nat := do
  let s ← MonadState.get
  return s.pager.rootPageId

end BufferPool

end Pinax
