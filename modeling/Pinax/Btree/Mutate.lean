import Pinax.BufferPool
import Pinax.Btree.Layout

/-! # Descending to a leaf and propagating its replacement (`btree/mutate.rs`) -/

namespace Pinax

open BufferPool (allocatePageId putNew pageSize)

inductive NodeResult
  | replaced (id : Nat)
  | split (left right : Nat) (separatorKey : I64)
  deriving DecidableEq

/-- The loop of `interior_entries` over the cells from `i` on. -/
def interiorEntriesFrom (buf : Bytes) : Nat → Nat → Res (List I64 × List Nat)
  | _, 0 => .ok ([], [])
  | i, count + 1 => do
    let key ← interiorKeyAt buf i
    let child ← interiorChildAt buf i
    let (keys, children) ← interiorEntriesFrom buf (i + 1) count
    return (key :: keys, child :: children)

def interiorEntries (buf : Bytes) : Res (List I64 × List Nat) := do
  let n ← numCells buf
  let (keys, children) ← interiorEntriesFrom buf 0 n
  let rightmost ← interiorRightmost buf
  return (keys, children ++ [rightmost])

/-- The loop of `build_interior_page`: the cells of `keys` from index `i` on. -/
def insertInteriorCells (profile : Profile) (children : List Nat) : Nat → List I64 → Bytes → Res Bytes
  | _, [], buf => .ok buf
  | i, key :: keys, buf => do
    let child := children.getD i 0
    let buf ← insertCellAt profile buf interiorHeaderLen i (buildInteriorCell key child)
    insertInteriorCells profile children (i + 1) keys buf

def buildInteriorPage (profile : Profile) (pageSize : Nat) (keys : List I64) (children : List Nat) :
    Res Bytes := do
  let buf := List.replicate pageSize 0
  let buf ← initInterior profile buf (children.getLastD 0)
  insertInteriorCells profile children 0 keys buf

/-- `children.iter().position(|&c| c == old_child_id).unwrap_or(children.len().saturating_sub(1))` -/
def childPosition (children : List Nat) (oldChildId : Nat) : Nat :=
  let position := children.findIdx (· = oldChildId)
  if position < children.length then position else children.length - 1

def spliceSplitIntoEntries (keys : List I64) (children : List Nat) (oldChildId : Nat)
    (separatorKey : I64) (leftChild rightChild : Nat) : List I64 × List Nat :=
  let position := childPosition children oldChildId
  (keys.insertIdx position separatorKey,
    (children.insertIdx position leftChild).set (position + 1) rightChild)

/-- The number of separator cells that fit on an otherwise empty interior page. -/
def maxInteriorEntries (pageSize : Nat) : Nat :=
  (pageSize - 8 - interiorHeaderLen) / (interiorCellLen + pointerLen)

variable (env : Env)

/-- The loop of `descend_path`. -/
def descendPathFrom : Nat → Nat → I64 → List Nat → PoolM (List Nat)
  | 0, _, _, _ => throw .running
  | fuel + 1, current, key, path => do
    let buf ← BufferPool.get env current
    let pageType ← readU8 buf 0
    if pageType = pageTypeLeaf then return path
    else
      Pager.expectPageType current buf pageTypeInterior "interior"
      let next ← interiorFindChildForKey buf key
      descendPathFrom fuel next key (path ++ [next])

def descendPath (fuel root : Nat) (key : I64) : PoolM (List Nat) :=
  descendPathFrom env fuel root key [root]

/-- `*keys.get(mid).context(..)?` -/
def promotedKey (keys : List I64) (mid : Nat) : Res I64 :=
  match keys[mid]? with
  | some key => .ok key
  | none => .error (bufferBounds mid 1 keys.length)

def splitInteriorEntries (pageSize : Nat) (keys : List I64) (children : List Nat) : PoolM NodeResult := do
  let mid := keys.length / 2
  let promoted ← promotedKey keys mid
  let leftBuf ← buildInteriorPage env.profile pageSize (keys.take mid) (children.take (mid + 1))
  let rightBuf ← buildInteriorPage env.profile pageSize (keys.drop (mid + 1)) (children.drop (mid + 1))
  let leftId ← allocatePageId env
  putNew env leftId leftBuf
  let rightId ← allocatePageId env
  putNew env rightId rightBuf
  return .split leftId rightId promoted

/-- Repoint the child in `slot` to `newChild`. -/
def setChildSlot (buf : Bytes) (slot : ChildSlot) (newChild : Nat) : Res Bytes :=
  match slot with
  | .cell index => interiorSetChildAt buf index newChild
  | .rightmost => interiorSetRightmost buf newChild

def applyResultToInterior (ancestorId oldChildId : Nat) (result : NodeResult) : PoolM NodeResult := do
  let ps ← pageSize
  match result with
  | .replaced newChild =>
    let buf ← BufferPool.get env ancestorId
    let slot ← interiorFindChildSlot buf oldChildId
    let buf ← setChildSlot buf slot newChild
    let newId ← allocatePageId env
    putNew env newId buf
    return .replaced newId
  | .split left right separatorKey =>
    let buf ← BufferPool.get env ancestorId
    let (keys, children) ← interiorEntries buf
    let (keys, children) := spliceSplitIntoEntries keys children oldChildId separatorKey left right
    if keys.length ≤ maxInteriorEntries ps.bytes then
      let rebuilt ← buildInteriorPage env.profile ps.bytes keys children
      let newId ← allocatePageId env
      putNew env newId rebuilt
      return .replaced newId
    else splitInteriorEntries env ps.bytes keys children

/-- The loop `insert`, `update` and `delete` share, over the ancestors from the leaf's parent up. -/
def propagate : List Nat → Nat → NodeResult → PoolM NodeResult
  | [], _, result => return result
  | ancestorId :: ancestors, oldChildId, result => do
    let result ← applyResultToInterior env ancestorId oldChildId result
    propagate ancestors ancestorId result

def finalizeRoot (result : NodeResult) : PoolM Nat := do
  match result with
  | .replaced id => return id
  | .split left right separatorKey =>
    let ps ← pageSize
    let buf := List.replicate ps.bytes 0
    let buf ← initInterior env.profile buf right
    let buf ← insertCellAt env.profile buf interiorHeaderLen 0 (buildInteriorCell separatorKey left)
    let id ← allocatePageId env
    putNew env id buf
    return id

def collapseRootIfNeeded (root : Nat) : PoolM Nat := do
  let buf ← BufferPool.get env root
  let pageType ← readU8 buf 0
  if pageType ≠ pageTypeInterior then return root
  else
    let n ← numCells buf
    if n = 0 then interiorRightmost buf
    else return root

end Pinax
