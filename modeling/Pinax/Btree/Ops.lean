import Pinax.Btree.Overflow
import Pinax.Btree.Mutate

/-! # Insert, get, update, delete and scan (`btree/mod.rs`)

`fuel` bounds the rounds of the two loops that follow child ids (`get`, `descend_path`) and the depth
of the recursion of `scan_node`; a run that exhausts it stops with `Stop.running`.
-/

namespace Pinax.Btree

open BufferPool (allocatePageId putNew pageSize rootPageId)

variable (env : Env)

/-- The cells of a leaf from index `i` on, as `leaf_split_with_new_cell` collects them. -/
def collectCells (profile : Profile) (buf : Bytes) (maxLocal : Nat) : Nat → Nat → Res (List Bytes)
  | _, 0 => .ok []
  | i, count + 1 => do
    let offset ← pointerAt buf leafHeaderLen i
    let len ← leafCellByteLen profile buf i maxLocal
    let cell ← readVec buf offset len
    let cells ← collectCells profile buf maxLocal (i + 1) count
    return cell :: cells

/-- The loop that fills one half of a split leaf, from index `i` on. -/
def fillLeaf (profile : Profile) : Nat → List Bytes → Bytes → Res Bytes
  | _, [], buf => .ok buf
  | i, cell :: cells, buf => do
    let buf ← insertCellAt profile buf leafHeaderLen i cell
    fillLeaf profile (i + 1) cells buf

/-- One half of a split leaf. -/
def buildLeafHalf (profile : Profile) (pageSize : Nat) (cells : List Bytes) : Res Bytes := do
  let buf ← initLeaf profile (List.replicate pageSize 0)
  fillLeaf profile 0 cells buf

/-- The first key of the right half. -/
def separatorOf (rightHalf : List Bytes) : Res I64 :=
  match rightHalf.head? with
  | some cell => readI64 cell 0
  | none => .error (bufferBounds 0 1 0)

def leafSplitWithNewCell (leafBuf : Bytes) (insertIdx : Nat) (newCell : Bytes) : PoolM NodeResult := do
  let ps ← pageSize
  let n ← numCells leafBuf
  let oldCells ← collectCells env.profile leafBuf ps.maxLocal 0 n
  let clampedIdx := min insertIdx oldCells.length
  let allCells := oldCells.insertIdx clampedIdx newCell
  let mid := allCells.length / 2
  let leftHalf := allCells.take mid
  let rightHalf := allCells.drop mid
  let leftBuf ← buildLeafHalf env.profile ps.bytes leftHalf
  let rightBuf ← buildLeafHalf env.profile ps.bytes rightHalf
  let separatorKey ← separatorOf rightHalf
  let leftId ← allocatePageId env
  putNew env leftId leftBuf
  let rightId ← allocatePageId env
  putNew env rightId rightBuf
  return .split leftId rightId separatorKey

def leafInsertOrSplit (leafBuf : Bytes) (insertIdx : Nat) (cell : Bytes) : PoolM NodeResult := do
  let needed := tryFromOr 16 (cell.length + pointerLen) 65535
  let free ← freeSpace env.profile leafBuf leafHeaderLen
  if free ≥ needed then
    let buf ← insertCellAt env.profile leafBuf leafHeaderLen insertIdx cell
    let id ← allocatePageId env
    putNew env id buf
    return .replaced id
  else leafSplitWithNewCell env leafBuf insertIdx cell

/-- `*path.last()`, and the error of an empty path. -/
def lastOf (path : List Nat) : Res Nat :=
  match path.getLast? with
  | some id => .ok id
  | none => .error (bufferBounds 0 1 0)

def insert (fuel : Nat) (key : I64) (row : Row) : PoolM Nat := do
  let root ← rootPageId
  if root = emptyTreeRoot then
    let cell ← buildRowCell env key row
    let ps ← pageSize
    let buf ← initLeaf env.profile (List.replicate ps.bytes 0)
    let buf ← insertCellAt env.profile buf leafHeaderLen 0 cell
    let id ← allocatePageId env
    putNew env id buf
    BufferPool.commit env id
    return id
  else
    let path ← descendPath env fuel root key
    let leafId ← lastOf path
    let leafBuf ← BufferPool.get env leafId
    match ← leafSearch leafBuf key with
    | .found _ => throw (.permanent (.keyAlreadyExists key))
    | .insertAt insertIdx =>
      let cell ← buildRowCell env key row
      let result ← leafInsertOrSplit env leafBuf insertIdx cell
      let result ← propagate env path.dropLast.reverse leafId result
      let newRoot ← finalizeRoot env result
      BufferPool.commit env newRoot
      return newRoot

/-- The loop of `get`. -/
def getFrom : Nat → Nat → I64 → PoolM (Option Row)
  | 0, _, _ => throw .running
  | fuel + 1, current, key => do
    let ps ← pageSize
    let buf ← BufferPool.get env current
    let pageType ← readU8 buf 0
    if pageType = pageTypeLeaf then
      match ← leafSearch buf key with
      | .found index =>
        let cell ← leafCellAt buf index ps.maxLocal
        let full ← reassemble env cell
        let row ← Row.decode full
        return some row
      | .insertAt _ => return none
    else
      Pager.expectPageType current buf pageTypeInterior "interior"
      let next ← interiorFindChildForKey buf key
      getFrom fuel next key

def get (fuel : Nat) (key : I64) : PoolM (Option Row) := do
  let root ← rootPageId
  if root = emptyTreeRoot then return none
  else getFrom env fuel root key

def update (fuel : Nat) (key : I64) (row : Row) : PoolM Nat := do
  let root ← rootPageId
  if root = emptyTreeRoot then throw (.permanent (.keyNotFound key))
  else
    let path ← descendPath env fuel root key
    let leafId ← lastOf path
    let leafBuf ← BufferPool.get env leafId
    match ← leafSearch leafBuf key with
    | .insertAt _ => throw (.permanent (.keyNotFound key))
    | .found index =>
      let newCell ← buildRowCell env key row
      let (buf, _) ← removeCellAt leafBuf leafHeaderLen index
      let result ← leafInsertOrSplit env buf index newCell
      let result ← propagate env path.dropLast.reverse leafId result
      let newRoot ← finalizeRoot env result
      BufferPool.commit env newRoot
      return newRoot

def delete (fuel : Nat) (key : I64) : PoolM (Nat × Row) := do
  let root ← rootPageId
  if root = emptyTreeRoot then throw (.permanent (.keyNotFound key))
  else
    let ps ← pageSize
    let path ← descendPath env fuel root key
    let leafId ← lastOf path
    let leafBuf ← BufferPool.get env leafId
    match ← leafSearch leafBuf key with
    | .insertAt _ => throw (.permanent (.keyNotFound key))
    | .found index =>
      let removedCell ← leafCellAt leafBuf index ps.maxLocal
      let removedFull ← reassemble env removedCell
      let removedRow ← Row.decode removedFull
      let (buf, _) ← removeCellAt leafBuf leafHeaderLen index
      let newLeafId ← allocatePageId env
      putNew env newLeafId buf
      let result ← propagate env path.dropLast.reverse leafId (.replaced newLeafId)
      let newRoot ← finalizeRoot env result
      let newRoot ← collapseRootIfNeeded env newRoot
      BufferPool.commit env newRoot
      return (newRoot, removedRow)

/-- The rows of a leaf from index `i` on. -/
def scanLeaf (buf : Bytes) (maxLocal : Nat) : Nat → Nat → List (I64 × Row) → PoolM (List (I64 × Row))
  | _, 0, out => return out
  | i, count + 1, out => do
    let cell ← leafCellAt buf i maxLocal
    let full ← reassemble env cell
    let row ← Row.decode full
    scanLeaf buf maxLocal (i + 1) count (out ++ [(cell.key, row)])

def scanNode : Nat → List (I64 × Row) → Nat → PoolM (List (I64 × Row))
  | 0, _, _ => throw .running
  | fuel + 1, out, id => do
    let buf ← BufferPool.get env id
    let pageType ← readU8 buf 0
    if pageType = pageTypeLeaf then
      let ps ← pageSize
      let n ← numCells buf
      scanLeaf env buf ps.maxLocal 0 n out
    else
      Pager.expectPageType id buf pageTypeInterior "interior"
      let (_, children) ← interiorEntries buf
      children.foldlM (scanNode fuel) out

def scan (fuel : Nat) : PoolM (List (I64 × Row)) := do
  let root ← rootPageId
  if root = emptyTreeRoot then return []
  else scanNode env fuel [] root

end Pinax.Btree
