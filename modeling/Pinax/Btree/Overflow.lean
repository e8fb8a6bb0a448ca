import Pinax.BufferPool
import Pinax.Btree.Layout
import Pinax.Row

/-! # Overflow chains, spilling and reassembling rows (`btree/overflow.rs`) -/

namespace Pinax

open BufferPool (allocatePageId putNew pageSize)

/-- The first subtraction cannot underflow: a page has at least `minPageSize` bytes. -/
def overflowChunkCap (pageSizeBytes : Nat) : Nat := pageSizeBytes - checksumLen - overflowHeaderLen

/-- `tail` cut into chunks of `cap` bytes, the last one possibly short; every round takes at least
one byte. -/
def chunksOf (cap : Nat) : Nat → Bytes → List Bytes
  | 0, _ => []
  | bound + 1, tail => if tail = [] then [] else tail.take cap :: chunksOf cap bound (tail.drop cap)

variable (env : Env)

/-- The loop of `write_overflow_chain`, over the chunks in the order they are written. -/
def writeChunks : List Bytes → Nat → PoolM Nat
  | [], nextId => return nextId
  | chunk :: chunks, nextId => do
    let ps ← pageSize
    let buf := List.replicate ps.bytes 0
    let buf ← writeU8 buf 0 pageTypeOverflow
    let buf ← writeU32 buf 1 nextId
    let buf ← writeBytes buf overflowHeaderLen chunk
    let id ← allocatePageId env
    putNew env id buf
    writeChunks chunks id

def writeOverflowChain (tail : Bytes) : PoolM Nat := do
  if tail = [] then return 0
  else
    let ps ← pageSize
    let chunks := chunksOf (overflowChunkCap ps.bytes) tail.length tail
    writeChunks env chunks.reverse 0

/-- The loop of `read_overflow_chain`: `need` bytes are still to be read, and every round reads at
least one. -/
def readChain : Nat → Nat → Nat → Bytes → PoolM Bytes
  | 0, _, _, out => return out
  | bound + 1, current, need, out =>
    if current ≠ 0 ∧ 0 < need then do
      let buf ← BufferPool.get env current
      Pager.expectPageType current buf pageTypeOverflow "overflow"
      let next ← readU32 buf 1
      let ps ← pageSize
      let take := min need (overflowChunkCap ps.bytes)
      let chunk ← readVec buf overflowHeaderLen take
      readChain bound next (need - take) (out ++ chunk)
    else return out

def readOverflowChain (firstId totalLen : Nat) : PoolM Bytes :=
  readChain env (totalLen + 1) firstId totalLen []

/-- The two slices cannot fail: `maxLocal < encoded.length`. -/
def spillIfNeeded (encoded : Bytes) : PoolM (Bytes × Nat) := do
  let ps ← pageSize
  if encoded.length ≤ ps.maxLocal then return (encoded, 0)
  else
    let overflowFirst ← writeOverflowChain env (encoded.drop ps.maxLocal)
    return (encoded.take ps.maxLocal, overflowFirst)

def buildRowCell (key : I64) (row : Row) : PoolM Bytes := do
  let encoded ← row.encode key
  let (localBytes, overflowFirst) ← spillIfNeeded env encoded
  return buildLeafCell key (tryFromOr 32 encoded.length u32Max) overflowFirst localBytes

def reassemble (cell : LeafCell) : PoolM Bytes := do
  if cell.overflowFirst = 0 then return cell.localBytes
  else
    let ps ← pageSize
    let tail ← readOverflowChain env cell.overflowFirst (cell.payloadLen - ps.maxLocal)
    return cell.localBytes ++ tail

end Pinax
