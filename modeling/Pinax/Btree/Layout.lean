import Pinax.Page

/-! # Slotted pages, leaf cells and interior cells (`btree/layout.rs`) -/

namespace Pinax

def leafHeaderLen : Nat := 5
def interiorHeaderLen : Nat := 9
def leafCellFixedLen : Nat := 16
def interiorCellLen : Nat := 12
def overflowHeaderLen : Nat := 5
def pointerLen : Nat := 2

/-! ## Slotted pages -/

def initSlotted (profile : Profile) (buf : Bytes) (pageType : Nat) : Res Bytes := do
  let usable ← subW profile 16 (tryFromOr 16 buf.length 65535) checksumLen
  let buf ← writeU8 buf 0 pageType
  let buf ← writeU16 buf 1 0
  writeU16 buf 3 usable

def numCells (buf : Bytes) : Res Nat := readU16 buf 1

def setNumCells (buf : Bytes) (n : Nat) : Res Bytes := writeU16 buf 1 n

def contentStart (buf : Bytes) : Res Nat := readU16 buf 3

def setContentStart (buf : Bytes) (v : Nat) : Res Bytes := writeU16 buf 3 v

def pointerAt (buf : Bytes) (headerLen index : Nat) : Res Nat :=
  readU16 buf (headerLen + index * pointerLen)

def setPointerAt (buf : Bytes) (headerLen index offset : Nat) : Res Bytes :=
  writeU16 buf (headerLen + index * pointerLen) offset

def freeSpace (profile : Profile) (buf : Bytes) (headerLen : Nat) : Res Nat := do
  let n ← numCells buf
  let cs ← contentStart buf
  let headerLenU16 := tryFromOr 16 headerLen 65535
  let pointers ← mulW profile 16 n (tryFromOr 16 pointerLen 2)
  let usedByPointers ← addW profile 16 headerLenU16 pointers
  return cs - usedByPointers

/-- `for i in (index..index + count).rev()`: pointer `i` moves to `i + 1`. -/
def shiftPointersRight (headerLen index : Nat) : Nat → Bytes → Res Bytes
  | 0, buf => .ok buf
  | count + 1, buf => do
    let p ← pointerAt buf headerLen (index + count)
    let buf ← setPointerAt buf headerLen (index + count + 1) p
    shiftPointersRight headerLen index count buf

def insertCellAt (profile : Profile) (buf : Bytes) (headerLen index : Nat) (cellBytes : Bytes) :
    Res Bytes := do
  let n ← numCells buf
  let cs ← contentStart buf
  let cellLen := tryFromOr 16 cellBytes.length 65535
  let newCs ← subW profile 16 cs cellLen
  let buf ← writeBytes buf newCs cellBytes
  let buf ← shiftPointersRight headerLen index (n - index) buf
  let buf ← setPointerAt buf headerLen index newCs
  let buf ← setNumCells buf (tryFromOr 16 (n + 1) 65535)
  setContentStart buf newCs

/-- `for i in index..index + count`: pointer `i + 1` moves to `i`. -/
def shiftPointersLeft (headerLen : Nat) : Nat → Nat → Bytes → Res Bytes
  | _, 0, buf => .ok buf
  | index, count + 1, buf => do
    let p ← pointerAt buf headerLen (index + 1)
    let buf ← setPointerAt buf headerLen index p
    shiftPointersLeft headerLen (index + 1) count buf

/-- The page without the cell, and the cell's former offset. -/
def removeCellAt (buf : Bytes) (headerLen index : Nat) : Res (Bytes × Nat) := do
  let n ← numCells buf
  let offset ← pointerAt buf headerLen index
  let buf ← shiftPointersLeft headerLen index ((n - 1) - index) buf
  let buf ← setNumCells buf (tryFromOr 16 (n - 1) 0)
  return (buf, offset)

/-! ## Leaf pages -/

def initLeaf (profile : Profile) (buf : Bytes) : Res Bytes := initSlotted profile buf pageTypeLeaf

def leafKeyAt (buf : Bytes) (index : Nat) : Res I64 := do
  let offset ← pointerAt buf leafHeaderLen index
  readI64 buf offset

structure LeafCell where
  key : I64
  payloadLen : Nat
  overflowFirst : Nat
  localBytes : Bytes
  deriving DecidableEq

def leafLocalLen (payloadLen maxLocal : Nat) : Nat := min payloadLen maxLocal

def leafCellAt (buf : Bytes) (index maxLocal : Nat) : Res LeafCell := do
  let offset ← pointerAt buf leafHeaderLen index
  let key ← readI64 buf offset
  let payloadLen ← readU32 buf (offset + 8)
  let overflowFirst ← readU32 buf (offset + 12)
  let localBytes ← readVec buf (offset + leafCellFixedLen) (leafLocalLen payloadLen maxLocal)
  return { key, payloadLen, overflowFirst, localBytes }

def leafCellByteLen (profile : Profile) (buf : Bytes) (index maxLocal : Nat) : Res Nat := do
  let offset ← pointerAt buf leafHeaderLen index
  let payloadLen ← readU32 buf (offset + 8)
  let localLen := leafLocalLen payloadLen maxLocal
  addW profile 16 (tryFromOr 16 leafCellFixedLen 16) (tryFromOr 16 localLen 0)

def buildLeafCell (key : I64) (payloadLen overflowFirst : Nat) (localBytes : Bytes) : Bytes :=
  key.toBeBytes ++ toBe 4 payloadLen ++ toBe 4 overflowFirst ++ localBytes

/-- The `Result<usize, usize>` of `leaf_search`. -/
inductive SearchResult
  | found (index : Nat)
  | insertAt (index : Nat)
  deriving DecidableEq

/-- The binary search of `leaf_search` between `lo` and `hi`; `hi - lo` shrinks in every round. -/
def leafSearchLoop (buf : Bytes) (key : I64) : Nat → Nat → Nat → Res SearchResult
  | 0, lo, _ => .ok (.insertAt lo)
  | bound + 1, lo, hi =>
    if lo < hi then do
      let mid := lo + (hi - lo) / 2
      let midKey ← leafKeyAt buf mid
      if midKey = key then return .found mid
      else if midKey.val < key.val then leafSearchLoop buf key bound (mid + 1) hi
      else leafSearchLoop buf key bound lo mid
    else .ok (.insertAt lo)

def leafSearch (buf : Bytes) (key : I64) : Res SearchResult := do
  let n ← numCells buf
  leafSearchLoop buf key n 0 n

/-! ## Interior pages -/

def initInterior (profile : Profile) (buf : Bytes) (rightmostChild : Nat) : Res Bytes := do
  let buf ← initSlotted profile buf pageTypeInterior
  writeU32 buf 5 rightmostChild

def interiorRightmost (buf : Bytes) : Res Nat := readU32 buf 5

def interiorSetRightmost (buf : Bytes) (child : Nat) : Res Bytes := writeU32 buf 5 child

def interiorKeyAt (buf : Bytes) (index : Nat) : Res I64 := do
  let offset ← pointerAt buf interiorHeaderLen index
  readI64 buf offset

def interiorChildAt (buf : Bytes) (index : Nat) : Res Nat := do
  let offset ← pointerAt buf interiorHeaderLen index
  readU32 buf (offset + 8)

def interiorSetChildAt (buf : Bytes) (index child : Nat) : Res Bytes := do
  let offset ← pointerAt buf interiorHeaderLen index
  writeU32 buf (offset + 8) child

def buildInteriorCell (key : I64) (child : Nat) : Bytes := key.toBeBytes ++ toBe 4 child

inductive ChildSlot
  | cell (index : Nat)
  | rightmost
  deriving DecidableEq

/-- The loop of `interior_find_child_slot` over the cells from `i` on. -/
def findChildSlotFrom (buf : Bytes) (childId : Nat) : Nat → Nat → Res ChildSlot
  | _, 0 => .ok .rightmost
  | i, count + 1 => do
    let child ← interiorChildAt buf i
    if child = childId then return .cell i
    else findChildSlotFrom buf childId (i + 1) count

def interiorFindChildSlot (buf : Bytes) (childId : Nat) : Res ChildSlot := do
  let n ← numCells buf
  findChildSlotFrom buf childId 0 n

/-- The loop of `interior_find_child_for_key` over the cells from `i` on. -/
def findChildForKeyFrom (buf : Bytes) (key : I64) : Nat → Nat → Res Nat
  | _, 0 => interiorRightmost buf
  | i, count + 1 => do
    let cellKey ← interiorKeyAt buf i
    if key.val < cellKey.val then interiorChildAt buf i
    else findChildForKeyFrom buf key (i + 1) count

def interiorFindChildForKey (buf : Bytes) (key : I64) : Res Nat := do
  let n ← numCells buf
  findChildForKeyFrom buf key 0 n

end Pinax
