import Pinax.Disk

/-! # The pager (`pager.rs`) -/

namespace Pinax

def metaMagic : Bytes := [0x50, 0x4e, 0x58, 0x31]
def metaFormatVersion : Nat := 1
def offsetMagic : Nat := 0
def offsetVersion : Nat := 4
def offsetPageSize : Nat := 6
def offsetTxnId : Nat := 10
def offsetRoot : Nat := 18
def offsetPageCount : Nat := 22
def offsetFreelistHead : Nat := 26

structure MetaContent where
  pageSize : PageSize
  txnId : Nat
  rootPageId : Nat
  pageCount : Nat
  deriving DecidableEq

def decodeMetaSlot (buf : Bytes) : Option MetaContent :=
  match readBytes buf offsetMagic 4 with
  | .error _ => none
  | .ok magic =>
    if magic ≠ metaMagic then none
    else
      let content : Res MetaContent := do
        let pageSizeRaw ← readU32 buf offsetPageSize
        let pageSize ← PageSize.tryFrom pageSizeRaw
        let txnId ← readU64 buf offsetTxnId
        let rootPageId ← readU32 buf offsetRoot
        let pageCount ← readU32 buf offsetPageCount
        return { pageSize, txnId, rootPageId, pageCount }
      content.toOption

/-- The slot's fields, before its checksum is stamped. -/
def metaFields (content : MetaContent) : Res Bytes := do
  let buf := List.replicate metaSlotLen 0
  let buf ← writeBytes buf offsetMagic metaMagic
  let buf ← writeU16 buf offsetVersion metaFormatVersion
  let buf ← writeU32 buf offsetPageSize content.pageSize.bytes
  let buf ← writeU64 buf offsetTxnId content.txnId
  let buf ← writeU32 buf offsetRoot content.rootPageId
  let buf ← writeU32 buf offsetPageCount content.pageCount
  writeU32 buf offsetFreelistHead 0

variable (env : Env)

def encodeMetaSlot (content : MetaContent) : Res Bytes := do
  let buf ← metaFields content
  stampChecksum env buf

-- the two meta slots are `0` and `1` of `Fin 2`
instance neZeroTwo : NeZero 2 := ⟨by decide⟩

/-- `Pager`; the file itself is the `Disk` the pager's calls run on. -/
structure Pager where
  pageSize : PageSize
  activeSlot : Fin 2
  txnId : Nat
  rootPageId : Nat
  pageCount : Nat
  deriving DecidableEq

namespace Pager

def create (pageSize : PageSize) : IoM Pager := do
  let d ← get
  if d.present then throw (.permanent .alreadyExists)
  else
    -- `open` with `create_new`: an I/O call that makes the empty file
    match ← ioCall env with
    | some _ => throw Stop.io
    | none =>
      modify fun d => { d with present := true, file := File.empty }
      let slot ← encodeMetaSlot env
        { pageSize, txnId := 0, rootPageId := emptyTreeRoot, pageCount := firstDataPageId }
      writeAllAt env 0 slot
      setLen env metaRegionLen
      sync env
      return {
        pageSize
        activeSlot := 0
        txnId := 0
        rootPageId := emptyTreeRoot
        pageCount := firstDataPageId }

/-- A slot's content, if its checksum verifies and it decodes. -/
def validSlot (slot : Bytes) : Option MetaContent :=
  if verifies env slot then decodeMetaSlot slot else none

/-- Which of the two slots `open` takes. -/
def chooseSlot (a b : Option MetaContent) : Option (Fin 2 × MetaContent) :=
  match a, b with
  | some a, some b => if b.txnId > a.txnId then some (1, b) else some (0, a)
  | some a, none => some (0, a)
  | none, some b => some (1, b)
  | none, none => none

def openFile : IoM Pager := do
  let opened ← ioCall env
  let d ← get
  if opened.isSome ∨ d.present = false then throw Stop.io
  else
    let metadata ← ioCall env
    if metadata.isSome then throw Stop.io
    else
      let d ← get
      if d.file.len < metaRegionLen then throw (.fatal (.fileTooSmall d.file.len metaRegionLen))
      else
        let slotA ← readExactAt env 0 metaSlotLen
        let slotB ← readExactAt env metaSlotLen metaSlotLen
        match chooseSlot (validSlot env slotA) (validSlot env slotB) with
        | none => throw (.fatal .noValidMetaPage)
        | some (activeSlot, content) =>
          return {
            pageSize := content.pageSize
            activeSlot
            txnId := content.txnId
            rootPageId := content.rootPageId
            pageCount := content.pageCount }

/-- Byte offset of data page `id`; `id - firstDataPageId` saturates. -/
def fileOffset (pageSize : PageSize) (id : Nat) : Nat :=
  metaRegionLen + (id - firstDataPageId) * pageSize.bytes

def readDataPage (pager : Pager) (id : Nat) : IoM Bytes := do
  let buf ← readExactAt env (fileOffset pager.pageSize id) pager.pageSize.bytes
  if verifies env buf then return buf
  else throw (.fatal (.corruption id (storedChecksum buf) (computeChecksum env buf)))

/-- The write of a stamped buffer in `write_data_page`. -/
def writeStamped (pager : Pager) (id : Nat) (buf : Bytes) : IoM Unit := do
  record (.pageWrite id pager.pageCount)
  writeAllAt env (fileOffset pager.pageSize id) buf

def commit (pager : Pager) (newRoot newPageCount : Nat) : IoM Pager := do
  sync env
  let targetSlot := 1 - pager.activeSlot
  let txnId ← addW env.profile 64 pager.txnId 1
  let slotBuf ← encodeMetaSlot env
    { pageSize := pager.pageSize, txnId, rootPageId := newRoot, pageCount := newPageCount }
  writeAllAt env (targetSlot.val * metaSlotLen) slotBuf
  sync env
  return { pager with activeSlot := targetSlot, txnId, rootPageId := newRoot, pageCount := newPageCount }

def expectPageType (id : Nat) (buf : Bytes) (expectedByte : Nat) (expectedLabel : String) : Res Unit := do
  let actual ← readU8 buf 0
  if actual = expectedByte then return ()
  else throw (.fatal (.unexpectedPageType id expectedLabel actual))

end Pager

end Pinax
