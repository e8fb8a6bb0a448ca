import Pinax.Library.Refinement
import Pinax.Verified.InteriorPage
import Pinax.Verified.LeafPage

/-! # Sequences of insertions and removals on a slotted page

A page that `init_leaf` or `init_interior` made is changed by any sequence of `insert_cell_at` and
`remove_cell_at` calls.  `CellList` says what the page is for: a list of cells, and a log of every
cell that was ever inserted, whose bytes are never given back.  `PageHolds` relates the two.
-/

namespace Pinax

open Refinement (Obeys Admits Simulates)

/-! ## The calls -/

/-- How a page was initialised. -/
inductive PageKind
  | leaf
  | interior (rightmostChild : UInt32)
  deriving DecidableEq

namespace PageKind

def headerLen : PageKind → Nat
  | leaf => leafHeaderLen
  | interior _ => interiorHeaderLen

def pageType : PageKind → Nat
  | leaf => pageTypeLeaf
  | interior _ => pageTypeInterior

/-- What the header holds after the two counters. -/
def tail : PageKind → Bytes
  | leaf => []
  | interior rightmostChild => toBe 4 rightmostChild.toNat

def init (profile : Profile) (buf : Bytes) : PageKind → Res Bytes
  | leaf => initLeaf profile buf
  | interior rightmostChild => initInterior profile buf rightmostChild.toNat

theorem headerLen_bounds (kind : PageKind) : 5 ≤ kind.headerLen ∧ kind.headerLen ≤ 9 := by
  cases kind <;> simp [headerLen, leafHeaderLen, interiorHeaderLen]

end PageKind

inductive PageCall
  | insert (index : Nat) (cellBytes : Bytes)
  | remove (index : Nat)
  deriving DecidableEq

namespace PageCall

def run (headerLen : Nat) (profile : Profile) (buf : Bytes) : PageCall → Res Bytes
  | insert index cellBytes => insertCellAt profile buf headerLen index cellBytes
  | remove index => do
    let (buf, _) ← removeCellAt buf headerLen index
    return buf

/-- What the caller of `insert_cell_at` has verified (`free_space` covers the cell and its pointer),
and that the index is one of the page. -/
def Allowed (headerLen : Nat) (profile : Profile) (buf : Bytes) : PageCall → Prop
  | insert index cellBytes =>
    (∀ n, numCells buf = .ok n → index ≤ n) ∧
      ∀ free, freeSpace profile buf headerLen = .ok free → cellBytes.length + pointerLen ≤ free
  | remove index => ∀ n, numCells buf = .ok n → index < n

/-- The call on a plain list. -/
def onList (cells : List Bytes) : PageCall → List Bytes
  | insert index cellBytes => cells.insertIdx index cellBytes
  | remove index => cells.eraseIdx index

end PageCall

/-- The calls one after the other, on a page that is initialised first. -/
def PageKind.run (kind : PageKind) (profile : Profile) (page : Bytes) (calls : List PageCall) :
    Res Bytes := do
  let buf ← kind.init profile page
  calls.foldlM (PageCall.run kind.headerLen profile) buf

/-- Each of these calls is allowed where it is made. -/
def PageKind.Obeyed (kind : PageKind) (profile : Profile) (page : Bytes) (calls : List PageCall) : Prop :=
  ∀ buf, kind.init profile page = .ok buf →
    Obeys (PageCall.Allowed kind.headerLen profile) (PageCall.run kind.headerLen profile) buf calls

/-! ## What a page is for -/

/-- The live cells in order, and every cell that was ever inserted, the newest one first.  The live
ones are among them; the others are the dead bytes of the content area. -/
structure CellList where
  cells : List Bytes
  log : List Bytes
  live : cells.Subperm log

namespace CellList

def empty : CellList := ⟨[], [], List.Subperm.refl []⟩

def insert (a : CellList) (index : Nat) (cellBytes : Bytes) : CellList where
  cells := a.cells.insertIdx index cellBytes
  log := cellBytes :: a.log
  live := by
    by_cases inside : index ≤ a.cells.length
    · exact (List.perm_insertIdx cellBytes a.cells inside).subperm.trans
        ((List.subperm_cons cellBytes).mpr a.live)
    · rw [List.insertIdx_of_length_lt (by omega)]
      exact a.live.cons_right cellBytes

def remove (a : CellList) (index : Nat) : CellList where
  cells := a.cells.eraseIdx index
  log := a.log
  live := (List.eraseIdx_sublist a.cells index).subperm.trans a.live

def apply (a : CellList) : PageCall → CellList
  | .insert index cellBytes => a.insert index cellBytes
  | .remove index => a.remove index

/-- The bytes the log takes. -/
def used (a : CellList) : Nat := a.log.flatten.length

/-- There is room for the call's cell and its pointer between the header and `contentEnd`. -/
def Admissible (headerLen contentEnd : Nat) (a : CellList) : PageCall → Prop
  | .insert index cellBytes =>
    index ≤ a.cells.length ∧ headerLen + 2 * (a.cells.length + 1) + a.used + cellBytes.length ≤ contentEnd
  | .remove index => index < a.cells.length

instance (headerLen contentEnd : Nat) (a : CellList) :
    ∀ call, Decidable (a.Admissible headerLen contentEnd call)
  | .insert index cellBytes => inferInstanceAs (Decidable
    (index ≤ a.cells.length ∧ headerLen + 2 * (a.cells.length + 1) + a.used +
      cellBytes.length ≤ contentEnd))
  | .remove index => inferInstanceAs (Decidable (index < a.cells.length))

@[simp] theorem used_insert (a : CellList) (index : Nat) (cellBytes : Bytes) :
    (a.insert index cellBytes).used = cellBytes.length + a.used := by
  simp [used, insert]

@[simp] theorem used_remove (a : CellList) (index : Nat) : (a.remove index).used = a.used := rfl

/-- The log has no say in what the calls do to the list. -/
theorem cells_foldl (calls : List PageCall) (a : CellList) :
    (calls.foldl apply a).cells = calls.foldl PageCall.onList a.cells := by
  refine (List.foldl_hom cells fun a call => ?_).symm
  cases call <;> rfl

end CellList

/-! ## The page holds the list -/

/-- The page's content area, from its start to its end, is the log; its live cells are those of the
list. -/
structure PageHolds (ps : PageSize) (kind : PageKind) (buf : Bytes) (a : CellList) : Prop where
  len : buf.length = ps.bytes
  pageType : slice buf 0 1 = toBe 1 kind.pageType
  tail : slice buf 5 (kind.headerLen - 5) = kind.tail
  fits : a.used ≤ ps.contentEnd
  area : slice buf (ps.contentEnd - a.used) a.used = a.log.flatten
  slotted : ∃ slots, Slotted kind.headerLen buf (ps.contentEnd - a.used) slots ∧
    slots.map Slot.bytes = a.cells

/-- An initialised page holds no cells, whatever it held before. -/
theorem PageKind.init_holds {ps : PageSize} (kind : PageKind) {page : Bytes}
    (len : page.length = ps.bytes) :
    ∃ buf, (∀ profile, kind.init profile page = .ok buf) ∧ PageHolds ps kind buf .empty := by
  have sizes := ps.bounds
  have header := kind.headerLen_bounds
  obtain ⟨buf, run, len, pageType, slotted⟩ := initSlotted_profiles len header.1 header.2 kind.pageType
  cases kind with
  | leaf =>
    exact ⟨buf, run, len, pageType, Slice.slice_zero _ _, Nat.zero_le _, Slice.slice_zero _ _,
      [], slotted, rfl⟩
  | interior rightmostChild =>
    -- the rightmost child goes between the counters and the pointer array
    obtain ⟨buf', write, len', child, apart⟩ := writeBe_ok buf 5 4 rightmostChild.toNat (by omega)
    have slotted' := slotted.header_write len' fun off n outside => apart off n (by
      simp only [headerLen, interiorHeaderLen] at outside
      omega)
    refine ⟨buf', fun profile => ?_, len'.trans len, ?_, child, Nat.zero_le _, Slice.slice_zero _ _,
      [], slotted', rfl⟩
    · show (initSlotted profile page pageTypeInterior >>= fun buf =>
        writeU32 buf 5 rightmostChild.toNat) = .ok buf'
      rw [show initSlotted profile page pageTypeInterior = .ok buf from run profile, ok_bind]
      exact write
    · rw [apart 0 1 (by omega)]
      exact pageType

namespace PageHolds

variable {ps : PageSize} {kind : PageKind} {buf : Bytes} {a : CellList}

theorem numCells_eq (h : PageHolds ps kind buf a) : numCells buf = .ok a.cells.length := by
  obtain ⟨slots, slotted, bytes⟩ := h.slotted
  rw [slotted.numCells_eq, ← bytes, List.length_map]

theorem freeSpace_eq (h : PageHolds ps kind buf a) (profile : Profile) :
    freeSpace profile buf kind.headerLen =
      .ok (ps.contentEnd - a.used - (kind.headerLen + 2 * a.cells.length)) := by
  obtain ⟨slots, slotted, bytes⟩ := h.slotted
  rw [slotted.freeSpace_eq profile, ← bytes, List.length_map]

/-- The page meets the obligations of a call when its list does. -/
theorem allowed_iff (h : PageHolds ps kind buf a) (profile : Profile) (call : PageCall) :
    call.Allowed kind.headerLen profile buf ↔ a.Admissible kind.headerLen ps.contentEnd call := by
  cases call with
  | insert index cellBytes =>
    simp only [PageCall.Allowed, CellList.Admissible, h.numCells_eq, h.freeSpace_eq profile,
      Except.ok.injEq, forall_eq', pointerLen]
    omega
  | remove index =>
    simp only [PageCall.Allowed, CellList.Admissible, h.numCells_eq, Except.ok.injEq, forall_eq']

theorem insert (h : PageHolds ps kind buf a) {index : Nat} {cellBytes : Bytes}
    (admissible : a.Admissible kind.headerLen ps.contentEnd (.insert index cellBytes)) :
    ∃ buf', (∀ profile, insertCellAt profile buf kind.headerLen index cellBytes = .ok buf') ∧
      PageHolds ps kind buf' (a.insert index cellBytes) := by
  obtain ⟨slots, slotted, bytes⟩ := h.slotted
  obtain ⟨inside, room⟩ := admissible
  have fits := h.fits
  rw [← bytes, List.length_map] at inside room
  obtain ⟨buf', run, len, pageType, tail, content, above, slotted'⟩ :=
    slotted.insertCellAt_profiles inside
    (show kind.headerLen + 2 * (slots.length + 1) + cellBytes.length ≤ ps.contentEnd - a.used by omega)
  -- the log grows downward: the new cell ends where the older ones start
  have start : ps.contentEnd - (a.insert index cellBytes).used =
    ps.contentEnd - a.used - cellBytes.length := by
    rw [CellList.used_insert]
    omega
  have stop : ps.contentEnd - a.used - cellBytes.length + cellBytes.length =
    ps.contentEnd - a.used := by omega
  refine ⟨buf', run, len.trans h.len, pageType.trans h.pageType, tail.trans h.tail, ?_, ?_, ?_⟩
  · rw [CellList.used_insert]
    omega
  · rw [start, CellList.used_insert, ← Slice.slice_add, stop, content, above _ _ (Nat.le_refl _), h.area]
    rfl
  · rw [start]
    exact ⟨_, slotted', by rw [List.map_insertIdx, bytes]; rfl⟩

theorem remove (h : PageHolds ps kind buf a) {index : Nat} (inside : index < a.cells.length) :
    ∃ buf' off, removeCellAt buf kind.headerLen index = .ok (buf', off) ∧
      pointerAt buf kind.headerLen index = .ok off ∧
      PageHolds ps kind buf' (a.remove index) := by
  obtain ⟨slots, slotted, bytes⟩ := h.slotted
  rw [← bytes, List.length_map] at inside
  have found : slots[index]? = some slots[index] := List.getElem?_eq_getElem inside
  obtain ⟨buf', run, len, pageType, tail, above, slotted'⟩ := slotted.removeCellAt_keeps found
  refine ⟨buf', _, run, slotted.pointerAt_eq found, len.trans h.len, pageType.trans h.pageType,
    tail.trans h.tail, h.fits, ?_, _, slotted', ?_⟩
  · rw [CellList.used_remove, above _ _ (Nat.le_refl _)]
    exact h.area
  · rw [← List.eraseIdx_map, bytes]
    rfl

end PageHolds

/-- Whatever the build, the calls on a page do what they do to the list it holds. -/
theorem pageCalls_simulate (ps : PageSize) (kind : PageKind) :
    Simulates (PageHolds ps kind) (PageCall.Allowed kind.headerLen) (PageCall.run kind.headerLen)
      (CellList.Admissible kind.headerLen ps.contentEnd) CellList.apply where
  pre_iff := fun related profile call => related.allowed_iff profile call
  step := by
    intro buf a call related admissible
    cases call with
    | insert index cellBytes => exact related.insert admissible
    | remove index =>
      obtain ⟨buf', off, run, -, related'⟩ := related.remove admissible
      exact ⟨buf', fun profile => by simp [PageCall.run, run], related'⟩

/-! ## What is read of the page -/

/-- The accessors find the type and the rightmost child the page was made with, and the cells
`cells`, byte for byte and in their order.  The cells lie between the pointer array and the
checksum, none of them over another one.  No reading overflows, whatever the build. -/
structure ReadsAs (ps : PageSize) (kind : PageKind) (buf : Bytes) (cells : List Bytes) : Prop where
  len : buf.length = ps.bytes
  pageType : readU8 buf 0 = .ok kind.pageType
  rightmost : ∀ child, kind = .interior child → interiorRightmost buf = .ok child.toNat
  count : numCells buf = .ok cells.length
  free : ∃ free, ∀ profile, freeSpace profile buf kind.headerLen = .ok free
  cell : ∀ i cell, cells[i]? = some cell → ∃ off, pointerAt buf kind.headerLen i = .ok off ∧
    readVec buf off cell.length = .ok cell ∧ kind.headerLen + pointerLen * cells.length ≤ off ∧
    off + cell.length + checksumLen ≤ ps.bytes
  disjoint : ∀ i j cell cell' off off', i ≠ j → cells[i]? = some cell → cells[j]? = some cell' →
    pointerAt buf kind.headerLen i = .ok off → pointerAt buf kind.headerLen j = .ok off' →
    off + cell.length ≤ off' ∨ off' + cell'.length ≤ off
  leafCell : kind = .leaf → ∀ maxLocal i c, c.Fits maxLocal → cells[i]? = some c.bytes →
    leafKeyAt buf i = .ok c.key ∧ leafCellAt buf i maxLocal = .ok c ∧
    ∀ profile, leafCellByteLen profile buf i maxLocal = .ok c.bytes.length
  interiorCell : ∀ rightmost, kind = .interior rightmost → ∀ i key child, child < 4294967296 →
    cells[i]? = some (buildInteriorCell key child) → interiorKeyAt buf i = .ok key ∧
      interiorChildAt buf i = .ok child

namespace PageHolds

variable {ps : PageSize} {kind : PageKind} {buf : Bytes} {a : CellList}

theorem reads (h : PageHolds ps kind buf a) : ReadsAs ps kind buf a.cells := by
  have sizes := ps.bounds
  have len := h.len
  obtain ⟨slots, slotted, bytes⟩ := h.slotted
  have count : slots.length = a.cells.length := by rw [← bytes, List.length_map]
  have below := slotted.below
  -- the slot behind a cell of the list
  have slotAt : ∀ {i : Nat} {cell : Bytes}, a.cells[i]? = some cell →
      ∃ slot, slots[i]? = some slot ∧ slot.bytes = cell := by
    intro i cell found
    rwa [← bytes, List.getElem?_map, Option.map_eq_some_iff] at found
  refine ⟨len, ?pageType, ?rightmost, h.numCells_eq, ⟨_, h.freeSpace_eq⟩, ?cell, ?disjoint,
    ?leafCell, ?interiorCell⟩
  case pageType =>
    refine readU8_of_slice (by omega) h.pageType ?_
    cases kind <;> simp [PageKind.pageType, pageTypeLeaf, pageTypeInterior]
  case rightmost =>
    rintro child rfl
    exact readU32_of_slice (by omega) h.tail child.toNat_lt
  case cell =>
    intro i cell found
    obtain ⟨slot, at', rfl⟩ := slotAt found
    obtain ⟨low, -, high, content⟩ := slotted.content slot (List.mem_of_getElem? at')
    refine ⟨slot.off, slotted.pointerAt_eq at', ?_, ?_, ?_⟩
    · rw [readVec, readBytes_of_le (by omega), content]
    · simp only [pointerLen]
      omega
    · simp only [checksumLen]
      omega
  case disjoint =>
    intro i j cell cell' off off' other left right pointer pointer'
    obtain ⟨slot, at', rfl⟩ := slotAt left
    obtain ⟨slot', at'', rfl⟩ := slotAt right
    rw [slotted.pointerAt_eq at', Except.ok.injEq] at pointer
    rw [slotted.pointerAt_eq at'', Except.ok.injEq] at pointer'
    subst pointer pointer'
    exact slotted.disjoint_of_ne other at' at''
  case leafCell =>
    rintro rfl maxLocal i c fits found
    obtain ⟨slot, at', same⟩ := slotAt found
    have member := List.mem_of_getElem? at'
    have pointer := slotted.pointerAt_eq at'
    obtain ⟨low, -, high, -⟩ := slotted.content slot member
    rw [same, LeafCell.length_bytes] at high
    refine ⟨slotted.leafKeyAt_eq member pointer same, slotted.leafCellAt_eq member pointer same fits,
      fun profile => ?_⟩
    rw [LeafCell.length_bytes]
    exact slotted.leafCellByteLen_eq member pointer same fits (by omega) profile
  case interiorCell =>
    rintro rightmost rfl i key child small found
    obtain ⟨slot, at', same⟩ := slotAt found
    have member := List.mem_of_getElem? at'
    have pointer := slotted.pointerAt_eq at'
    exact ⟨slotted.interiorKeyAt_eq member pointer same,
      slotted.interiorChildAt_eq member pointer same small⟩

end PageHolds

/-! ## Whole sequences -/

section sequences

variable {ps : PageSize} {kind : PageKind} {page : Bytes} {profile : Profile} {calls : List PageCall}

/-- Whether every call of a sequence is allowed is seen in the list of cells. -/
theorem obeyed_iff (kind : PageKind) (len : page.length = ps.bytes) (profile : Profile)
    (calls : List PageCall) :
    kind.Obeyed profile page calls ↔
      Admits (CellList.Admissible kind.headerLen ps.contentEnd) CellList.apply .empty calls := by
  obtain ⟨buf, init, holds⟩ := kind.init_holds len
  rw [← (pageCalls_simulate ps kind).obeys_iff profile holds]
  refine ⟨fun obeyed => obeyed buf (init profile), fun obeys buf' init' => ?_⟩
  obtain rfl := Except.ok.inj ((init profile).symm.trans init')
  exact obeys

theorem PageKind.run_holds (len : page.length = ps.bytes) (obeyed : kind.Obeyed profile page calls) :
    ∃ buf, (∀ profile, kind.run profile page calls = .ok buf) ∧
      PageHolds ps kind buf (calls.foldl CellList.apply .empty) := by
  obtain ⟨start, init, holds⟩ := kind.init_holds len
  obtain ⟨buf, run, holds'⟩ :=
    (pageCalls_simulate ps kind).run holds ((obeyed_iff kind len profile calls).mp obeyed)
  refine ⟨buf, fun profile => ?_, holds'⟩
  rw [PageKind.run, init profile, ok_bind]
  exact run profile

/-- A slotted page is a list of cells.  Every call of a sequence that meets the obligations
succeeds, with the same result with overflow checks as without; the page then reads as the list that
the same insertions and removals make. -/
theorem slotted_page_refines_list (len : page.length = ps.bytes)
    (obeyed : kind.Obeyed profile page calls) :
    ∃ buf, (∀ profile, kind.run profile page calls = .ok buf) ∧
      ReadsAs ps kind buf (calls.foldl PageCall.onList []) := by
  obtain ⟨buf, run, holds⟩ := PageKind.run_holds len obeyed
  have reads := holds.reads
  rw [CellList.cells_foldl] at reads
  exact ⟨buf, run, reads⟩

/-- The largest page, whose length does not fit a `u16`. -/
theorem slotted_page_refines_list_largest :
    ∃ buf, (∀ profile, (PageKind.interior 7).run profile (List.replicate 65536 0)
        [.insert 0 [1], .insert 0 [2, 3], .remove 1, .insert 1 [4]] = .ok buf) ∧
      ReadsAs ⟨65536, by decide, by decide, by decide⟩ (.interior 7) buf [[2, 3], [4]] := by
  have len : (List.replicate 65536 (0 : UInt8)).length
      = (⟨65536, by decide, by decide, by decide⟩ : PageSize).bytes := List.length_replicate
  exact slotted_page_refines_list len ((obeyed_iff (.interior 7) len .dev _).mpr (by decide))

end sequences

end Pinax
