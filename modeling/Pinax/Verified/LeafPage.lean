import Pinax.Btree.Ops
import Pinax.Verified.Lengths
import Pinax.Verified.SlottedPage

/-! # Leaf pages

`LeafPage ps buf start cells` says that `buf` is a leaf whose content area starts at `start` and whose
cells are `cells`, in order.  Searching, inserting, removing and splitting act on that list.
-/

namespace Pinax

/-- The bytes `build_leaf_cell` makes. -/
def LeafCell.bytes (c : LeafCell) : Bytes := buildLeafCell c.key c.payloadLen c.overflowFirst c.localBytes

/-- The length of the cell on its page. -/
def LeafCell.size (c : LeafCell) : Nat := 16 + c.localBytes.length

/-- The fields fit, and as much of the payload is local as may be. -/
structure LeafCell.Fits (maxLocal : Nat) (c : LeafCell) : Prop where
  payloadLen : c.payloadLen < 4294967296
  overflowFirst : c.overflowFirst < 4294967296
  localLen : c.localBytes.length = leafLocalLen c.payloadLen maxLocal

structure LeafPage (ps : PageSize) (buf : Bytes) (start : Nat) (cells : List LeafCell) : Prop where
  len : buf.length = ps.bytes
  pageType : slice buf 0 1 = toBe 1 pageTypeLeaf
  slotted : ∃ slots, Slotted leafHeaderLen buf start slots ∧
    slots.map Slot.bytes = cells.map LeafCell.bytes
  fits : ∀ c ∈ cells, c.Fits ps.maxLocal

@[simp] theorem LeafCell.length_bytes (c : LeafCell) : c.bytes.length = c.size := by
  simp only [LeafCell.bytes, buildLeafCell, List.length_append, I64.length_toBeBytes,
    BigEndian.length_toBe, LeafCell.size]

theorem LeafCell.size_le {ps : PageSize} {c : LeafCell} (h : c.Fits ps.maxLocal) :
    c.size ≤ ps.bytes - 27 := by
  have := ps.bounds
  have localLen := h.localLen
  simp only [leafLocalLen, PageSize.maxLocal, PageSize.usableSpace, checksumLen] at localLen
  simp only [LeafCell.size]
  omega

/-! ## Reading a cell that `build_leaf_cell` made -/

namespace Slotted

variable {buf : Bytes} {start i maxLocal : Nat} {slots : List Slot} {slot : Slot} {c : LeafCell}

theorem leafKeyAt_eq (h : Slotted leafHeaderLen buf start slots) (member : slot ∈ slots)
    (pointer : pointerAt buf leafHeaderLen i = .ok slot.off) (bytes : slot.bytes = c.bytes) :
    leafKeyAt buf i = .ok c.key := by
  have bound := h.cell_bound member
  rw [bytes, LeafCell.length_bytes, LeafCell.size] at bound
  rw [leafKeyAt, pointer, ok_bind]
  refine readI64_of_slice (by omega) ?_
  exact h.slice_part member [] (toBe 4 c.payloadLen ++ toBe 4 c.overflowFirst ++ c.localBytes)
    (by rw [bytes]; simp [LeafCell.bytes, buildLeafCell]) rfl c.key.length_toBeBytes

theorem leafPayloadLen_eq (h : Slotted leafHeaderLen buf start slots) (member : slot ∈ slots)
    (bytes : slot.bytes = c.bytes) (fits : c.Fits maxLocal) :
    readU32 buf (slot.off + 8) = .ok c.payloadLen := by
  have bound := h.cell_bound member
  rw [bytes, LeafCell.length_bytes, LeafCell.size] at bound
  refine readU32_of_slice (by omega) ?_ fits.payloadLen
  exact h.slice_part member c.key.toBeBytes (toBe 4 c.overflowFirst ++ c.localBytes)
    (by rw [bytes]; simp [LeafCell.bytes, buildLeafCell]) (by simp) (by simp)

theorem leafCellAt_eq (h : Slotted leafHeaderLen buf start slots) (member : slot ∈ slots)
    (pointer : pointerAt buf leafHeaderLen i = .ok slot.off) (bytes : slot.bytes = c.bytes)
    (fits : c.Fits maxLocal) :
    leafCellAt buf i maxLocal = .ok c := by
  have bound := h.cell_bound member
  rw [bytes, LeafCell.length_bytes, LeafCell.size] at bound
  have key := h.leafKeyAt_eq member pointer bytes
  rw [leafKeyAt, pointer, ok_bind] at key
  have overflowFirst : readU32 buf (slot.off + 12) = .ok c.overflowFirst := by
    refine readU32_of_slice (by omega) ?_ fits.overflowFirst
    exact h.slice_part member (c.key.toBeBytes ++ toBe 4 c.payloadLen) c.localBytes
      (by rw [bytes]; simp [LeafCell.bytes, buildLeafCell]) (by simp) (by simp)
  have localBytes : readVec buf (slot.off + leafCellFixedLen) (leafLocalLen c.payloadLen maxLocal) =
    .ok c.localBytes := by
    rw [readVec, ← fits.localLen]
    simp only [leafCellFixedLen]
    rw [readBytes_of_le (by omega),
      h.slice_part member (c.key.toBeBytes ++ toBe 4 c.payloadLen ++ toBe 4 c.overflowFirst) []
      (by rw [bytes]; simp [LeafCell.bytes, buildLeafCell]) (by simp) rfl]
  rw [leafCellAt]
  simp only [pointer, ok_bind, key, h.leafPayloadLen_eq member bytes fits, overflowFirst,
    localBytes, pure_eq_ok]

theorem leafCellByteLen_eq (h : Slotted leafHeaderLen buf start slots) (member : slot ∈ slots)
    (pointer : pointerAt buf leafHeaderLen i = .ok slot.off) (bytes : slot.bytes = c.bytes)
    (fits : c.Fits maxLocal) (small : c.size < 65536) (profile : Profile) :
    leafCellByteLen profile buf i maxLocal = .ok c.size := by
  have localLen := fits.localLen
  simp only [LeafCell.size, localLen] at small ⊢
  rw [leafCellByteLen]
  simp only [pointer, ok_bind, h.leafPayloadLen_eq member bytes fits]
  rw [tryFromOr_of_lt (show leafLocalLen c.payloadLen maxLocal < 2 ^ 16 by omega)]
  exact addW_of_lt small

end Slotted

namespace LeafPage

variable {ps : PageSize} {buf : Bytes} {start : Nat} {cells : List LeafCell}

theorem congr {buf' : Bytes} (h : LeafPage ps buf start cells) (same : body buf' = body buf)
    (len : buf'.length = ps.bytes) : LeafPage ps buf' start cells := by
  have sizes := ps.bounds
  obtain ⟨slots, slotted, bytes⟩ := h.slotted
  have here := h.len
  refine ⟨len, ?_, ⟨slots, slotted.congr same (by omega), bytes⟩, h.fits⟩
  rw [slice_congr same (by omega) (by omega)]
  exact h.pageType

/-- The pointer array ends at or below the content, and the content area below the checksum. -/
theorem bounds (h : LeafPage ps buf start cells) : 5 + 2 * cells.length ≤ start ∧ start + 8 ≤ ps.bytes ∧
    start < 65536 := by
  obtain ⟨slots, slotted, bytes⟩ := h.slotted
  have count := congrArg List.length bytes
  rw [List.length_map, List.length_map] at count
  have := slotted.below
  have := slotted.top
  have := slotted.small
  have := h.len
  simp only [leafHeaderLen] at *
  omega

/-! ## Reading -/

theorem readType (h : LeafPage ps buf start cells) : readU8 buf 0 = .ok pageTypeLeaf := by
  have := ps.bounds
  have := h.len
  exact readU8_of_slice (by omega) h.pageType (by decide)

theorem numCells_eq (h : LeafPage ps buf start cells) : numCells buf = .ok cells.length := by
  obtain ⟨slots, slotted, bytes⟩ := h.slotted
  have count := congrArg List.length bytes
  rw [List.length_map, List.length_map] at count
  rw [slotted.numCells_eq, count]

/-- The live cell behind the pointer at `i`. -/
theorem slot_at (h : LeafPage ps buf start cells) {i : Nat} {c : LeafCell} (found : cells[i]? = some c) :
    ∃ slots slot, Slotted leafHeaderLen buf start slots ∧ slot ∈ slots ∧ slot.bytes = c.bytes ∧
      pointerAt buf leafHeaderLen i = .ok slot.off := by
  obtain ⟨slots, slotted, bytes⟩ := h.slotted
  have same : (slots.map Slot.bytes)[i]? = some c.bytes := by
    rw [bytes, List.getElem?_map, found]
    rfl
  rw [List.getElem?_map, Option.map_eq_some_iff] at same
  obtain ⟨slot, at', bytes⟩ := same
  exact ⟨slots, slot, slotted, List.mem_of_getElem? at', bytes, slotted.pointerAt_eq at'⟩

theorem keyAt_eq (h : LeafPage ps buf start cells) {i : Nat} {c : LeafCell} (found : cells[i]? = some c) :
    leafKeyAt buf i = .ok c.key := by
  obtain ⟨slots, slot, slotted, member, bytes, pointer⟩ := h.slot_at found
  exact slotted.leafKeyAt_eq member pointer bytes

theorem cellAt_eq (h : LeafPage ps buf start cells) {i : Nat} {c : LeafCell}
    (found : cells[i]? = some c) :
    leafCellAt buf i ps.maxLocal = .ok c := by
  obtain ⟨slots, slot, slotted, member, bytes, pointer⟩ := h.slot_at found
  exact slotted.leafCellAt_eq member pointer bytes (h.fits c (List.mem_of_getElem? found))

theorem byteLen_eq (h : LeafPage ps buf start cells) (profile : Profile) {i : Nat} {c : LeafCell}
    (found : cells[i]? = some c) : leafCellByteLen profile buf i ps.maxLocal = .ok c.size := by
  obtain ⟨slots, slot, slotted, member, bytes, pointer⟩ := h.slot_at found
  have fits := h.fits c (List.mem_of_getElem? found)
  have sizes := ps.bounds
  have size := LeafCell.size_le fits
  exact slotted.leafCellByteLen_eq member pointer bytes fits (by omega) profile

/-- `leaf_split_with_new_cell` collects the cells as they are. -/
theorem collectCells_eq (h : LeafPage ps buf start cells) (profile : Profile) (i count : Nat)
    (inside : i + count = cells.length) :
    Btree.collectCells profile buf ps.maxLocal i count = .ok ((cells.drop i).map LeafCell.bytes) := by
  induction count generalizing i with
  | zero =>
    rw [Btree.collectCells, List.drop_eq_nil_of_le (by omega)]
    rfl
  | succ count ih =>
    have lt : i < cells.length := by omega
    have found : cells[i]? = some cells[i] := List.getElem?_eq_getElem lt
    obtain ⟨slots, slot, slotted, member, bytes, pointer⟩ := h.slot_at found
    have bound := slotted.cell_bound member
    have size : cells[i].size = slot.bytes.length := by rw [bytes, LeafCell.length_bytes]
    have read : readVec buf slot.off cells[i].size = .ok cells[i].bytes := by
      rw [size, readVec, readBytes_of_le (by omega), (slotted.content slot member).2.2.2, bytes]
    rw [Btree.collectCells, List.drop_eq_getElem_cons lt, List.map_cons]
    simp only [pointer, ok_bind, h.byteLen_eq profile found, read, ih (i + 1) (by omega), pure_eq_ok]

/-! ## Writing -/

theorem insertCellAt_ok (h : LeafPage ps buf start cells) (profile : Profile) {index : Nat} {c : LeafCell}
    (inside : index ≤ cells.length) (fits : c.Fits ps.maxLocal)
    (room : 5 + 2 * (cells.length + 1) + c.size ≤ start) :
    ∃ buf', insertCellAt profile buf leafHeaderLen index c.bytes = .ok buf' ∧
      LeafPage ps buf' (start - c.size) (cells.insertIdx index c) := by
  obtain ⟨slots, slotted, bytes⟩ := h.slotted
  have count := congrArg List.length bytes
  rw [List.length_map, List.length_map] at count
  have obligation : leafHeaderLen + 2 * (slots.length + 1) + c.bytes.length ≤ start := by
    rw [LeafCell.length_bytes]
    simp only [leafHeaderLen]
    omega
  have index_le : index ≤ slots.length := by omega
  obtain ⟨buf', run, len, pageType, -, slotted'⟩ := slotted.insertCellAt_ok profile index_le obligation
  rw [LeafCell.length_bytes] at slotted'
  refine ⟨buf', run, len.trans h.len, pageType.trans h.pageType, ⟨_, slotted', ?_⟩, ?_⟩
  · rw [List.map_insertIdx, List.map_insertIdx, bytes]
  · intro c' member
    rcases List.mem_cons.mp ((List.perm_insertIdx c cells inside).mem_iff.mp member) with rfl | old
    · exact fits
    · exact h.fits c' old

theorem removeCellAt_ok (h : LeafPage ps buf start cells) {index : Nat} (inside : index < cells.length) :
    ∃ buf' offset, removeCellAt buf leafHeaderLen index = .ok (buf', offset) ∧
      LeafPage ps buf' start (cells.eraseIdx index) := by
  obtain ⟨slots, slotted, bytes⟩ := h.slotted
  have count := congrArg List.length bytes
  rw [List.length_map, List.length_map] at count
  have found : slots[index]? = some slots[index] := List.getElem?_eq_getElem (by omega)
  obtain ⟨buf', run, len, pageType, -, slotted'⟩ := slotted.removeCellAt_ok found
  refine ⟨buf', _, run, len.trans h.len, pageType.trans h.pageType, ⟨_, slotted', ?_⟩, ?_⟩
  · rw [← List.eraseIdx_map, ← List.eraseIdx_map, bytes]
  · intro c member
    exact h.fits c ((List.eraseIdx_sublist cells index).mem member)

theorem freeSpace_eq (h : LeafPage ps buf start cells) (profile : Profile) :
    freeSpace profile buf leafHeaderLen = .ok (start - (5 + 2 * cells.length)) := by
  obtain ⟨slots, slotted, bytes⟩ := h.slotted
  have count := congrArg List.length bytes
  rw [List.length_map, List.length_map] at count
  rw [slotted.freeSpace_eq, count]
  rfl

/-! ## Searching -/

/-- Every round halves the range that still holds `index`, below which all keys are smaller. -/
theorem leafSearchLoop_eq (h : LeafPage ps buf start cells) {key : I64} {index bound lo hi : Nat}
    (below : ∀ i c, i < index → cells[i]? = some c → c.key.val < key.val)
    (above : ∀ i c, index < i → cells[i]? = some c → key.val < c.key.val)
    (here : ∀ c, cells[index]? = some c → key.val ≤ c.key.val)
    (enough : hi - lo ≤ bound) (low : lo ≤ index) (high : index ≤ hi) (inside : hi ≤ cells.length)
    (absent : index = hi → (cells[index]?.map LeafCell.key) ≠ some key) :
    leafSearchLoop buf key bound lo hi
      = .ok (if (cells[index]?.map LeafCell.key) = some key then .found index else .insertAt index) := by
  -- `index` stays between `lo` and `hi`, and each round halves what is between them
  induction bound generalizing lo hi with
  | zero =>
    have last : index = hi := by omega
    rw [leafSearchLoop, if_neg (absent last), show lo = index by omega]
  | succ bound ih =>
    rw [leafSearchLoop]
    by_cases more : lo < hi
    · rw [if_pos more]
      have inRange : lo + (hi - lo) / 2 < hi := by omega
      have notBefore : lo ≤ lo + (hi - lo) / 2 := Nat.le_add_right _ _
      have shrinksRight : hi - (lo + (hi - lo) / 2 + 1) ≤ bound := by omega
      have shrinksLeft : lo + (hi - lo) / 2 - lo ≤ bound := by omega
      generalize lo + (hi - lo) / 2 = mid at *
      have found : cells[mid]? = some cells[mid] := List.getElem?_eq_getElem (by omega)
      generalize cells[mid] = c at found
      simp only [h.keyAt_eq found, ok_bind]
      by_cases same : c.key = key
      -- the keys are distinct, so the key found is the one at `index`
      · have at' : mid = index := by
          rcases Nat.lt_trichotomy mid index with before | equal | after
          · exact absurd (below mid c before found) (by rw [same]; omega)
          · exact equal
          · exact absurd (above mid c after found) (by rw [same]; omega)
        subst at'
        rw [if_pos same, found, Option.map_some, same, if_pos rfl]
        rfl
      · rw [if_neg same]
        by_cases less : c.key.val < key.val
        · rw [if_pos less]
          have before : mid < index := by
            rcases Nat.lt_trichotomy mid index with before | equal | after
            · exact before
            · subst equal
              exact absurd (here c found) (by omega)
            · exact absurd (above mid c after found) (by omega)
          exact ih shrinksRight before high inside absent
        · rw [if_neg less]
          -- not at `mid`, which becomes the end of the range
          have notAfter : index ≤ mid := by
            by_contra after
            exact less (below mid c (by omega) found)
          refine ih shrinksLeft low notAfter (by omega) fun equal => ?_
          subst equal
          rw [found, Option.map_some, ne_eq, Option.some.injEq]
          exact same
    · have last : index = hi := by omega
      rw [if_neg more, if_neg (absent last), show lo = index by omega]

/-- The first key that is not smaller. -/
def position (key : I64) (keys : List I64) : Nat := keys.findIdx fun k => key.val ≤ k.val

theorem position_le (key : I64) (keys : List I64) : position key keys ≤ keys.length :=
  List.findIdx_le_length

theorem lt_of_lt_position {key k : I64} {keys : List I64} {i : Nat} (before : i < position key keys)
    (found : keys[i]? = some k) : k.val < key.val := by
  obtain ⟨inside, rfl⟩ := List.getElem?_eq_some_iff.mp found
  simpa using List.not_of_lt_findIdx before

theorem le_at_position {key k : I64} {keys : List I64} (found : keys[position key keys]? = some k) :
    key.val ≤ k.val := by
  obtain ⟨inside, rfl⟩ := List.getElem?_eq_some_iff.mp found
  have holds := @List.findIdx_getElem _ (fun k : I64 => decide (key.val ≤ k.val)) keys inside
  exact of_decide_eq_true holds

/-- `leaf_search` finds the cell of `key`, or where it belongs. -/
theorem leafSearch_eq (h : LeafPage ps buf start cells) (key : I64)
    (sorted : (cells.map LeafCell.key).Pairwise fun a b => a.val < b.val) :
    let index := position key (cells.map LeafCell.key)
    leafSearch buf key = .ok (if (cells[index]?.map LeafCell.key) = some key then .found index
      else .insertAt index) := by
  intro index
  have keyOf : ∀ {i : Nat} {c : LeafCell}, cells[i]? = some c →
    (cells.map LeafCell.key)[i]? = some c.key :=
    fun found => by rw [List.getElem?_map, found]; rfl
  have le : index ≤ cells.length := by
    have := position_le key (cells.map LeafCell.key)
    rwa [List.length_map] at this
  rw [leafSearch, h.numCells_eq, ok_bind]
  refine h.leafSearchLoop_eq (fun i c before found => lt_of_lt_position before (keyOf found)) ?_
    (fun c found => le_at_position (keyOf found)) (by omega) (Nat.zero_le _) le (Nat.le_refl _) ?_
  · intro i c after found
    obtain ⟨inside, same⟩ := List.getElem?_eq_some_iff.mp found
    have at' : cells[index]? = some cells[index] := List.getElem?_eq_getElem (by omega)
    have low := le_at_position (keyOf at')
    have := List.pairwise_iff_getElem.mp sorted index i (by simpa using by omega)
      (by simpa using inside) after
    simp only [List.getElem_map, same] at this
    omega
  · intro last
    rw [last, List.getElem?_eq_none (Nat.le_refl _)]
    simp

end LeafPage

theorem initLeaf_ok (profile : Profile) (ps : PageSize) :
    ∃ buf, initLeaf profile (List.replicate ps.bytes 0) = .ok buf ∧ LeafPage ps buf ps.contentEnd [] := by
  have blank : (List.replicate ps.bytes (0 : UInt8)).length = ps.bytes := List.length_replicate
  obtain ⟨buf, run, len, pageType, slotted⟩ :=
    initSlotted_ok profile blank (show 5 ≤ leafHeaderLen by decide)
    (by decide) pageTypeLeaf
  exact ⟨buf, run, len, pageType, ⟨[], slotted, rfl⟩, fun c member => absurd member List.not_mem_nil⟩

/-- The bytes the cells take. -/
def cellsLen (cells : List LeafCell) : Nat := (cells.map LeafCell.size).sum

theorem fillLeaf_ok (profile : Profile) {ps : PageSize} {buf : Bytes} {start : Nat}
    {done cells : List LeafCell} (h : LeafPage ps buf start done) (fits : ∀ c ∈ cells, c.Fits ps.maxLocal)
    (room : 5 + 2 * (done.length + cells.length) + cellsLen cells ≤ start) :
    ∃ buf', Btree.fillLeaf profile done.length (cells.map LeafCell.bytes) buf = .ok buf' ∧
      LeafPage ps buf' (start - cellsLen cells) (done ++ cells) := by
  induction cells generalizing buf start done with
  | nil => exact ⟨buf, rfl, by simpa [cellsLen] using h⟩
  | cons c cells ih =>
    simp only [cellsLen, List.map_cons, List.sum_cons, List.length_cons] at room ⊢
    obtain ⟨buf₁, run, page⟩ := h.insertCellAt_ok profile (Nat.le_refl done.length)
      (fits c List.mem_cons_self) (by omega)
    rw [List.insertIdx_length_self] at page
    obtain ⟨buf₂, run', page'⟩ := ih page (fun c' member => fits c' (List.mem_cons_of_mem _ member))
      (by simp only [cellsLen, List.length_append, List.length_cons, List.length_nil]; omega)
    refine ⟨buf₂, ?_, ?_⟩
    · rw [Btree.fillLeaf, run, ok_bind]
      rwa [List.length_append] at run'
    · simp only [cellsLen, List.append_assoc, List.singleton_append] at page'
      rw [Nat.sub_sub] at page'
      exact page'

/-- A half of a split whose cells meet the obligation of `insert_cell_at`. -/
def HalfFits (ps : PageSize) (cells : List LeafCell) : Prop :=
  5 + 2 * cells.length + cellsLen cells ≤ ps.contentEnd

instance (ps : PageSize) (cells : List LeafCell) : Decidable (HalfFits ps cells) := by
  unfold HalfFits
  infer_instance

theorem buildLeafHalf_ok (profile : Profile) {ps : PageSize} {cells : List LeafCell}
    (fits : ∀ c ∈ cells, c.Fits ps.maxLocal) (room : HalfFits ps cells) :
    ∃ buf, Btree.buildLeafHalf profile ps.bytes (cells.map LeafCell.bytes) = .ok buf ∧
      LeafPage ps buf (ps.contentEnd - cellsLen cells) cells := by
  obtain ⟨buf, init, page⟩ := initLeaf_ok profile ps
  obtain ⟨buf', fill, page'⟩ := fillLeaf_ok profile page fits (by simpa [HalfFits] using room)
  exact ⟨buf', by rw [Btree.buildLeafHalf, init]; exact fill, page'⟩

end Pinax
