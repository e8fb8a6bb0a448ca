import Pinax.Btree.Mutate
import Pinax.Library.SearchNode
import Pinax.Verified.SlottedPage

/-! # Interior pages

`InteriorPage ps buf node` says that `buf` is an interior page whose cells and rightmost child are
those of the search node `node`.  Routing, repointing a child, splicing a split in and splitting act
on that node.
-/

namespace Pinax

open SearchNode (Node Hole routeFrom)

structure InteriorPage (ps : PageSize) (buf : Bytes) (node : Node I64 Nat) : Prop where
  len : buf.length = ps.bytes
  pageType : slice buf 0 1 = toBe 1 pageTypeInterior
  rightmost : slice buf 5 4 = toBe 4 node.last
  slotted : ∃ start slots, Slotted interiorHeaderLen buf start slots ∧
    slots.map Slot.bytes = node.cells.map fun c => buildInteriorCell c.1 c.2
  fits : ∀ id ∈ node.children, id < 4294967296

@[simp] theorem length_buildInteriorCell (key : I64) (child : Nat) :
    (buildInteriorCell key child).length = 12 := by
  simp [buildInteriorCell]

theorem mem_children_of_getElem? {node : Node I64 Nat} {i : Nat} {key : I64} {child : Nat}
    (found : node.cells[i]? = some (key, child)) : child ∈ node.children :=
  List.mem_append_left _ (List.mem_map.mpr ⟨(key, child), List.mem_of_getElem? found, rfl⟩)

/-! ## Reading a cell that `build_interior_cell` made -/

namespace Slotted

variable {buf : Bytes} {start i child : Nat} {slots : List Slot} {slot : Slot} {key : I64}

theorem interiorKeyAt_eq (h : Slotted interiorHeaderLen buf start slots) (member : slot ∈ slots)
    (pointer : pointerAt buf interiorHeaderLen i = .ok slot.off)
    (bytes : slot.bytes = buildInteriorCell key child) :
    interiorKeyAt buf i = .ok key := by
  have bound := h.cell_bound member
  rw [bytes, length_buildInteriorCell] at bound
  rw [interiorKeyAt, pointer, ok_bind]
  refine readI64_of_slice (by omega) ?_
  exact h.slice_part member [] (toBe 4 child) bytes rfl key.length_toBeBytes

theorem interiorChildAt_eq (h : Slotted interiorHeaderLen buf start slots) (member : slot ∈ slots)
    (pointer : pointerAt buf interiorHeaderLen i = .ok slot.off)
    (bytes : slot.bytes = buildInteriorCell key child) (small : child < 4294967296) :
    interiorChildAt buf i = .ok child := by
  have bound := h.cell_bound member
  rw [bytes, length_buildInteriorCell] at bound
  rw [interiorChildAt, pointer, ok_bind]
  refine readU32_of_slice (by omega) ?_ small
  exact h.slice_part member key.toBeBytes []
    (by rw [bytes]; simp [buildInteriorCell]) key.length_toBeBytes (by simp)

end Slotted

namespace InteriorPage

variable {ps : PageSize} {buf : Bytes} {node : Node I64 Nat}

theorem congr {buf' : Bytes} (h : InteriorPage ps buf node) (same : body buf' = body buf)
    (len : buf'.length = ps.bytes) :
    InteriorPage ps buf' node := by
  have sizes := ps.bounds
  have here := h.len
  obtain ⟨start, slots, slotted, bytes⟩ := h.slotted
  refine ⟨len, ?_, ?_, ⟨start, slots, slotted.congr same (by omega), bytes⟩, h.fits⟩
  · rw [slice_congr same (by omega) (by omega)]; exact h.pageType
  · rw [slice_congr same (by omega) (by omega)]; exact h.rightmost

/-! ## Reading -/

theorem readType (h : InteriorPage ps buf node) : readU8 buf 0 = .ok pageTypeInterior := by
  have := ps.bounds
  have := h.len
  exact readU8_of_slice (by omega) h.pageType (by decide)

theorem expectPageType (h : InteriorPage ps buf node) (id : Nat) :
    Pager.expectPageType id buf pageTypeInterior "interior" = .ok ⟨⟩ := by
  rw [Pager.expectPageType, h.readType]
  rfl

theorem rightmost_eq (h : InteriorPage ps buf node) : interiorRightmost buf = .ok node.last := by
  have := ps.bounds
  have := h.len
  exact readU32_of_slice (by omega) h.rightmost
    (h.fits _ (List.mem_append_right _ (List.mem_singleton_self _)))

theorem numCells_eq (h : InteriorPage ps buf node) : numCells buf = .ok node.cells.length := by
  obtain ⟨start, slots, slotted, bytes⟩ := h.slotted
  have count := congrArg List.length bytes
  rw [List.length_map, List.length_map] at count
  rw [slotted.numCells_eq, count]

/-- The live cell behind the pointer at `i`. -/
theorem slot_at (h : InteriorPage ps buf node) {i : Nat} {key : I64} {child : Nat}
    (found : node.cells[i]? = some (key, child)) :
    ∃ start slots slot, Slotted interiorHeaderLen buf start slots ∧
      slots.map Slot.bytes = (node.cells.map fun c => buildInteriorCell c.1 c.2) ∧
      slots[i]? = some slot ∧ slot.bytes = buildInteriorCell key child := by
  obtain ⟨start, slots, slotted, bytes⟩ := h.slotted
  have same : (slots.map Slot.bytes)[i]? = some (buildInteriorCell key child) := by
    rw [bytes, List.getElem?_map, found]
    rfl
  rw [List.getElem?_map, Option.map_eq_some_iff] at same
  obtain ⟨slot, at', same⟩ := same
  exact ⟨start, slots, slot, slotted, bytes, at', same⟩

theorem keyAt_eq (h : InteriorPage ps buf node) {i : Nat} {key : I64} {child : Nat}
    (found : node.cells[i]? = some (key, child)) : interiorKeyAt buf i = .ok key := by
  obtain ⟨start, slots, slot, slotted, -, at', bytes⟩ := h.slot_at found
  exact slotted.interiorKeyAt_eq (List.mem_of_getElem? at') (slotted.pointerAt_eq at') bytes

theorem childAt_eq (h : InteriorPage ps buf node) {i : Nat} {key : I64} {child : Nat}
    (found : node.cells[i]? = some (key, child)) : interiorChildAt buf i = .ok child := by
  obtain ⟨start, slots, slot, slotted, -, at', bytes⟩ := h.slot_at found
  exact slotted.interiorChildAt_eq (List.mem_of_getElem? at') (slotted.pointerAt_eq at') bytes
    (h.fits child (mem_children_of_getElem? found))

/-- The next cell of a page that still has cells from `i` on. -/
theorem drop_eq {count i : Nat} (inside : i + (count + 1) = node.cells.length) :
    ∃ key child, node.cells[i]? = some (key, child) ∧
      node.cells.drop i = (key, child) :: node.cells.drop (i + 1) := by
  have lt : i < node.cells.length := by omega
  exact ⟨_, _, List.getElem?_eq_getElem lt, List.drop_eq_getElem_cons lt⟩

theorem entriesFrom_eq (h : InteriorPage ps buf node) {i count : Nat}
    (inside : i + count = node.cells.length) :
    interiorEntriesFrom buf i count =
      .ok ((node.cells.drop i).map Prod.fst, (node.cells.drop i).map Prod.snd) := by
  induction count generalizing i with
  | zero =>
    rw [interiorEntriesFrom, List.drop_eq_nil_of_le (by omega)]
    rfl
  | succ count ih =>
    obtain ⟨key, child, found, cons⟩ := drop_eq inside
    rw [interiorEntriesFrom, cons]
    simp only [h.keyAt_eq found, h.childAt_eq found, ih (show i + 1 + count = _ by omega),
      ok_bind, pure_eq_ok, List.map_cons]

theorem entries_eq (h : InteriorPage ps buf node) :
    interiorEntries buf = .ok (node.keys, node.children) := by
  simp only [interiorEntries, h.numCells_eq, h.entriesFrom_eq (Nat.zero_add _), h.rightmost_eq,
    ok_bind, pure_eq_ok, List.drop_zero, Node.keys, Node.children]

theorem findChildForKeyFrom_eq (h : InteriorPage ps buf node) (key : I64) (before : List (I64 × Nat))
    {i count : Nat} (inside : i + count = node.cells.length) : findChildForKeyFrom buf key i count
      = .ok (routeFrom I64.val key.val before (node.cells.drop i) node.last).2 := by
  induction count generalizing i before with
  | zero =>
    rw [findChildForKeyFrom, List.drop_eq_nil_of_le (by omega)]
    exact h.rightmost_eq
  | succ count ih =>
    obtain ⟨separator, child, found, cons⟩ := drop_eq inside
    rw [findChildForKeyFrom, cons, h.keyAt_eq found, ok_bind, routeFrom]
    by_cases less : key.val < separator.val
    · rw [if_pos less, if_pos less]
      exact h.childAt_eq found
    · rw [if_neg less, if_neg less]
      exact ih _ (by omega)

/-- The child a key is routed to. -/
theorem findChildForKey_eq (h : InteriorPage ps buf node) (key : I64) :
    interiorFindChildForKey buf key = .ok (node.route I64.val key.val).2 := by
  rw [interiorFindChildForKey, h.numCells_eq, ok_bind, h.findChildForKeyFrom_eq key [] (Nat.zero_add _)]
  rfl

/-! ## Finding a child by its id -/

/-- The slot of the child that is missing. -/
def slotOf : Hole I64 Nat → ChildSlot
  | .cell before _ _ _ => .cell before.length
  | .atEnd _ => .rightmost

theorem findChildSlotFrom_skip (h : InteriorPage ps buf node) {id i count skip : Nat}
    (inside : i + (skip + count) = node.cells.length)
    (absent : ∀ c ∈ (node.cells.drop i).take skip, c.2 ≠ id) :
    findChildSlotFrom buf id i (skip + count) = findChildSlotFrom buf id (i + skip) count := by
  induction skip generalizing i with
  | zero => rw [Nat.zero_add, Nat.add_zero]
  | succ skip ih =>
    obtain ⟨key, child, found, cons⟩ := drop_eq (show i + (skip + count + 1) = node.cells.length by omega)
    rw [cons, List.take_succ_cons] at absent
    have other : child ≠ id := absent _ List.mem_cons_self
    rw [show skip + 1 + count = skip + count + 1 by omega, findChildSlotFrom, h.childAt_eq found,
      ok_bind, if_neg other,
      ih (by omega) fun c member => absent c (List.mem_cons_of_mem _ member), show i + 1 + skip =
        i + (skip + 1) by omega]

theorem findChildSlot_eq {hole : Hole I64 Nat} {id : Nat} (h : InteriorPage ps buf (hole.fill id))
    (once : id ∉ hole.others) : interiorFindChildSlot buf id = .ok (slotOf hole) := by
  rw [interiorFindChildSlot, h.numCells_eq, ok_bind]
  cases hole with
  | cell before key after last =>
    have cells : (Hole.fill (.cell before key after last) id).cells = before ++ (key, id) :: after := rfl
    have absent : ∀ c ∈ ((before ++ (key, id) :: after).drop 0).take before.length, c.2 ≠ id := by
      rw [List.drop_zero, List.take_left]
      rintro c member rfl
      exact once (List.mem_append_left _ (List.mem_map_of_mem member))
    have found : (before ++ (key, id) :: after)[before.length]? = some (key, id) := by simp
    have length : (before ++ (key, id) :: after).length = before.length + (after.length + 1) := by simp
    rw [cells, length, h.findChildSlotFrom_skip (by rw [cells, length, Nat.zero_add]) absent,
      Nat.zero_add, findChildSlotFrom, h.childAt_eq found, ok_bind, if_pos rfl]
    rfl
  | atEnd cells =>
    have absent : ∀ c ∈ (cells.drop 0).take cells.length, c.2 ≠ id := by
      rw [List.drop_zero, List.take_length]
      rintro c member rfl
      exact once (List.mem_map_of_mem member)
    have inside : 0 + (cells.length + 0) = (Hole.fill (.atEnd cells) id).cells.length := by
      simp [Hole.fill]
    exact h.findChildSlotFrom_skip inside absent

/-- Repointing the child replaces it in the node. -/
theorem setChildSlot_ok {hole : Hole I64 Nat} {id : Nat} (h : InteriorPage ps buf (hole.fill id))
    {newChild : Nat} (small : newChild < 4294967296) :
    ∃ buf', setChildSlot buf (slotOf hole) newChild = .ok buf' ∧
      InteriorPage ps buf' (hole.fill newChild) := by
  have sizes := ps.bounds
  have len := h.len
  have fits : ∀ id' ∈ (hole.fill newChild).children, id' < 4294967296 := by
    intro id' member
    rcases List.mem_cons.mp ((hole.children_fill newChild).mem_iff.mp member) with rfl | other
    · exact small
    · exact h.fits id' ((hole.children_fill id).mem_iff.mpr (List.mem_cons_of_mem _ other))
  cases hole with
  | cell before key after last =>
    -- the child is in a cell: four bytes of it are written over
    have found : (Hole.fill (.cell before key after last) id).cells[before.length]? = some (key, id) := by
      simp [Hole.fill]
    obtain ⟨start, slots, slot, slotted, bytes, at', cell⟩ := h.slot_at found
    have inside : 8 + (toBe 4 newChild).length ≤ slot.bytes.length := by rw [cell]; simp
    obtain ⟨buf', written, len', kept, slotted'⟩ := slotted.cell_write at' inside
    have low := slotted.below
    simp only [interiorHeaderLen] at low
    refine ⟨buf', ?_, len'.trans len, ?_, ?_, ⟨start, _, slotted', ?_⟩, fits⟩
    · show interiorSetChildAt buf before.length newChild = _
      rw [interiorSetChildAt, slotted.pointerAt_eq at', ok_bind]
      exact written
    · rw [kept 0 1 (by omega)]; exact h.pageType
    · rw [kept 5 4 (by omega)]; exact h.rightmost
    · have cell' : Slice.overwrite slot.bytes 8 (toBe 4 newChild) = buildInteriorCell key newChild := by
        rw [cell, Slice.overwrite, buildInteriorCell, buildInteriorCell]
        simp
      rw [List.map_set, bytes, cell']
      simp [Hole.fill]
  | atEnd cells =>
    -- the child is the last one: its id is in the header
    obtain ⟨buf', written, len', at', apart⟩ := writeBe_ok buf 5 4 newChild (by omega)
    obtain ⟨start, slots, slotted, bytes⟩ := h.slotted
    refine ⟨buf', written, len'.trans len, ?_, at', ⟨start, slots, ?_, bytes⟩, fits⟩
    · rw [apart 0 1 (by omega)]; exact h.pageType
    · exact slotted.header_write len' fun off n outside => apart off n
        (by simp only [interiorHeaderLen] at outside; omega)

/-! ## Splicing a split in -/

theorem findIdx_children {hole : Hole I64 Nat} {id : Nat} (once : id ∉ hole.others) :
    childPosition (hole.fill id).children id = hole.index := by
  have found : (hole.fill id).children.findIdx (· = id) = hole.index := by
    cases hole with
    | cell before key after last =>
      have absent : ∀ child ∈ before.map Prod.snd, ¬ decide (child = id) = true := by
        rintro child member here
        exact once (List.mem_append_left _ (of_decide_eq_true here ▸ member))
      simp only [Hole.fill, Node.children, List.map_append, List.map_cons, List.append_assoc,
        List.cons_append, Hole.index]
      rw [List.findIdx_append, List.findIdx_eq_length.mpr fun child member =>
        by simpa using absent child member]
      simp [List.findIdx_cons]
    | atEnd cells =>
      have absent : ∀ child ∈ cells.map Prod.snd, ¬ decide (child = id) = true := by
        rintro child member here
        exact once (of_decide_eq_true here ▸ member)
      simp only [Hole.fill, Node.children, Hole.index]
      rw [List.findIdx_append, List.findIdx_eq_length.mpr fun child member =>
        by simpa using absent child member]
      simp
  have inside : hole.index < (hole.fill id).children.length := by
    cases hole <;> simp [Hole.fill, Node.children, Hole.index]
  rw [childPosition, found, if_pos inside]

theorem insertIdx_append {α : Type} (xs ys : List α) (a : α) :
    (xs ++ ys).insertIdx xs.length a = xs ++ a :: ys := by
  induction xs with
  | nil => rfl
  | cons x xs ih =>
    rw [List.cons_append, List.length_cons, List.insertIdx_succ_cons, ih]
    rfl

theorem set_append_second {α : Type} (xs ys : List α) (a b c : α) :
    (xs ++ a :: b :: ys).set (xs.length + 1) c = xs ++ a :: c :: ys := by
  rw [List.set_append_right _ _ (Nat.le_succ _), Nat.succ_sub (Nat.le_refl _), Nat.sub_self]
  rfl

/-- Splicing puts two children and their separator in the place of the child. -/
theorem splice_eq {hole : Hole I64 Nat} {id : Nat} (once : id ∉ hole.others) (separator : I64)
    (left right : Nat) :
    spliceSplitIntoEntries (hole.fill id).keys (hole.fill id).children id separator left right
      = ((hole.fill₂ left separator right).keys, (hole.fill₂ left separator right).children) := by
  rw [spliceSplitIntoEntries, findIdx_children once]
  cases hole with
  | cell before key after last =>
    have keys := insertIdx_append (before.map Prod.fst) (key :: after.map Prod.fst) separator
    have inserted := insertIdx_append (before.map Prod.snd) (id :: (after.map Prod.snd ++ [last])) left
    have replaced := set_append_second (before.map Prod.snd) (after.map Prod.snd ++ [last]) left id right
    rw [List.length_map] at keys inserted replaced
    simp only [Hole.fill, Hole.fill₂, Node.keys, Node.children, Hole.index, List.map_append,
      List.map_cons, List.append_assoc, List.cons_append, keys, inserted, replaced]
  | atEnd cells =>
    have keys := insertIdx_append (cells.map Prod.fst) [] separator
    have inserted := insertIdx_append (cells.map Prod.snd) [id] left
    have replaced := set_append_second (cells.map Prod.snd) [] left id right
    rw [List.length_map] at keys inserted replaced
    rw [List.append_nil] at keys
    simp only [Hole.fill, Hole.fill₂, Node.keys, Node.children, Hole.index, List.map_append,
      List.map_cons, List.map_nil,
      List.append_assoc, List.cons_append, List.nil_append, keys, inserted, replaced]

/-! ## Building a page -/

theorem insertCells_ok (profile : Profile) {ps : PageSize} {buf : Bytes} {last start : Nat}
    {done cells : List (I64 × Nat)} {slots : List Slot} {children : List Nat}
    (len : buf.length = ps.bytes) (slotted : Slotted interiorHeaderLen buf start slots)
    (bytes : slots.map Slot.bytes = done.map fun c => buildInteriorCell c.1 c.2)
    (listed : children = (done ++ cells).map Prod.snd ++ [last])
    (room : 9 + 14 * cells.length + 2 * done.length ≤ start) :
    ∃ buf', insertInteriorCells profile children done.length (cells.map Prod.fst) buf = .ok buf' ∧
      buf'.length = ps.bytes ∧
      slice buf' 0 1 = slice buf 0 1 ∧ slice buf' 5 4 = slice buf 5 4 ∧
      ∃ start slots, Slotted interiorHeaderLen buf' start slots ∧
        slots.map Slot.bytes = (done ++ cells).map fun c => buildInteriorCell c.1 c.2 := by
  induction cells generalizing buf start done slots with
  | nil => exact ⟨buf, rfl, len, rfl, rfl, start, slots, slotted, by rw [List.append_nil]; exact bytes⟩
  | cons c cells ih =>
    obtain ⟨key, child⟩ := c
    have count := congrArg List.length bytes
    rw [List.length_map, List.length_map] at count
    rw [List.length_cons] at room
    -- `done` cells are in the page, and the child of the next one is that of its index
    have here : children.getD done.length 0 = child := by
      rw [listed]
      simp
    -- each cell takes 12 bytes and a pointer of 2, which `room` keeps free
    have fits : interiorHeaderLen + 2 * (slots.length + 1) +
      (buildInteriorCell key child).length ≤ start := by
      rw [length_buildInteriorCell]
      simp only [interiorHeaderLen]
      omega
    obtain ⟨buf₁, run, len₁, first, header, slotted₁⟩ :=
      slotted.insertCellAt_ok profile (Nat.le_refl slots.length) fits
    rw [List.insertIdx_length_self, length_buildInteriorCell] at slotted₁
    have bytes₁ : (slots ++ [(⟨start - 12, buildInteriorCell key child⟩ : Slot)]).map Slot.bytes
        = (done ++ [(key, child)]).map fun c => buildInteriorCell c.1 c.2 := by
      rw [List.map_append, List.map_append, bytes]
      rfl
    have listed₁ : children = (done ++ [(key, child)] ++ cells).map Prod.snd ++ [last] := by
      rw [listed, List.append_assoc]
      rfl
    obtain ⟨buf₂, run₂, len₂, first₂, header₂, done₂⟩ := ih (len₁.trans len) slotted₁ bytes₁ listed₁
      (by rw [List.length_append, List.length_singleton]; omega)
    refine ⟨buf₂, ?_, len₂, first₂.trans first, header₂.trans header, ?_⟩
    · rw [List.map_cons, insertInteriorCells, here, count.symm, run, ok_bind]
      rw [List.length_append, List.length_singleton, count.symm] at run₂
      exact run₂
    · rw [List.append_assoc] at done₂
      exact done₂

/-- The page built for a node of at most `max_interior_entries` keys. -/
theorem buildInteriorPage_ok (profile : Profile) (ps : PageSize) (node : Node I64 Nat)
    (few : node.cells.length ≤ maxInteriorEntries ps.bytes)
    (fits : ∀ id ∈ node.children, id < 4294967296) :
    ∃ buf, buildInteriorPage profile ps.bytes node.keys node.children = .ok buf ∧
      InteriorPage ps buf node := by
  have sizes := ps.bounds
  have stop := ps.contentEnd_bounds
  have blank : (List.replicate ps.bytes (0 : UInt8)).length = ps.bytes := List.length_replicate
  obtain ⟨buf, init, len, pageType, slotted⟩ :=
    initSlotted_ok profile blank (show 5 ≤ interiorHeaderLen by decide)
    (by decide) pageTypeInterior
  obtain ⟨buf₁, write, len₁, at₁, apart⟩ := writeBe_ok buf 5 4 node.last (by omega)
  have slotted₁ := slotted.header_write len₁ fun off n outside => apart off n
    (by simp only [interiorHeaderLen] at outside; omega)
  have room : 9 + 14 * node.cells.length + 2 * ([] : List (I64 × Nat)).length ≤ ps.contentEnd := by
    have most : node.cells.length * 14 ≤ ps.bytes - 17 := by
      refine Nat.le_trans (Nat.mul_le_mul_right 14 few) ?_
      have := Nat.div_mul_le_self (ps.bytes - 8 - 9) 14
      simp only [maxInteriorEntries, interiorHeaderLen, interiorCellLen, pointerLen]
      omega
    rw [List.length_nil]
    simp only [PageSize.contentEnd] at stop ⊢
    omega
  obtain ⟨buf₂, run, len₂, first, header, start, slots, slotted₂, bytes⟩ :=
    insertCells_ok profile (len₁.trans len) slotted₁ rfl
      (show node.children = ([] ++ node.cells).map Prod.snd ++ [node.last] from rfl) room
  have built : buildInteriorPage profile ps.bytes node.keys node.children = .ok buf₂ := by
    have last : node.children.getLastD 0 = node.last := by simp [Node.children]
    rw [buildInteriorPage, last, initInterior, init, ok_bind, writeU32, write, ok_bind]
    exact run
  refine ⟨buf₂, built, len₂, ?_, header.trans at₁, ⟨start, slots, slotted₂, bytes⟩, fits⟩
  rw [first, apart 0 1 (by omega)]
  exact pageType

end InteriorPage

end Pinax
