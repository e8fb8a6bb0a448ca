import Pinax.Btree.Layout

/-! # The slotted page as a list of cells

`Slotted hdr buf cs slots` says that `buf` is a page with a header of `hdr` bytes whose content area
starts at `cs` and whose pointer array lists `slots`, in order.  `insertCellAt` and `removeCellAt`
act on such a page as `insertIdx` and `eraseIdx` act on the list.
-/

namespace Pinax

/-- A live cell: where it is on the page, and its bytes. -/
structure Slot where
  off : Nat
  bytes : Bytes

def Slot.Disjoint (a b : Slot) : Prop :=
  a.off + a.bytes.length ≤ b.off ∨ b.off + b.bytes.length ≤ a.off

theorem Slot.Disjoint.symm {a b : Slot} (h : a.Disjoint b) : b.Disjoint a := Or.symm h

/-- The page is at least a header and a checksum long, its pointer array ends at or below the content
start, and the live cells lie in the content area, below the checksum, without overlapping. -/
structure Slotted (hdr : Nat) (buf : Bytes) (cs : Nat) (slots : List Slot) : Prop where
  header : 5 ≤ hdr
  count : slice buf 1 2 = toBe 2 slots.length
  start : slice buf 3 2 = toBe 2 cs
  below : hdr + 2 * slots.length ≤ cs
  top : cs + 8 ≤ buf.length
  small : cs < 65536
  pointer : ∀ i slot, slots[i]? = some slot → slice buf (hdr + i * 2) 2 = toBe 2 slot.off
  content : ∀ slot ∈ slots, cs ≤ slot.off ∧ slot.off < 65536 ∧
    slot.off + slot.bytes.length + 8 ≤ buf.length ∧ slice buf slot.off slot.bytes.length = slot.bytes
  disjoint : slots.Pairwise Slot.Disjoint

theorem slice_body {buf : Bytes} {off n : Nat} (bound : off + n + 8 ≤ buf.length) :
    slice (body buf) off n = slice buf off n :=
  Slice.slice_take buf (by simp only [checksumLen]; omega)

theorem slice_congr {buf buf' : Bytes} {off n : Nat} (same : body buf' = body buf)
    (len : buf'.length = buf.length) (bound : off + n + 8 ≤ buf.length) :
    slice buf' off n = slice buf off n := by
  rw [← slice_body bound, ← slice_body (by omega), same]

namespace Slotted

variable {hdr cs : Nat} {buf buf' : Bytes} {slots : List Slot}

/-- The bytes of the checksum are not part of the page's structure. -/
theorem congr (h : Slotted hdr buf cs slots) (same : body buf' = body buf)
    (len : buf'.length = buf.length) : Slotted hdr buf' cs slots := by
  have header := h.header
  have below := h.below
  have top := h.top
  refine ⟨h.header, ?_, ?_, h.below, by omega, h.small, ?_, ?_, h.disjoint⟩
  · rw [slice_congr same len (by omega)]; exact h.count
  · rw [slice_congr same len (by omega)]; exact h.start
  · intro i slot found
    have inside : i < slots.length := List.getElem?_eq_some_iff.mp found |>.1
    rw [slice_congr same len (by omega)]
    exact h.pointer i slot found
  · intro slot member
    obtain ⟨low, offSmall, high, bytes⟩ := h.content slot member
    exact ⟨low, offSmall, by omega, by rw [slice_congr same len high]; exact bytes⟩

/-! ## Reading -/

theorem numCells_eq (h : Slotted hdr buf cs slots) : numCells buf = .ok slots.length := by
  have := h.header
  have := h.below
  have := h.top
  have := h.small
  exact readU16_of_slice (by omega) h.count (by omega)

theorem contentStart_eq (h : Slotted hdr buf cs slots) : contentStart buf = .ok cs := by
  have := h.header
  have := h.below
  have := h.top
  exact readU16_of_slice (by omega) h.start h.small

theorem pointerAt_eq (h : Slotted hdr buf cs slots) {i : Nat} {slot : Slot}
    (found : slots[i]? = some slot) :
    pointerAt buf hdr i = .ok slot.off := by
  have inside : i < slots.length := List.getElem?_eq_some_iff.mp found |>.1
  have := h.below
  have := h.top
  have content := h.content slot (List.mem_of_getElem? found)
  exact readU16_of_slice (by simp only [pointerLen]; omega) (h.pointer i slot found) content.2.1

theorem freeSpace_eq (h : Slotted hdr buf cs slots) (profile : Profile) :
    freeSpace profile buf hdr = .ok (cs - (hdr + 2 * slots.length)) := by
  have := h.below
  have := h.small
  have pointers : tryFromOr 16 pointerLen 2 = 2 := rfl
  have header : tryFromOr 16 hdr 65535 = hdr := tryFromOr_of_lt (by omega)
  simp only [freeSpace, h.numCells_eq, h.contentStart_eq, ok_bind, pointers, header,
    mulW_of_lt (show slots.length * 2 < 2 ^ 16 by omega),
    addW_of_lt (show hdr + slots.length * 2 < 2 ^ 16 by omega), pure_eq_ok, Nat.mul_comm 2]

/-- Reading `n` bytes at offset `at'` of a live cell. -/
theorem slice_cell (h : Slotted hdr buf cs slots) {slot : Slot} (member : slot ∈ slots) {at' n : Nat}
    (inside : at' + n ≤ slot.bytes.length) : slice buf (slot.off + at') n = slice slot.bytes at' n := by
  have bytes := (h.content slot member).2.2.2
  calc slice buf (slot.off + at') n
      = slice (slice buf slot.off slot.bytes.length) at' n := (Slice.slice_slice _ inside).symm
    _ = slice slot.bytes at' n := by rw [bytes]

/-- A part of a live cell, read where it is on the page. -/
theorem slice_part (h : Slotted hdr buf cs slots) {slot : Slot} (member : slot ∈ slots)
    (before after : Bytes) {middle : Bytes} (split : slot.bytes = before ++ middle ++ after)
    {at' n : Nat} (starts : before.length = at') (len : middle.length = n) :
    slice buf (slot.off + at') n = middle := by
  rw [h.slice_cell member (by rw [split]; simp only [List.length_append]; omega), split,
    List.append_assoc, Slice.slice_append_right (by omega), starts, Nat.sub_self, ← len]
  exact Slice.slice_append_exact _ _

theorem disjoint_of_ne (h : Slotted hdr buf cs slots) {i j : Nat} {a b : Slot} (other : i ≠ j)
    (left : slots[i]? = some a) (right : slots[j]? = some b) : a.Disjoint b := by
  obtain ⟨inLeft, rfl⟩ := List.getElem?_eq_some_iff.mp left
  obtain ⟨inRight, rfl⟩ := List.getElem?_eq_some_iff.mp right
  have ordered := List.pairwise_iff_getElem.mp h.disjoint
  cases Nat.lt_or_gt_of_ne other with
  | inl before => exact ordered i j inLeft inRight before
  | inr after => exact (ordered j i inRight inLeft after).symm

theorem cell_bound (h : Slotted hdr buf cs slots) {slot : Slot} (member : slot ∈ slots) :
    slot.off + slot.bytes.length + 8 ≤ buf.length := (h.content slot member).2.2.1

end Slotted

/-! ## Writing -/

/-- A pointer that is read and written back elsewhere keeps its bytes. -/
theorem pointerAt_slice (buf : Bytes) (hdr i : Nat) (bound : hdr + i * 2 + 2 ≤ buf.length) :
    ∃ p, pointerAt buf hdr i = .ok p ∧ toBe 2 p = slice buf (hdr + i * 2) 2 := by
  refine ⟨ofBe (slice buf (hdr + i * 2) 2), ?_, ?_⟩
  · simp only [pointerAt, readU16, pointerLen, readBytes_of_le bound]
    rfl
  · have := BigEndian.toBe_ofBe (slice buf (hdr + i * 2) 2)
    rwa [Slice.length_slice_of_le bound] at this

/-- What the loop of `insert_cell_at` does to the pointer array. -/
theorem shiftPointersRight_ok (hdr index count : Nat) (buf : Bytes)
    (bound : hdr + (index + count) * 2 + 2 ≤ buf.length) :
    ∃ buf', shiftPointersRight hdr index count buf = .ok buf' ∧ buf'.length = buf.length ∧
      (∀ j, j < count → slice buf' (hdr + (index + j + 1) * 2) 2 = slice buf (hdr + (index + j) * 2) 2) ∧
      (∀ off n, off + n ≤ hdr + (index + 1) * 2 ∨ hdr + (index + count + 1) * 2 ≤ off →
        slice buf' off n = slice buf off n) := by
  induction count generalizing buf with
  | zero => exact ⟨buf, rfl, rfl, fun j hj => absurd hj (Nat.not_lt_zero j), fun _ _ _ => rfl⟩
  | succ count ih =>
    obtain ⟨p, read, bytes⟩ := pointerAt_slice buf hdr (index + count) (by omega)
    obtain ⟨buf₁, written, len₁, at₁, apart₁⟩ :=
      writeBe_ok buf (hdr + (index + count + 1) * 2) 2 p (by omega)
    obtain ⟨buf₂, shifted, len₂, moved, kept⟩ := ih buf₁ (by omega)
    refine ⟨buf₂, ?_, by omega, ?_, ?_⟩
    · rw [← shifted]
      simp only [shiftPointersRight, read, ok_bind, setPointerAt, writeU16, pointerLen, written]
    · intro j hj
      by_cases last : j = count
      · subst last
        rw [kept _ _ (by omega), at₁, bytes]
      · rw [moved j (by omega), apart₁ _ _ (by omega)]
    · intro off n apart
      rw [kept off n (by omega), apart₁ off n (by omega)]

/-- What the loop of `remove_cell_at` does to the pointer array. -/
theorem shiftPointersLeft_ok (hdr index count : Nat) (buf : Bytes)
    (bound : hdr + (index + count) * 2 + 2 ≤ buf.length) :
    ∃ buf', shiftPointersLeft hdr index count buf = .ok buf' ∧ buf'.length = buf.length ∧
      (∀ j, index ≤ j → j < index + count →
        slice buf' (hdr + j * 2) 2 = slice buf (hdr + (j + 1) * 2) 2) ∧
      (∀ off n, off + n ≤ hdr + index * 2 ∨ hdr + (index + count) * 2 ≤ off →
        slice buf' off n = slice buf off n) := by
  induction count generalizing buf index with
  | zero => exact ⟨buf, rfl, rfl, fun j h h' => by omega, fun _ _ _ => rfl⟩
  | succ count ih =>
    obtain ⟨p, read, bytes⟩ := pointerAt_slice buf hdr (index + 1) (by omega)
    obtain ⟨buf₁, written, len₁, at₁, apart₁⟩ :=
      writeBe_ok buf (hdr + index * 2) 2 p (by omega)
    obtain ⟨buf₂, shifted, len₂, moved, kept⟩ := ih (index + 1) buf₁ (by omega)
    refine ⟨buf₂, ?_, by omega, ?_, ?_⟩
    · rw [← shifted]
      simp only [shiftPointersLeft, read, ok_bind, setPointerAt, writeU16, pointerLen, written]
    · intro j low high
      by_cases first : j = index
      · subst first
        rw [kept _ _ (by omega), at₁, bytes]
      · rw [moved j (by omega) (by omega), apart₁ _ _ (by omega)]
    · intro off n apart
      rw [kept off n (by omega), apart₁ off n (by omega)]

/-- What `insert_cell_at` writes, whatever the build: the cell below the content start, its pointer,
the pointers after it one place further on, and the two counters. -/
theorem insertCellAt_writes {hdr index n cs : Nat} {buf cell : Bytes} (header : 5 ≤ hdr)
    (inside : index ≤ n) (room : hdr + 2 * (n + 1) + cell.length ≤ cs) (top : cs + 8 ≤ buf.length)
    (small : cs < 65536) (count : numCells buf = .ok n) (start : contentStart buf = .ok cs) :
    ∃ buf', (∀ profile, insertCellAt profile buf hdr index cell = .ok buf') ∧ buf'.length = buf.length ∧
      slice buf' 1 2 = toBe 2 (n + 1) ∧ slice buf' 3 2 = toBe 2 (cs - cell.length) ∧
      slice buf' (cs - cell.length) cell.length = cell ∧ slice buf' (hdr + index * 2) 2 =
        toBe 2 (cs - cell.length) ∧
      (∀ i, index ≤ i → i < n → slice buf' (hdr + (i + 1) * 2) 2 = slice buf (hdr + i * 2) 2) ∧
      (∀ off m, off + m ≤ 1 ∨ (5 ≤ off ∧ off + m ≤ hdr + index * 2) ∨
        (hdr + 2 * (n + 1) ≤ off ∧ off + m ≤ cs - cell.length) ∨ cs ≤ off →
          slice buf' off m = slice buf off m) := by
  have cellLen : tryFromOr 16 cell.length 65535 = cell.length := tryFromOr_of_lt (by omega)
  have countFits : tryFromOr 16 (n + 1) 65535 = n + 1 := tryFromOr_of_lt (by omega)
  obtain ⟨buf₁, write₁, len₁, at₁, apart₁⟩ := writeBytes_ok buf (cs - cell.length) cell (by omega)
  obtain ⟨buf₂, shifted, len₂, moved, kept⟩ := shiftPointersRight_ok hdr index (n - index) buf₁ (by omega)
  obtain ⟨buf₃, write₃, len₃, at₃, apart₃⟩ :=
    writeBe_ok buf₂ (hdr + index * 2) 2 (cs - cell.length) (by omega)
  obtain ⟨buf₄, write₄, len₄, at₄, apart₄⟩ := writeBe_ok buf₃ 1 2 (n + 1) (by omega)
  obtain ⟨buf₅, write₅, len₅, at₅, apart₅⟩ := writeBe_ok buf₄ 3 2 (cs - cell.length) (by omega)
  -- the two counters are written last, below the pointer array
  have outer : ∀ off m, hdr ≤ off → slice buf₅ off m = slice buf₃ off m := fun off m low => by
    rw [apart₅ off m (by omega), apart₄ off m (by omega)]
  refine ⟨buf₅, fun profile => ?_, by omega, ?_, at₅, ?_, ?_, fun i low high => ?_, fun off m apart => ?_⟩
  · rw [← write₅]
    simp only [insertCellAt, count, start, ok_bind, cellLen, countFits,
      subW_of_le (show cell.length ≤ cs by omega),
      write₁, shifted, setPointerAt, writeU16, pointerLen, write₃, setNumCells, write₄, setContentStart]
  · rw [apart₅ _ _ (by omega), at₄]
  · rw [outer _ _ (by omega), apart₃ _ _ (by omega), kept _ _ (by omega),
      at₁ _ _ (Nat.le_refl _) (by omega), Nat.sub_self, Slice.slice_full]
  · rw [outer _ _ (by omega), at₃]
  · have step := moved (i - index) (by omega)
    rw [show index + (i - index) + 1 = i + 1 by omega, show index + (i - index) = i by omega] at step
    rw [outer _ _ (by omega), apart₃ _ _ (by omega), step, apart₁ _ _ (by omega)]
  · rw [apart₅ off m (by omega), apart₄ off m (by omega), apart₃ off m (by omega), kept off m (by omega),
      apart₁ off m (by omega)]

/-- What `remove_cell_at` writes: the pointers after the removed one, one place back, and the number
of cells. -/
theorem removeCellAt_writes {hdr index n off : Nat} {buf : Bytes} (header : 5 ≤ hdr) (inside : index < n)
    (bound : hdr + 2 * n ≤ buf.length) (small : n < 65536) (count : numCells buf = .ok n)
    (pointer : pointerAt buf hdr index = .ok off) :
    ∃ buf', removeCellAt buf hdr index = .ok (buf', off) ∧ buf'.length = buf.length ∧
      slice buf' 1 2 = toBe 2 (n - 1) ∧
      (∀ i, index ≤ i → i + 1 < n → slice buf' (hdr + i * 2) 2 = slice buf (hdr + (i + 1) * 2) 2) ∧
      (∀ off m, off + m ≤ 1 ∨ (3 ≤ off ∧ off + m ≤ hdr + index * 2) ∨ hdr + 2 * n ≤ off →
        slice buf' off m = slice buf off m) := by
  have countFits : tryFromOr 16 (n - 1) 0 = n - 1 := tryFromOr_of_lt (by omega)
  obtain ⟨buf₁, shifted, len₁, moved, kept⟩ :=
    shiftPointersLeft_ok hdr index (n - 1 - index) buf (by omega)
  obtain ⟨buf₂, write₂, len₂, at₂, apart₂⟩ := writeBe_ok buf₁ 1 2 (n - 1) (by omega)
  refine ⟨buf₂, ?_, by omega, at₂, fun i low high => ?_, fun off m apart => ?_⟩
  · simp only [removeCellAt, count, pointer, ok_bind, countFits, shifted, setNumCells, writeU16,
      write₂, pure_eq_ok]
  · rw [apart₂ _ _ (by omega), moved i (by omega) (by omega)]
  · rw [apart₂ off m (by omega), kept off m (by omega)]

namespace Slotted

variable {hdr cs : Nat} {buf : Bytes} {slots : List Slot}

/-- `insert_cell_at`, under the obligation its doc states, inserts into the list of cells.  Nothing
at or above the content start changes, and the bytes of the header outside the two counters stay. -/
theorem insertCellAt_profiles (h : Slotted hdr buf cs slots) {index : Nat} {cell : Bytes}
    (inside : index ≤ slots.length) (room : hdr + 2 * (slots.length + 1) + cell.length ≤ cs) :
    ∃ buf', (∀ profile, insertCellAt profile buf hdr index cell = .ok buf') ∧ buf'.length = buf.length ∧
      slice buf' 0 1 = slice buf 0 1 ∧ slice buf' 5 (hdr - 5) = slice buf 5 (hdr - 5) ∧
      slice buf' (cs - cell.length) cell.length = cell ∧
        (∀ off n, cs ≤ off → slice buf' off n = slice buf off n) ∧
      Slotted hdr buf' (cs - cell.length) (slots.insertIdx index ⟨cs - cell.length, cell⟩) := by
  have header := h.header
  have top := h.top
  have small := h.small
  obtain ⟨buf', run, len, count, start, content, pointer, moved, untouched⟩ :=
    insertCellAt_writes header inside room top small h.numCells_eq h.contentStart_eq
  have perm := List.perm_insertIdx (⟨cs - cell.length, cell⟩ : Slot) slots inside
  refine ⟨buf', run, len, untouched 0 1 (by omega), untouched 5 (hdr - 5) (by omega), content,
    fun off n above => untouched off n (by omega), header, ?_, start, ?_, by omega, by omega, ?_, ?_, ?_⟩
  · rw [List.length_insertIdx_of_le_length inside, count]
  · rw [List.length_insertIdx_of_le_length inside]; omega
  -- the pointers before the index stay, those from it on move up by one place
  · intro i slot found
    rw [List.getElem?_insertIdx] at found
    split at found
    next before =>
      rw [untouched _ _ (by omega)]
      exact h.pointer i slot found
    next notBefore =>
      split at found
      next here =>
        subst here
        rw [if_pos inside, Option.some.injEq] at found
        subst found
        exact pointer
      next notHere =>
        have bound := (List.getElem?_eq_some_iff.mp found).1
        have step := moved (i - 1) (by omega) bound
        rw [Nat.sub_add_cancel (by omega)] at step
        rw [step]
        exact h.pointer (i - 1) slot found
  · intro slot member
    rcases List.mem_cons.mp (perm.mem_iff.mp member) with fresh | old
    · subst fresh
      refine ⟨Nat.le_refl _, by show cs - cell.length < 65536; omega, ?_, content⟩
      show cs - cell.length + cell.length + 8 ≤ _
      omega
    · obtain ⟨low, offSmall, high, bytes⟩ := h.content slot old
      exact ⟨by omega, offSmall, by omega, by rw [untouched _ _ (by omega)]; exact bytes⟩
  -- the new cell ends where the old ones start
  · rw [perm.pairwise_iff Slot.Disjoint.symm, List.pairwise_cons]
    refine ⟨fun slot member => Or.inl ?_, h.disjoint⟩
    have := (h.content slot member).1
    show cs - cell.length + cell.length ≤ slot.off
    omega

/-- The insertion in one build.  The bytes of the header outside the two counters stay. -/
theorem insertCellAt_ok (h : Slotted hdr buf cs slots) (profile : Profile) {index : Nat} {cell : Bytes}
    (inside : index ≤ slots.length) (room : hdr + 2 * (slots.length + 1) + cell.length ≤ cs) :
    ∃ buf', insertCellAt profile buf hdr index cell = .ok buf' ∧ buf'.length = buf.length ∧
      slice buf' 0 1 = slice buf 0 1 ∧ slice buf' 5 (hdr - 5) = slice buf 5 (hdr - 5) ∧
      Slotted hdr buf' (cs - cell.length) (slots.insertIdx index ⟨cs - cell.length, cell⟩) := by
  obtain ⟨buf', run, len, first, header, -, -, slotted⟩ := h.insertCellAt_profiles inside room
  exact ⟨buf', run profile, len, first, header, slotted⟩

/-- `remove_cell_at` erases from the list of cells; the content area is left as it is. -/
theorem removeCellAt_keeps (h : Slotted hdr buf cs slots) {index : Nat} {slot : Slot}
    (found : slots[index]? = some slot) :
    ∃ buf', removeCellAt buf hdr index = .ok (buf', slot.off) ∧ buf'.length = buf.length ∧
      slice buf' 0 1 = slice buf 0 1 ∧ slice buf' 5 (hdr - 5) = slice buf 5 (hdr - 5) ∧
      (∀ off n, cs ≤ off → slice buf' off n = slice buf off n) ∧
        Slotted hdr buf' cs (slots.eraseIdx index) := by
  have header := h.header
  have below := h.below
  have top := h.top
  have small := h.small
  have inside : index < slots.length := (List.getElem?_eq_some_iff.mp found).1
  obtain ⟨buf', run, len, count, moved, untouched⟩ :=
    removeCellAt_writes header inside (by omega) (by omega) h.numCells_eq (h.pointerAt_eq found)
  refine ⟨buf', run, len, untouched 0 1 (by omega), untouched 5 (hdr - 5) (by omega),
    fun off n above => untouched off n (by omega), header, ?_, ?_, ?_, by omega, small, ?_, ?_, ?_⟩
  · rw [List.length_eraseIdx_of_lt inside, count]
  · rw [untouched _ _ (by omega)]; exact h.start
  · rw [List.length_eraseIdx_of_lt inside]; omega
  · intro i slot' found'
    rw [List.getElem?_eraseIdx] at found'
    split at found'
    next before =>
      rw [untouched _ _ (by omega)]
      exact h.pointer i slot' found'
    next notBefore =>
      have bound := (List.getElem?_eq_some_iff.mp found').1
      rw [moved i (by omega) bound]
      exact h.pointer (i + 1) slot' found'
  · intro slot' member
    obtain ⟨low, offSmall, high, bytes⟩ :=
      h.content slot' ((List.eraseIdx_sublist slots index).mem member)
    exact ⟨low, offSmall, by omega, by rw [untouched _ _ (by omega)]; exact bytes⟩
  · exact h.disjoint.sublist (List.eraseIdx_sublist slots index)

theorem removeCellAt_ok (h : Slotted hdr buf cs slots) {index : Nat} {slot : Slot}
    (found : slots[index]? = some slot) :
    ∃ buf', removeCellAt buf hdr index = .ok (buf', slot.off) ∧ buf'.length = buf.length ∧
      slice buf' 0 1 = slice buf 0 1 ∧ slice buf' 5 (hdr - 5) = slice buf 5 (hdr - 5) ∧
      Slotted hdr buf' cs (slots.eraseIdx index) := by
  obtain ⟨buf', run, len, first, header, -, slotted⟩ := h.removeCellAt_keeps found
  exact ⟨buf', run, len, first, header, slotted⟩

/-- A write in the header, past the two counters. -/
theorem header_write (h : Slotted hdr buf cs slots) {buf' : Bytes} (len : buf'.length = buf.length)
    (same : ∀ off n, off + n ≤ 5 ∨ hdr ≤ off → slice buf' off n = slice buf off n) :
    Slotted hdr buf' cs slots := by
  have below := h.below
  refine ⟨h.header, ?_, ?_, h.below, by rw [len]; exact h.top, h.small, ?_, ?_, h.disjoint⟩
  · rw [same 1 2 (by omega)]; exact h.count
  · rw [same 3 2 (by omega)]; exact h.start
  · intro i slot found
    rw [same _ _ (by omega)]
    exact h.pointer i slot found
  · intro slot member
    obtain ⟨low, offSmall, high, bytes⟩ := h.content slot member
    exact ⟨low, offSmall, by omega, by rw [same _ _ (by omega)]; exact bytes⟩

/-- A write inside a live cell changes that cell only. -/
theorem cell_write (h : Slotted hdr buf cs slots) {i : Nat} {slot : Slot}
    (found : slots[i]? = some slot) {at' : Nat} {bytes : Bytes}
    (inside : at' + bytes.length ≤ slot.bytes.length) :
    ∃ buf', writeBytes buf (slot.off + at') bytes = .ok buf' ∧ buf'.length = buf.length ∧
      (∀ off n, off + n ≤ cs → slice buf' off n = slice buf off n) ∧
      Slotted hdr buf' cs (slots.set i ⟨slot.off, Slice.overwrite slot.bytes at' bytes⟩) := by
  have below := h.below
  have header := h.header
  obtain ⟨index, at'_eq⟩ := List.getElem?_eq_some_iff.mp found
  obtain ⟨low, offSmall, high, content⟩ := h.content slot (List.mem_of_getElem? found)
  have room : slot.off + at' + bytes.length ≤ buf.length := by omega
  have len : (Slice.overwrite buf (slot.off + at') bytes).length = buf.length :=
    Slice.length_overwrite room
  have apart : ∀ off n, off + n ≤ slot.off + at' ∨ slot.off + at' + bytes.length ≤ off →
      slice (Slice.overwrite buf (slot.off + at') bytes) off n = slice buf off n :=
    fun off n disjoint => Slice.slice_overwrite_disjoint room disjoint
  have cellLen : (Slice.overwrite slot.bytes at' bytes).length = slot.bytes.length :=
    Slice.length_overwrite inside
  -- the header and the pointers end below the cells, where nothing is written
  refine ⟨_, writeBytes_of_le room, len, fun off n left => apart off n (by omega), header, ?_, ?_, ?_,
    ?_, h.small, ?_, ?_, ?_⟩
  · rw [List.length_set, apart 1 2 (by omega)]; exact h.count
  · rw [apart 3 2 (by omega)]; exact h.start
  · rw [List.length_set]; exact h.below
  · rw [len]; exact h.top
  · intro j slot' found'
    have inRange := (List.getElem?_eq_some_iff.mp found').1
    rw [List.length_set] at inRange
    rw [apart _ _ (by omega)]
    by_cases here : i = j
    · subst here
      rw [List.getElem?_set_self index, Option.some.injEq] at found'
      subst found'
      exact h.pointer i slot found
    · rw [List.getElem?_set_ne here] at found'
      exact h.pointer j slot' found'
  -- the cell that is written, and the others, which are disjoint from it
  · intro slot' member
    obtain ⟨j, inRange, same⟩ := List.getElem_of_mem member
    rw [List.length_set] at inRange
    rw [List.getElem_set] at same
    split at same
    next here =>
      subst same
      refine ⟨low, offSmall, by rw [cellLen, len]; exact high, ?_⟩
      show slice _ slot.off (Slice.overwrite slot.bytes at' bytes).length = _
      rw [cellLen, Slice.slice_overwrite_window (by omega) inside, content]
    next other =>
      subst same
      obtain ⟨low', small', high', content'⟩ := h.content slots[j] (List.getElem_mem inRange)
      refine ⟨low', small', by rw [len]; exact high', ?_⟩
      have disjoint : slot.Disjoint slots[j] :=
        h.disjoint_of_ne other found (List.getElem?_eq_getElem inRange)
      rw [apart _ _ (by rcases disjoint with left | right <;> omega)]
      exact content'
  -- no cell moves or changes its length
  · rw [List.pairwise_iff_getElem]
    intro a b inA inB before
    rw [List.length_set] at inA inB
    have old := List.pairwise_iff_getElem.mp h.disjoint a b inA inB before
    rw [List.getElem_set, List.getElem_set]
    split <;> split
    · omega
    · next here _ =>
        subst here
        rw [at'_eq] at old
        rw [Slot.Disjoint, cellLen]
        exact old
    · next _ here =>
        subst here
        rw [at'_eq] at old
        rw [Slot.Disjoint, cellLen]
        exact old
    · exact old

end Slotted

/-- Where the content area of an empty page starts, and its cells end. -/
def PageSize.contentEnd (ps : PageSize) : Nat := min ps.bytes 65535 - 8

theorem PageSize.contentEnd_bounds (ps : PageSize) : 4088 ≤ ps.contentEnd ∧ ps.contentEnd ≤ 65527 ∧
    ps.contentEnd + 8 ≤ ps.bytes ∧ ps.bytes ≤ ps.contentEnd + 9 := by
  have := ps.bounds
  simp only [PageSize.contentEnd]
  omega

/-- A page that was just initialised has no cells, whatever the build. -/
theorem initSlotted_profiles {ps : PageSize} {buf : Bytes} (len : buf.length = ps.bytes) {hdr : Nat}
    (header : 5 ≤ hdr) (short : hdr ≤ 9) (pageType : Nat) :
    ∃ buf', (∀ profile, initSlotted profile buf pageType = .ok buf') ∧ buf'.length = ps.bytes ∧
      slice buf' 0 1 = toBe 1 pageType ∧ Slotted hdr buf' ps.contentEnd [] := by
  have sizes := ps.bounds
  have range := ps.contentEnd_bounds
  have usable : ∀ profile, subW profile 16 (tryFromOr 16 buf.length 65535) checksumLen =
    .ok ps.contentEnd := by
    intro profile
    have whole : tryFromOr 16 buf.length 65535 = min ps.bytes 65535 := by
      rw [tryFromOr, len]
      split <;> omega
    rw [whole, subW_of_le (by simp only [checksumLen]; omega)]
    rfl
  obtain ⟨buf₁, write₁, len₁, at₁, -⟩ := writeBe_ok buf 0 1 pageType (by omega)
  obtain ⟨buf₂, write₂, len₂, at₂, apart₂⟩ := writeBe_ok buf₁ 1 2 0 (by omega)
  obtain ⟨buf₃, write₃, len₃, at₃, apart₃⟩ := writeBe_ok buf₂ 3 2 ps.contentEnd (by omega)
  refine ⟨buf₃, fun profile => ?_, by omega, ?_, header, ?_, at₃, ?_, by omega, by omega, ?_, ?_,
    List.Pairwise.nil⟩
  · rw [← write₃]
    simp only [initSlotted, usable, ok_bind, writeU8, write₁, writeU16, write₂]
  · rw [apart₃ 0 1 (by omega), apart₂ 0 1 (by omega), at₁]
  · rw [apart₃ 1 2 (by omega), at₂]
    rfl
  · show hdr + 2 * 0 ≤ _
    omega
  · intro i slot found
    cases found
  · intro slot member
    exact absurd member List.not_mem_nil

theorem initSlotted_ok (profile : Profile) {ps : PageSize} {buf : Bytes}
    (len : buf.length = ps.bytes) {hdr : Nat} (header : 5 ≤ hdr) (short : hdr ≤ 9) (pageType : Nat) :
    ∃ buf', initSlotted profile buf pageType = .ok buf' ∧ buf'.length = ps.bytes ∧
      slice buf' 0 1 = toBe 1 pageType ∧ Slotted hdr buf' ps.contentEnd [] := by
  obtain ⟨buf', run, kept⟩ := initSlotted_profiles len header short pageType
  exact ⟨buf', run profile, kept⟩

end Pinax
