import Pinax.Btree.Ops

/-! # Every page that is written has the page's length

Whatever bytes a page holds, the functions that change a page keep its length.
-/

namespace Pinax

theorem Res.bind_ok {α β : Type} {x : Res α} {f : α → Res β} {b : β} (h : (x >>= f) = .ok b) :
    ∃ a, x = .ok a ∧ f a = .ok b := by
  cases x with
  | ok a => exact ⟨a, rfl, h⟩
  | error e => cases h

theorem writeBytes_length {buf buf' bytes : Bytes} {at' : Nat} (h : writeBytes buf at' bytes = .ok buf') :
    buf'.length = buf.length := by
  rw [writeBytes] at h
  split at h
  next bound =>
    rw [Except.ok.injEq] at h
    rw [← h]
    exact Slice.length_overwrite bound
  next => cases h

theorem initSlotted_length {profile : Profile} {buf buf' : Bytes} {pageType : Nat}
    (h : initSlotted profile buf pageType = .ok buf') : buf'.length = buf.length := by
  obtain ⟨_, -, h⟩ := Res.bind_ok h
  obtain ⟨buf₁, write₁, h⟩ := Res.bind_ok h
  obtain ⟨buf₂, write₂, h⟩ := Res.bind_ok h
  rw [writeBytes_length h, writeBytes_length write₂, writeBytes_length write₁]

theorem shiftPointersRight_length {headerLen index count : Nat} {buf buf' : Bytes}
    (h : shiftPointersRight headerLen index count buf = .ok buf') : buf'.length = buf.length := by
  induction count generalizing buf with
  | zero =>
    rw [shiftPointersRight, Except.ok.injEq] at h
    rw [h]
  | succ count ih =>
    rw [shiftPointersRight] at h
    obtain ⟨_, -, h⟩ := Res.bind_ok h
    obtain ⟨buf₁, write, h⟩ := Res.bind_ok h
    rw [ih h, writeBytes_length write]

theorem shiftPointersLeft_length {headerLen index count : Nat} {buf buf' : Bytes}
    (h : shiftPointersLeft headerLen index count buf = .ok buf') : buf'.length = buf.length := by
  induction count generalizing buf index with
  | zero =>
    rw [shiftPointersLeft, Except.ok.injEq] at h
    rw [h]
  | succ count ih =>
    rw [shiftPointersLeft] at h
    obtain ⟨_, -, h⟩ := Res.bind_ok h
    obtain ⟨buf₁, write, h⟩ := Res.bind_ok h
    rw [ih h, writeBytes_length write]

theorem insertCellAt_length {profile : Profile} {buf buf' cell : Bytes} {headerLen index : Nat}
    (h : insertCellAt profile buf headerLen index cell = .ok buf') : buf'.length = buf.length := by
  obtain ⟨_, -, h⟩ := Res.bind_ok h
  obtain ⟨_, -, h⟩ := Res.bind_ok h
  obtain ⟨_, -, h⟩ := Res.bind_ok h
  obtain ⟨buf₁, write₁, h⟩ := Res.bind_ok h
  obtain ⟨buf₂, shifted, h⟩ := Res.bind_ok h
  obtain ⟨buf₃, write₃, h⟩ := Res.bind_ok h
  obtain ⟨buf₄, write₄, h⟩ := Res.bind_ok h
  rw [writeBytes_length h, writeBytes_length write₄, writeBytes_length write₃,
    shiftPointersRight_length shifted, writeBytes_length write₁]

theorem removeCellAt_length {buf buf' : Bytes} {headerLen index offset : Nat}
    (h : removeCellAt buf headerLen index = .ok (buf', offset)) : buf'.length = buf.length := by
  obtain ⟨_, -, h⟩ := Res.bind_ok h
  obtain ⟨_, -, h⟩ := Res.bind_ok h
  obtain ⟨buf₁, shifted, h⟩ := Res.bind_ok h
  obtain ⟨buf₂, write, h⟩ := Res.bind_ok h
  simp only [pure_eq_ok, Except.ok.injEq, Prod.mk.injEq] at h
  rw [← h.1, writeBytes_length write, shiftPointersLeft_length shifted]

theorem initInterior_length {profile : Profile} {buf buf' : Bytes} {child : Nat}
    (h : initInterior profile buf child = .ok buf') : buf'.length = buf.length := by
  obtain ⟨buf₁, init, h⟩ := Res.bind_ok h
  rw [writeBytes_length h, initSlotted_length init]

theorem interiorSetChildAt_length {buf buf' : Bytes} {index child : Nat}
    (h : interiorSetChildAt buf index child = .ok buf') : buf'.length = buf.length := by
  obtain ⟨_, -, h⟩ := Res.bind_ok h
  exact writeBytes_length h

theorem insertInteriorCells_length {profile : Profile} {children : List Nat} {keys : List I64} {i : Nat}
    {buf buf' : Bytes} (h : insertInteriorCells profile children i keys buf = .ok buf') :
    buf'.length = buf.length := by
  induction keys generalizing buf i with
  | nil =>
    rw [insertInteriorCells, Except.ok.injEq] at h
    rw [h]
  | cons key keys ih =>
    rw [insertInteriorCells] at h
    obtain ⟨buf₁, insert, h⟩ := Res.bind_ok h
    rw [ih h, insertCellAt_length insert]

theorem buildInteriorPage_length {profile : Profile} {pageSize : Nat} {keys : List I64}
    {children : List Nat} {buf : Bytes}
    (h : buildInteriorPage profile pageSize keys children = .ok buf) : buf.length = pageSize := by
  obtain ⟨buf₁, init, h⟩ := Res.bind_ok h
  rw [insertInteriorCells_length h, initInterior_length init, List.length_replicate]

theorem fillLeaf_length {profile : Profile} {cells : List Bytes} {i : Nat} {buf buf' : Bytes}
    (h : Btree.fillLeaf profile i cells buf = .ok buf') : buf'.length = buf.length := by
  induction cells generalizing buf i with
  | nil =>
    rw [Btree.fillLeaf, Except.ok.injEq] at h
    rw [h]
  | cons cell cells ih =>
    rw [Btree.fillLeaf] at h
    obtain ⟨buf₁, insert, h⟩ := Res.bind_ok h
    rw [ih h, insertCellAt_length insert]

theorem buildLeafHalf_length {profile : Profile} {pageSize : Nat} {cells : List Bytes} {buf : Bytes}
    (h : Btree.buildLeafHalf profile pageSize cells = .ok buf) : buf.length = pageSize := by
  obtain ⟨buf₁, init, h⟩ := Res.bind_ok h
  rw [fillLeaf_length h, initSlotted_length init, List.length_replicate]

end Pinax
