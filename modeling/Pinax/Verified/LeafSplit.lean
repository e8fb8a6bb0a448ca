import Pinax.Verified.LeafPage
import Pinax.Verified.Safe

/-! # Splitting a leaf

`leaf_split_with_new_cell` halves a leaf by the number of its cells.  Whether a half fits its page is a
matter of bytes: it does exactly when `HalfFits` holds, and otherwise some `insert_cell_at` is called
without the free space its doc asks for.
-/

namespace Pinax

open BufferPool (allocatePageId putNew)

variable {ps : PageSize} {buf : Bytes} {start : Nat} {cells : List LeafCell}

/-- The free space covers each of `cells` and its pointer, when they are placed one after the other from
index `i` on. -/
def Obliged (profile : Profile) : Nat → List Bytes → Bytes → Prop
  | _, [], _ => True
  | i, cell :: cells, buf =>
    (∃ free, freeSpace profile buf leafHeaderLen = .ok free ∧ cell.length + pointerLen ≤ free) ∧
      ∀ buf', insertCellAt profile buf leafHeaderLen i cell = .ok buf' →
        Obliged profile (i + 1) cells buf'

/-- Filling an empty leaf with `cells` meets the obligation of `insert_cell_at` at every cell. -/
def HalfObliged (profile : Profile) (ps : PageSize) (cells : List LeafCell) : Prop :=
  ∀ buf, initLeaf profile (List.replicate ps.bytes 0) = .ok buf →
    Obliged profile 0 (cells.map LeafCell.bytes) buf

/-- The page reads back as `cells`. -/
def ReadsBack (ps : PageSize) (buf : Bytes) (cells : List LeafCell) : Prop :=
  numCells buf = .ok cells.length ∧ ∀ i c, cells[i]? = some c → leafCellAt buf i ps.maxLocal = .ok c

theorem LeafPage.readsBack (h : LeafPage ps buf start cells) : ReadsBack ps buf cells :=
  ⟨h.numCells_eq, fun _ _ found => h.cellAt_eq found⟩

theorem LeafPage.obliged_iff (h : LeafPage ps buf start cells) (profile : Profile) {more : List LeafCell}
    (fits : ∀ c ∈ more, c.Fits ps.maxLocal) :
    Obliged profile cells.length (more.map LeafCell.bytes) buf ↔
      5 + 2 * (cells.length + more.length) + cellsLen more ≤ start := by
  induction more generalizing buf start cells with
  | nil => exact ⟨fun _ => by simpa [cellsLen] using h.bounds.1, fun _ => trivial⟩
  | cons c more ih =>
    have below := h.bounds.1
    have here := fits c List.mem_cons_self
    have rest := fun c' member => fits c' (List.mem_cons_of_mem c member)
    -- the obligation of the first insertion is that its cell and its pointer fit
    have free : (∃ free, freeSpace profile buf leafHeaderLen = .ok free ∧
      c.bytes.length + pointerLen ≤ free) ↔
        5 + 2 * (cells.length + 1) + c.size ≤ start := by
      rw [h.freeSpace_eq, LeafCell.length_bytes, pointerLen]
      constructor
      · rintro ⟨free, same, covers⟩
        injection same with same
        omega
      · exact fun room => ⟨_, rfl, by omega⟩
    simp only [List.map_cons, Obliged, free, cellsLen, List.sum_cons, List.length_cons]
    constructor
    · rintro ⟨room, continues⟩
      obtain ⟨buf', run, page⟩ := h.insertCellAt_ok profile (Nat.le_refl _) here room
      rw [List.insertIdx_length_self] at page
      have := (ih page rest).mp (by rw [List.length_append]; exact continues buf' run)
      simp only [cellsLen, List.length_append, List.length_cons, List.length_nil] at this
      omega
    · intro room
      have first : 5 + 2 * (cells.length + 1) + c.size ≤ start := by omega
      refine ⟨first, fun buf' run => ?_⟩
      obtain ⟨buf'', run', page⟩ := h.insertCellAt_ok profile (Nat.le_refl _) here first
      rw [run] at run'
      injection run' with same
      subst same
      rw [List.insertIdx_length_self] at page
      have := (ih page rest).mpr (by
        simp only [cellsLen, List.length_append, List.length_cons, List.length_nil]
        omega)
      rwa [List.length_append] at this

/-- The obligation is met throughout exactly when the cells and their pointers fit the page together. -/
theorem halfObliged_iff (profile : Profile) {cells : List LeafCell}
    (fits : ∀ c ∈ cells, c.Fits ps.maxLocal) :
    HalfObliged profile ps cells ↔ HalfFits ps cells := by
  obtain ⟨buf, init, page⟩ := initLeaf_ok profile ps
  have filled := page.obliged_iff profile fits
  rw [List.length_nil, Nat.zero_add] at filled
  constructor
  · exact fun obliged => filled.mp (obliged buf init)
  · intro room buf' init'
    rw [init] at init'
    injection init' with same
    subst same
    exact filled.mpr room

/-! ## The halves -/

/-- All cells of a leaf that is split, the new one among them. -/
def splitCells (cells : List LeafCell) (index : Nat) (c : LeafCell) : List LeafCell :=
  cells.insertIdx index c

def leftHalf (all : List LeafCell) : List LeafCell := all.take (all.length / 2)
def rightHalf (all : List LeafCell) : List LeafCell := all.drop (all.length / 2)

theorem leftHalf_append_rightHalf (all : List LeafCell) : leftHalf all ++ rightHalf all = all :=
  List.take_append_drop _ _

theorem rightHalf_cons {all : List LeafCell} (some : all ≠ []) :
    ∃ first rest, rightHalf all = first :: rest := by
  have := List.length_pos_iff.mpr some
  cases right : rightHalf all with
  | nil =>
    have none := List.drop_eq_nil_iff.mp right
    omega
  | cons first rest => exact ⟨first, rest, rfl⟩

theorem fits_splitCells (fits : ∀ c ∈ cells, c.Fits ps.maxLocal) {index : Nat}
    (inside : index ≤ cells.length) {c : LeafCell} (new : c.Fits ps.maxLocal) :
    ∀ c' ∈ splitCells cells index c, c'.Fits ps.maxLocal := by
  intro c' member
  rcases List.mem_cons.mp ((List.perm_insertIdx c cells inside).mem_iff.mp member) with rfl | old
  · exact new
  · exact fits c' old

theorem separatorOf_eq {first : LeafCell} {rest : List LeafCell} :
    Btree.separatorOf ((first :: rest).map LeafCell.bytes) = .ok first.key := by
  simp only [Btree.separatorOf, List.map_cons, List.head?_cons]
  refine readI64_of_slice (by rw [LeafCell.length_bytes, LeafCell.size]; omega) ?_
  rw [LeafCell.bytes, buildLeafCell, List.append_assoc, List.append_assoc]
  exact Slice.slice_append_exact _ _

/-- What `leaf_split_with_new_cell` does with a valid leaf: it builds the two halves, and puts them
under two new ids. -/
theorem leafSplitWithNewCell_eq (env : Env) (h : LeafPage ps buf start cells) {index : Nat}
    (inside : index ≤ cells.length) (c : LeafCell) {s : BufferPool} (size : s.pager.pageSize = ps) :
    Btree.leafSplitWithNewCell env buf index c.bytes s = (do
      let all := splitCells cells index c
      let leftBuf ← Btree.buildLeafHalf env.profile ps.bytes ((leftHalf all).map LeafCell.bytes)
      let rightBuf ← Btree.buildLeafHalf env.profile ps.bytes ((rightHalf all).map LeafCell.bytes)
      let separatorKey ← Btree.separatorOf ((rightHalf all).map LeafCell.bytes)
      let leftId ← allocatePageId env
      putNew env leftId leftBuf
      let rightId ← allocatePageId env
      putNew env rightId rightBuf
      return .split leftId rightId separatorKey : PoolM NodeResult) s := by
  have read : BufferPool.pageSize s = .ok ps s := by rw [← size]; rfl
  have clamped : min index (cells.map LeafCell.bytes).length = index := by
    rw [List.length_map]
    omega
  have all : (cells.map LeafCell.bytes).insertIdx index c.bytes =
    (splitCells cells index c).map LeafCell.bytes := by
    rw [splitCells, List.map_insertIdx]
  have collected := h.collectCells_eq env.profile 0 cells.length (Nat.zero_add _)
  rw [List.drop_zero] at collected
  rw [Btree.leafSplitWithNewCell, Hoare.bind_ok read]
  simp only [h.numCells_eq, collected, liftM_ok, pure_bind]
  rw [clamped, all]
  simp only [List.length_map, ← List.map_take, ← List.map_drop]
  rfl

/-- The halves of a split meet the obligation of `insert_cell_at` at every cell, and the split puts two
pages that read back, left then right, as the old cells with the new one inserted. -/
structure SplitWorks (env : Env) (ps : PageSize) (buf : Bytes) (cells : List LeafCell) (index : Nat)
    (c : LeafCell) :
    Prop where
  leftObliged : HalfObliged env.profile ps (leftHalf (splitCells cells index c))
  rightObliged : HalfObliged env.profile ps (rightHalf (splitCells cells index c))
  pages : ∃ leftBuf rightBuf separatorKey,
    ReadsBack ps leftBuf (leftHalf (splitCells cells index c)) ∧
    ReadsBack ps rightBuf (rightHalf (splitCells cells index c)) ∧
    ∀ s : BufferPool, s.pager.pageSize = ps → Btree.leafSplitWithNewCell env buf index c.bytes s = (do
      let leftId ← allocatePageId env
      putNew env leftId leftBuf
      let rightId ← allocatePageId env
      putNew env rightId rightBuf
      return .split leftId rightId separatorKey : PoolM NodeResult) s

/-- A split of a valid leaf works exactly when the cells of each half fit its page. -/
theorem leaf_split_works_iff (env : Env) (h : LeafPage ps buf start cells) {index : Nat}
    (inside : index ≤ cells.length) {c : LeafCell} (new : c.Fits ps.maxLocal) :
    SplitWorks env ps buf cells index c ↔
      HalfFits ps (leftHalf (splitCells cells index c)) ∧
        HalfFits ps (rightHalf (splitCells cells index c)) := by
  have fits := fits_splitCells h.fits inside new
  have fitsLeft : ∀ c' ∈ leftHalf (splitCells cells index c), c'.Fits ps.maxLocal :=
    fun c' member => fits c' (List.mem_of_mem_take member)
  have fitsRight : ∀ c' ∈ rightHalf (splitCells cells index c), c'.Fits ps.maxLocal :=
    fun c' member => fits c' (List.mem_of_mem_drop member)
  have left := halfObliged_iff env.profile fitsLeft
  have right := halfObliged_iff env.profile fitsRight
  refine ⟨fun works => ⟨left.mp works.leftObliged, right.mp works.rightObliged⟩,
    fun ⟨leftRoom, rightRoom⟩ => ?_⟩
  refine ⟨left.mpr leftRoom, right.mpr rightRoom, ?_⟩
  obtain ⟨leftBuf, leftRun, leftPage⟩ := buildLeafHalf_ok env.profile fitsLeft leftRoom
  obtain ⟨rightBuf, rightRun, rightPage⟩ := buildLeafHalf_ok env.profile fitsRight rightRoom
  have some : splitCells cells index c ≠ [] := by
    intro none
    have len := congrArg List.length none
    rw [splitCells, List.length_insertIdx_of_le_length inside] at len
    exact absurd len (Nat.succ_ne_zero _)
  obtain ⟨first, rest, split⟩ := rightHalf_cons some
  refine ⟨leftBuf, rightBuf, first.key, leftPage.readsBack, rightPage.readsBack, fun s size => ?_⟩
  rw [leafSplitWithNewCell_eq env h inside c size]
  have separator : Btree.separatorOf ((rightHalf (splitCells cells index c)).map LeafCell.bytes) =
    .ok first.key := by
    rw [split]
    exact separatorOf_eq
  simp only [leftRun, rightRun, separator, liftM_ok, pure_bind]

/-- A leaf that holds `cells` alone, if they fit. -/
theorem leafPage_of_fits (profile : Profile) {cells : List LeafCell}
    (fits : ∀ c ∈ cells, c.Fits ps.maxLocal) (room : HalfFits ps cells) :
    ∃ buf, LeafPage ps buf (ps.contentEnd - cellsLen cells) cells := by
  obtain ⟨buf, -, page⟩ := buildLeafHalf_ok profile fits room
  exact ⟨buf, page⟩

/-- Two cells of 20 bytes and one of 4069, the largest there is, on a page of 4096 bytes. -/
theorem leaf_split_overfull :
    let a : LeafCell := ⟨⟨1, by decide, by decide⟩, 4, 0, [0, 0, 0, 0]⟩
    let b : LeafCell := ⟨⟨2, by decide, by decide⟩, 4, 0, [0, 0, 0, 0]⟩
    let c : LeafCell := ⟨⟨3, by decide, by decide⟩, 4053, 0, List.replicate 4053 0⟩
    ∃ buf, LeafPage PageSize.default buf 4048 [a, b] ∧ c.Fits PageSize.default.maxLocal ∧
      (∀ profile, ∃ free, freeSpace profile buf leafHeaderLen = .ok free ∧
        free < c.bytes.length + pointerLen) ∧
      leafSearch buf c.key = .ok (.insertAt 2) ∧
        ∀ env, ¬ SplitWorks env PageSize.default buf [a, b] 2 c := by
  intro a b c
  have maxLocal : PageSize.default.maxLocal = 4053 := rfl
  have fitsA : a.Fits PageSize.default.maxLocal := ⟨by decide, by decide, rfl⟩
  have fitsB : b.Fits PageSize.default.maxLocal := ⟨by decide, by decide, rfl⟩
  have fitsC : c.Fits PageSize.default.maxLocal := by
    refine ⟨by decide, by decide, ?_⟩
    rw [maxLocal]
    exact List.length_replicate
  have size : c.size = 4069 := by
    show 16 + (List.replicate 4053 (0 : UInt8)).length = 4069
    rw [List.length_replicate]
  have fits : ∀ c' ∈ [a, b], c'.Fits PageSize.default.maxLocal := by
    intro c' member
    simp only [List.mem_cons, List.not_mem_nil, or_false] at member
    rcases member with rfl | rfl
    · exact fitsA
    · exact fitsB
  -- the leaf holds two rows of 20 bytes, and 4039 bytes are free: too few for a third of 4069
  obtain ⟨buf, page⟩ := leafPage_of_fits .dev fits (show HalfFits PageSize.default [a, b] by decide)
  have page : LeafPage PageSize.default buf 4048 [a, b] := page
  refine ⟨buf, page, fitsC, fun profile => ⟨_, page.freeSpace_eq profile, ?_⟩, ?_, fun env works => ?_⟩
  · rw [LeafCell.length_bytes, size]
    decide
  · rw [page.leafSearch_eq c.key (by decide)]
    rfl
  · have right : ∀ c' ∈ [b, c], c'.Fits PageSize.default.maxLocal := by
      intro c' member
      simp only [List.mem_cons, List.not_mem_nil, or_false] at member
      rcases member with rfl | rfl
      · exact fitsB
      · exact fitsC
    have half : rightHalf (splitCells [a, b] 2 c) = [b, c] := by
      simp [rightHalf, splitCells]
    have obliged := works.rightObliged
    rw [half] at obliged
    have room := (halfObliged_iff env.profile right).mp obliged
    -- and the half of the second and the third row takes 4098 of 4088 bytes
    have total : cellsLen [b, c] = 4089 := by
      simp only [cellsLen, List.map_cons, List.map_nil, List.sum_cons, List.sum_nil, size]
      rfl
    rw [HalfFits, total] at room
    exact absurd room (by decide)

/-- A leaf of two cells of 2016 bytes has no room for a third one, and its split works. -/
theorem leaf_split_works_iff_full :
    let cell : I64 → LeafCell := fun key => ⟨key, 2000, 0, List.replicate 2000 0⟩
    let a := cell ⟨1, by decide, by decide⟩
    let b := cell ⟨2, by decide, by decide⟩
    let c := cell ⟨3, by decide, by decide⟩
    ∃ buf, LeafPage PageSize.default buf 56 [a, b] ∧
      (∀ profile, ∃ free, freeSpace profile buf leafHeaderLen = .ok free ∧
        free < c.bytes.length + pointerLen) ∧
      ∀ env, SplitWorks env PageSize.default buf [a, b] 2 c := by
  intro cell a b c
  have size : ∀ key, (cell key).size = 2016 := by
    intro key
    show 16 + (List.replicate 2000 (0 : UInt8)).length = 2016
    rw [List.length_replicate]
  have fit : ∀ key, (cell key).Fits PageSize.default.maxLocal := fun key =>
    ⟨show 2000 < 4294967296 by decide, show 0 < 4294967296 by decide, List.length_replicate⟩
  -- each cell takes 2016 bytes, so the third of them does not fit beside the other two
  have total : cellsLen [a, b] = 4032 := by
    simp [cellsLen, a, b, size]
  have fits : ∀ c' ∈ [a, b], c'.Fits PageSize.default.maxLocal := by
    intro c' member
    simp only [List.mem_cons, List.not_mem_nil, or_false] at member
    rcases member with rfl | rfl
    · exact fit _
    · exact fit _
  obtain ⟨buf, page⟩ :=
    leafPage_of_fits .dev fits (show HalfFits PageSize.default [a, b] by rw [HalfFits, total]; decide)
  rw [total] at page
  have page : LeafPage PageSize.default buf 56 [a, b] := page
  refine ⟨buf, page, fun profile => ⟨_, page.freeSpace_eq profile, ?_⟩, fun env => ?_⟩
  · rw [LeafCell.length_bytes, size]
    decide
  · have all : splitCells [a, b] 2 c = [a, b, c] := rfl
    refine (leaf_split_works_iff env page (Nat.le_refl 2) (fit _)).mpr ⟨?_, ?_⟩
    · rw [all, HalfFits]
      simp [leftHalf, cellsLen, a, size]
      decide
    · rw [all, HalfFits]
      simp [rightHalf, cellsLen, b, c, size]
      decide

end Pinax
