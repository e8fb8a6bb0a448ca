import Pinax.Library.Packing
import Pinax.Verified.LeafSplit
import Pinax.Verified.Separation
import Pinax.Verified.DurableMap

/-! # Row sizes that never overfill a page

A leaf split halves a leaf by the number of its cells.  Whether the halves fit is decided by how far
the sizes of the rows lie apart: `PageSize.Evens` is the exact condition, and a database whose rows
meet it is a durable map without more ado.
-/

namespace Pinax

variable {env : Env} {ps : PageSize} {buf : Bytes} {start lo hi : Nat}
  {cells : List LeafCell} {c : LeafCell}

/-! ## What a cell takes of its page -/

/-- A cell with its pointer. -/
def LeafCell.weight (c : LeafCell) : Nat := c.size + 2

/-- What the cell of a payload of `len` bytes takes. -/
def PageSize.cellWeight (ps : PageSize) (len : Nat) : Nat := 18 + min len ps.maxLocal

/-- What a leaf has for its cells. -/
def PageSize.leafRoom (ps : PageSize) : Nat := ps.contentEnd - 5

theorem LeafCell.Fits.weight (fits : c.Fits ps.maxLocal) : c.weight = ps.cellWeight c.payloadLen := by
  rw [LeafCell.weight, LeafCell.size, fits.localLen, PageSize.cellWeight, leafLocalLen]
  omega

theorem PageSize.cellWeight_mono {len len' : Nat} (le : len ≤ len') :
    ps.cellWeight len ≤ ps.cellWeight len' := by
  simp only [PageSize.cellWeight]
  omega

theorem PageSize.cellWeight_bounds (len : Nat) :
    18 ≤ ps.cellWeight len ∧ ps.cellWeight len ≤ ps.leafRoom := by
  have sizes := ps.bounds
  simp only [PageSize.cellWeight, PageSize.leafRoom, PageSize.contentEnd, PageSize.maxLocal,
    PageSize.usableSpace, checksumLen]
  omega

theorem sum_weights (cells : List LeafCell) :
    (cells.map LeafCell.weight).sum = 2 * cells.length + cellsLen cells := by
  induction cells with
  | nil => rfl
  | cons c cells ih =>
    simp only [cellsLen, List.map_cons, List.sum_cons, List.length_cons, LeafCell.weight] at ih ⊢
    omega

theorem halfFits_iff : HalfFits ps cells ↔ (cells.map LeafCell.weight).sum ≤ ps.leafRoom := by
  have sizes := ps.bounds
  rw [sum_weights, HalfFits, PageSize.leafRoom, PageSize.contentEnd]
  omega

/-! ## Splits that never overfill -/

/-- Leaves that hold payloads of `lo` to `hi` bytes are split into halves that fit. -/
def PageSize.Evens (ps : PageSize) (lo hi : Nat) : Prop :=
  Packing.Balanced (ps.cellWeight lo) (ps.cellWeight hi) ps.leafRoom

instance : Decidable (ps.Evens lo hi) := by
  unfold PageSize.Evens
  infer_instance

def LeafCell.Between (lo hi : Nat) (c : LeafCell) : Prop := lo ≤ c.payloadLen ∧ c.payloadLen ≤ hi

theorem LeafCell.Between.weight (between : c.Between lo hi) (fits : c.Fits ps.maxLocal) :
    ps.cellWeight lo ≤ c.weight ∧ c.weight ≤ ps.cellWeight hi := by
  rw [fits.weight]
  exact ⟨PageSize.cellWeight_mono between.1, PageSize.cellWeight_mono between.2⟩

theorem PageSize.Evens.halves (evens : ps.Evens lo hi) {all others : List LeafCell}
    (perm : all.Perm (c :: others))
    (cells : ∀ c' ∈ c :: others, c'.Fits ps.maxLocal ∧ c'.Between lo hi) (fit : HalfFits ps others) :
    HalfFits ps (leftHalf all) ∧ HalfFits ps (rightHalf all) := by
  have range : ∀ w ∈ c.weight :: others.map LeafCell.weight, ps.cellWeight lo ≤ w ∧
    w ≤ ps.cellWeight hi := by
    intro w member
    obtain ⟨c', listed, rfl⟩ := List.mem_map.mp (show w ∈ (c :: others).map LeafCell.weight from member)
    exact (cells c' listed).2.weight (cells c' listed).1
  have one := (ps.cellWeight_bounds hi).2
  have halves := leftHalf_append_rightHalf all
  rw [halfFits_iff] at fit
  rw [halfFits_iff, halfFits_iff]
  have weights : ∀ a b : List LeafCell, (a ++ b).Perm all →
      (a.map LeafCell.weight ++ b.map LeafCell.weight).Perm (c.weight :: others.map LeafCell.weight) := by
    intro a b parts
    rw [← List.map_append]
    exact (parts.trans perm).map LeafCell.weight
  constructor
  · refine evens.part_le one (weights _ (rightHalf all) (List.Perm.of_eq halves)) range fit ?_
    simp only [leftHalf, rightHalf, List.length_map, List.length_take, List.length_drop]
    omega
  · refine evens.part_le one (weights _ (leftHalf all)
      (List.perm_append_comm.trans (List.Perm.of_eq halves))) range fit ?_
    simp only [leftHalf, rightHalf, List.length_map, List.length_take, List.length_drop]
    omega

/-- There is a length for every weight between two. -/
theorem PageSize.exists_len (ordered : lo ≤ hi) {w : Nat} (low : ps.cellWeight lo ≤ w)
    (high : w ≤ ps.cellWeight hi) :
    ∃ len, lo ≤ len ∧ len ≤ hi ∧ ps.cellWeight len = w := by
  simp only [PageSize.cellWeight] at low high ⊢
  by_cases most : w = 18 + min hi ps.maxLocal
  · exact ⟨hi, ordered, le_refl hi, most.symm⟩
  · exact ⟨w - 18, by omega, by omega, by omega⟩

/-- There are cells of the given weights, with ascending keys. -/
theorem exists_cells (ordered : lo ≤ hi) (small : hi ≤ u32Max) {weights : List Nat}
    (range : ∀ w ∈ weights, ps.cellWeight lo ≤ w ∧ w ≤ ps.cellWeight hi) (first : Nat)
    (few : first + weights.length ≤ 2 ^ 63) :
    ∃ cells : List LeafCell, cells.map LeafCell.weight = weights ∧
      (∀ c ∈ cells, c.Fits ps.maxLocal ∧ c.Between lo hi) ∧
      cells.Pairwise (fun a b => a.key.val < b.key.val) ∧ ∀ c ∈ cells, (first : Int) ≤ c.key.val := by
  induction weights generalizing first with
  | nil =>
    exact ⟨[], rfl, fun c none => absurd none List.not_mem_nil, .nil,
      fun c none => absurd none List.not_mem_nil⟩
  | cons w weights ih =>
    rw [List.length_cons] at few
    obtain ⟨cells, same, inside, sorted, above⟩ :=
      ih (fun w' member => range w' (List.mem_cons_of_mem w member)) (first + 1) (by omega)
    obtain ⟨low, high⟩ := range w List.mem_cons_self
    obtain ⟨len, least, most, weighs⟩ := ps.exists_len ordered low high
    let c : LeafCell := ⟨⟨first, by omega, by omega⟩, len, 0, List.replicate (min len ps.maxLocal) 0⟩
    have fits : c.Fits ps.maxLocal := by
      refine ⟨?_, Nat.zero_lt_succ _, List.length_replicate⟩
      simp only [u32Max] at small
      show len < 4294967296
      omega
    refine ⟨c :: cells, ?_, ?_, ?_, ?_⟩
    · rw [List.map_cons, same, fits.weight]
      exact congrArg (· :: weights) weighs
    · exact List.forall_mem_cons.mpr ⟨⟨fits, least, most⟩, inside⟩
    · refine List.pairwise_cons.mpr ⟨fun c' member => ?_, sorted⟩
      have := above c' member
      show (first : Int) < c'.key.val
      omega
    · refine List.forall_mem_cons.mpr ⟨le_refl _, fun c' member => ?_⟩
      have := above c' member
      omega

/-- Cells around a middle one that fit a page without it, though those behind the middle do not fit
one with it. -/
theorem exists_overfull (unbalanced : ¬ ps.Evens lo hi) (ordered : lo ≤ hi) (small : hi ≤ u32Max) :
    ∃ (left : List LeafCell) (c : LeafCell) (right : List LeafCell), left.length = right.length ∧
      (∀ c' ∈ left ++ c :: right, c'.Fits ps.maxLocal ∧ c'.Between lo hi) ∧
      (left ++ c :: right).Pairwise (fun a b => a.key.val < b.key.val) ∧ HalfFits ps (left ++ right) ∧
        ¬ HalfFits ps (c :: right) := by
  obtain ⟨positive, one⟩ := ps.cellWeight_bounds hi
  obtain ⟨before, after, same, range, fits, beyond⟩ :=
    Packing.exists_unbalanced unbalanced (PageSize.cellWeight_mono ordered) one (by omega)
  have all : ∀ w ∈ before ++ ps.cellWeight hi :: after, ps.cellWeight lo ≤ w ∧ w ≤ ps.cellWeight hi := by
    intro w member
    cases List.mem_cons.mp (List.perm_middle.subset member) with
    | inl new => exact ⟨new ▸ PageSize.cellWeight_mono ordered, new.le⟩
    | inr old => exact range w old
  have few : 0 + (before ++ ps.cellWeight hi :: after).length ≤ 2 ^ 63 := by
    have heavy :=
      Packing.le_sum fun w member => Nat.le_trans (ps.cellWeight_bounds lo).1 (range w member).1
    have bounds := ps.contentEnd_bounds
    simp only [List.sum_append, List.length_append, List.length_cons, PageSize.leafRoom] at heavy fits ⊢
    omega
  obtain ⟨cells, weights, inside, sorted, -⟩ := exists_cells ordered small all 0 few
  obtain ⟨left, others, rfl, first, rest⟩ := List.map_eq_append_iff.mp weights
  obtain ⟨c, right, rfl, new, second⟩ := List.map_eq_cons_iff.mp rest
  refine ⟨left, c, right, ?_, inside, sorted, ?_, ?_⟩
  · rw [← first, ← second, List.length_map, List.length_map] at same
    exact same
  · rw [halfFits_iff, List.map_append, List.sum_append, first, second]
    exact fits
  · rw [halfFits_iff, List.map_cons, List.sum_cons, second, new]
    exact Nat.not_le_of_lt beyond

/-- Splitting a leaf whose cells have payloads of `lo` to `hi` bytes never runs out of free space. -/
def PageSize.SplitsObliged (profile : Profile) (ps : PageSize) (lo hi : Nat) : Prop :=
  ∀ (buf : Bytes) (start : Nat) (cells : List LeafCell) (index : Nat) (c : LeafCell),
    LeafPage ps buf start cells → start + cellsLen cells ≤ ps.contentEnd → index ≤ cells.length →
    (∀ c' ∈ splitCells cells index c, c'.Fits ps.maxLocal ∧ c'.Between lo hi) →
    (splitCells cells index c).Pairwise (fun a b => a.key.val < b.key.val) →
    start < 5 + 2 * (cells.length + 1) + c.size →
    HalfObliged profile ps (leftHalf (splitCells cells index c)) ∧
      HalfObliged profile ps (rightHalf (splitCells cells index c))

/-- Where the sizes of the rows lie apart as `Evens` admits, and only there, every leaf that is full
is split into halves that fit, whatever its rows and wherever the new one goes. -/
theorem row_sizes_never_overfill_iff (profile : Profile) (ps : PageSize) (ordered : lo ≤ hi)
    (small : hi ≤ u32Max) :
    ps.SplitsObliged profile lo hi ↔ ps.Evens lo hi := by
  constructor
  · intro works
    by_contra unbalanced
    -- a leaf that is not overfull, and a cell which makes its right half so
    obtain ⟨left, c, right, count, inside, sorted, fit, overfull⟩ :=
      exists_overfull unbalanced ordered small
    have inserted : splitCells (left ++ right) left.length c = left ++ c :: right := insertIdx_at rfl c
    have cut : rightHalf (left ++ c :: right) = c :: right := by
      have half : (left ++ c :: right).length / 2 = left.length := by
        rw [List.length_append, List.length_cons]
        omega
      rw [rightHalf, half, List.drop_left]
    have others : ∀ c' ∈ left ++ right, c'.Fits ps.maxLocal := fun c' member =>
      (inside c' (List.perm_middle.symm.subset (List.mem_cons_of_mem c member))).1
    obtain ⟨buf, page⟩ := leafPage_of_fits profile others fit
    have full : ps.contentEnd - cellsLen (left ++ right) <
      5 + 2 * ((left ++ right).length + 1) + c.size := by
      simp only [HalfFits, cellsLen, List.map_append, List.map_cons, List.sum_append, List.sum_cons,
        List.length_append, List.length_cons] at overfull ⊢
      omega
    rw [HalfFits] at fit
    have obliged := works buf _ (left ++ right) left.length c page
    rw [inserted, cut] at obliged
    have right := (obliged (by omega) (by rw [List.length_append]; omega) inside sorted full).2
    exact overfull ((halfObliged_iff profile fun c' member =>
      (inside c' (List.mem_append_right left member)).1).mp right)
  · intro evens buf start cells index c page compact inside range _ _
    have perm := List.perm_insertIdx c cells inside
    have bounds := page.bounds
    have fit : HalfFits ps cells := by
      rw [HalfFits]
      omega
    -- where the sizes are even, either half fits, wherever the cell comes to stand
    have halves := evens.halves perm (fun c' member => range c' (perm.mem_iff.mpr member)) fit
    have fits : ∀ c' ∈ splitCells cells index c, c'.Fits ps.maxLocal :=
      fun c' member => (range c' member).1
    exact ⟨(halfObliged_iff profile fun c' member => fits c' (List.mem_of_mem_take member)).mpr halves.1,
      (halfObliged_iff profile fun c' member => fits c' (List.mem_of_mem_drop member)).mpr halves.2⟩

/-- Rows of up to 273 bytes never overfill a page of 4096 bytes, but some of up to 274 do. -/
theorem row_sizes_never_overfill_iff_default :
    PageSize.default.SplitsObliged .release 4 273 ∧ ¬ PageSize.default.SplitsObliged .release 4 274 := by
  constructor
  · apply (row_sizes_never_overfill_iff .release PageSize.default (by decide) (by decide)).mpr
    decide
  · intro obliged
    have evens :=
      (row_sizes_never_overfill_iff .release PageSize.default (by decide) (by decide)).mp obliged
    revert evens
    decide

/-- Rows of one size. -/
theorem PageSize.evens_same (ps : PageSize) (len : Nat) : ps.Evens len len := by
  obtain ⟨positive, one⟩ := ps.cellWeight_bounds len
  exact Or.inl (Nat.le_mul_of_pos_left _ (Nat.div_pos one (by omega)))

/-- Rows that have overflow pages, or just none. -/
theorem PageSize.evens_spilled (ps : PageSize) (long : ps.maxLocal ≤ lo) (ordered : lo ≤ hi) :
    ps.Evens lo hi := by
  have same : ps.cellWeight hi = ps.cellWeight lo := by
    simp only [PageSize.cellWeight]
    omega
  have evens := ps.evens_same lo
  rw [PageSize.Evens] at evens ⊢
  rw [same]
  exact evens

/-- Short rows. -/
theorem PageSize.evens_short (ps : PageSize) (short : hi ≤ 273) : ps.Evens 4 hi := by
  obtain ⟨positive, -⟩ := ps.cellWeight_bounds hi
  have room := ps.contentEnd_bounds
  have most : ps.cellWeight hi ≤ 291 := by
    simp only [PageSize.cellWeight]
    omega
  have least : ps.cellWeight 4 = 22 := by
    simp only [PageSize.cellWeight, PageSize.maxLocal, PageSize.usableSpace, checksumLen]
    have := ps.bounds
    omega
  have count : 14 ≤ ps.leafRoom / ps.cellWeight hi := by
    refine Nat.le_trans ?_ (Nat.div_le_div_left most (by omega))
    rw [PageSize.leafRoom]
    omega
  refine Or.inl ?_
  rw [least]
  omega

/-! ## The leaves of a database -/

/-- Nothing is stored behind the content, and the payloads have `lo` to `hi` bytes. -/
structure Leaf.Measured (ps : PageSize) (lo hi : Nat) (leaf : Leaf) : Prop where
  compact : leaf.start + cellsLen leaf.cells ≤ ps.contentEnd
  between : ∀ e ∈ leaf.entries, e.cell.Between lo hi

variable {h n index : Nat} {t : Tree h} {v : Pages} {key : I64} {row : Row} {encoded : Bytes}
  {leaf : Leaf} {e : Entry}

theorem cellsLen_insertIdx (inside : index ≤ cells.length) :
    cellsLen (cells.insertIdx index c) = c.size + cellsLen cells :=
  ((List.perm_insertIdx c cells inside).map LeafCell.size).sum_eq

theorem cellsLen_sublist {cells' : List LeafCell} (sub : cells'.Sublist cells) :
    cellsLen cells' ≤ cellsLen cells :=
  (sub.map LeafCell.size).sum_le_sum fun _ _ => Nat.zero_le _

theorem Leaf.Measured.without (measured : leaf.Measured ps lo hi) (key : I64) :
    (leaf.without key).Measured ps lo hi where
  compact := by
    have less : cellsLen (leaf.without key).cells ≤ cellsLen leaf.cells :=
      cellsLen_sublist (List.filter_sublist.map Entry.cell)
    exact Nat.le_trans (Nat.add_le_add_left less _) measured.compact
  between := fun e member => measured.between e (List.mem_of_mem_filter member)

theorem Leaf.Measured.fresh {entries : List Entry} (between : ∀ e ∈ entries, e.cell.Between lo hi)
    (fit : HalfFits ps (entries.map Entry.cell)) (id : Nat) :
    (Leaf.fresh ps id entries).Measured ps lo hi where
  compact := by
    rw [HalfFits] at fit
    show ps.contentEnd - cellsLen (entries.map Entry.cell) + cellsLen (entries.map Entry.cell) ≤
      ps.contentEnd
    omega
  between := between

/-- What takes the place of such a leaf when an entry is put. -/
theorem Leaf.Measured.insertPart (measured : leaf.Measured ps lo hi)
    (inside : index ≤ leaf.entries.length) (between : e.cell.Between lo hi)
    (fit : leaf.Roomy e.cell ∨ HalvesFit ps (leaf.entries.insertIdx index e)) (n : Nat) :
    ∀ l ∈ (leaf.insertPart ps index e n).1.nodes, l.Measured ps lo hi := by
  have entries : ∀ e' ∈ leaf.entries.insertIdx index e, e'.cell.Between lo hi := by
    intro e' member
    cases (mem_insertIdx inside).mp member with
    | inl new => exact new ▸ between
    | inr old => exact measured.between e' old
  intro l member
  rw [Leaf.insertPart] at member
  split at member
  next roomy =>
    obtain rfl := List.mem_singleton.mp member
    refine ⟨?_, entries⟩
    have compact := measured.compact
    have grown : cellsLen ((leaf.entries.insertIdx index e).map Entry.cell) =
      e.cell.size + cellsLen leaf.cells := by
      rw [List.map_insertIdx]
      exact cellsLen_insertIdx (by rw [List.length_map]; exact inside)
    rw [Leaf.Roomy] at roomy
    show leaf.start - e.cell.size + cellsLen ((leaf.entries.insertIdx index e).map Entry.cell) ≤
      ps.contentEnd
    omega
  next full =>
    obtain ⟨first, second⟩ := fit.resolve_left full
    cases List.mem_cons.mp member with
    | inl left =>
      rw [left]
      exact .fresh (fun e' listed => entries e' (List.mem_of_mem_take listed)) first n
    | inr right =>
      rw [List.mem_singleton.mp right]
      exact .fresh (fun e' listed => entries e' (List.mem_of_mem_drop listed)) second (n + 1)

/-- Such a leaf takes the cell of another such row. -/
theorem Leaf.Measured.takes (measured : leaf.Measured ps lo hi) (evens : ps.Evens lo hi)
    (page : 5 + 2 * leaf.entries.length ≤ leaf.start) (fits : ∀ c' ∈ leaf.cells, c'.Fits ps.maxLocal)
    (inside : index ≤ leaf.entries.length) (new : c.Fits ps.maxLocal) (between : c.Between lo hi) :
    leaf.Takes ps index c := by
  have fit : HalfFits ps leaf.cells := by
    have compact := measured.compact
    rw [HalfFits, Leaf.cells, List.length_map]
    rw [Leaf.cells] at compact
    omega
  let all := leaf.entries.insertIdx index ⟨c, [], ⟨[]⟩⟩
  have perm : (all.map Entry.cell).Perm (c :: leaf.cells) :=
    (List.perm_insertIdx _ leaf.entries inside).map Entry.cell
  have cells : ∀ c' ∈ c :: leaf.cells, c'.Fits ps.maxLocal ∧ c'.Between lo hi := by
    refine List.forall_mem_cons.mpr ⟨⟨new, between⟩, fun c' member => ⟨fits c' member, ?_⟩⟩
    obtain ⟨e, listed, rfl⟩ := List.mem_map.mp member
    exact measured.between e listed
  have halves := evens.halves perm cells fit
  rw [leftHalf, rightHalf, List.length_map, ← List.map_take, ← List.map_drop] at halves
  exact Or.inr halves

def Content.Measured (ps : PageSize) (lo hi : Nat) (c : Content) : Prop :=
  ∀ t ∈ c, ∀ leaf ∈ t.2.leaves, leaf.Measured ps lo hi

namespace Content.Measured

variable {c : Content} {root : Nat}

theorem empty (ps : PageSize) (lo hi : Nat) : Content.Measured ps lo hi none :=
  fun _ member => absurd member (Option.not_mem_none _)

/-- There is room for every row of such a size. -/
theorem room (measured : c.Measured ps lo hi) (planted : c.Planted ps v n root) (evens : ps.Evens lo hi)
    (between : lo ≤ encoded.length ∧ encoded.length ≤ hi) (small : hi ≤ u32Max) :
    ∀ t ∈ c, t.2.Room ps key encoded := by
  intro t member
  have wellFormed := planted.wellFormed t member
  obtain ⟨buf, -, page⟩ := (wellFormed.stored.leaf key).page
  obtain ⟨left, mid, right, cut⟩ := wellFormed.cutAt key
  obtain ⟨without, rank⟩ := cut.without
  have listed : t.2.leafFor key ∈ t.2.leaves := (t.2.leaves_perm key).mem_iff.mpr List.mem_cons_self
  have fewer : ((t.2.leafFor key).without key).entries.length ≤ (t.2.leafFor key).cells.length := by
    rw [Leaf.cells, List.length_map]
    exact List.length_filter_le _ _
  have bounds := page.bounds
  refine ((measured t member _ listed).without key).takes evens ?_ ?_ ?_
    (payloadCell_fits (by omega) (by decide)) between
  · show 5 + 2 * ((t.2.leafFor key).without key).entries.length ≤ (t.2.leafFor key).start
    omega
  · intro c' inside
    exact page.fits c' ((List.filter_sublist.map Entry.cell).subset inside)
  · rw [without, rank, List.length_append]
    exact Nat.le_add_right _ _

theorem put (measured : c.Measured ps lo hi) (planted : c.Planted ps v n root)
    (room : ∀ t ∈ c, t.2.Room ps key encoded) (between : lo ≤ encoded.length ∧ encoded.length ≤ hi)
    (row : Row) (n : Nat) :
    Content.Measured ps lo hi (some (c.put ps key row encoded n).1) := by
  intro t' member
  obtain rfl := Option.some.inj member
  let e := rowEntry ps key row encoded n
  cases c with
  -- a single cell fits any page
  | none =>
    intro leaf listed
    obtain rfl := List.mem_singleton.mp listed
    refine Leaf.Measured.fresh (fun e' here => ?_) ?_ _
    · rw [List.mem_singleton.mp here]
      exact between
    · have size : e.cell.size ≤ 16 + ps.maxLocal := Nat.add_le_add_left (List.length_take_le _ _) 16
      have sizes := ps.bounds
      have ends := ps.contentEnd_bounds
      simp only [PageSize.maxLocal, PageSize.usableSpace, checksumLen] at size
      show 5 + 2 * 1 + (e.cell.size + 0) ≤ ps.contentEnd
      omega
  | some t =>
    obtain ⟨left, mid, right, cut⟩ := (planted.wellFormed t rfl).cutAt key
    obtain ⟨without, rank⟩ := cut.without
    have inside : (t.2.leafFor key).rank key ≤ ((t.2.leafFor key).without key).entries.length := by
      rw [without, rank, List.length_append]
      exact Nat.le_add_right _ _
    have fit : ((t.2.leafFor key).without key).Roomy e.cell ∨
        HalvesFit ps (((t.2.leafFor key).without key).entries.insertIdx
          ((t.2.leafFor key).rank key) e) := by
      refine (room t rfl).imp_right fun halves => halves.congr ?_
      rw [List.map_insertIdx, List.map_insertIdx]
      rfl
    have old : ∀ leaf ∈ t.2.leaves, leaf.Measured ps lo hi := measured t rfl
    intro leaf listed
    have listed := (t.2.leaves_replaceLeaf ps key (t.2.putPart ps key row encoded n)).subset listed
    -- a leaf of the new tree is a part of the split, or one that was there before
    cases List.mem_append.mp listed with
    | inl new =>
      have here := old _ ((t.2.leaves_perm key).mem_iff.mpr List.mem_cons_self)
      exact (here.without key).insertPart (e := e) inside between fit _ leaf new
    | inr other => exact old leaf ((t.2.leaves_perm key).mem_iff.mpr (List.mem_cons_of_mem _ other))

theorem drop (measured : c.Measured ps lo hi) (key : I64) (n : Nat) :
    Content.Measured ps lo hi (c.map fun t => (t.2.dropRow ps key n).1) := by
  intro t' member
  obtain ⟨t, present, rfl⟩ := Option.map_eq_some_iff.mp member
  intro leaf listed
  have listed := (t.2.leaves_replaceLeaf ps key _).subset listed
  cases List.mem_append.mp listed with
  | inl new =>
    obtain rfl := List.mem_singleton.mp new
    have here := measured t present _ ((t.2.leaves_perm key).mem_iff.mpr List.mem_cons_self)
    exact ⟨(here.without key).compact, (here.without key).between⟩
  | inr other =>
    exact measured t present leaf ((t.2.leaves_perm key).mem_iff.mpr (List.mem_cons_of_mem _ other))

end Content.Measured

/-! ## Sessions with rows of such sizes -/

/-- The rows of the call are encoded in `lo` to `hi` bytes. -/
def Call.Between (lo hi : Nat) : Call → Prop
  | .insert key row | .update key row =>
    ∀ encoded, row.encode key = .ok encoded → lo ≤ encoded.length ∧ encoded.length ≤ hi
  | .get _ | .delete _ | .scan => True

/-- Calls with such rows on a database of that page size, and a bound that no path of a tree exceeds. -/
def measured (ps : PageSize) (lo hi : Nat) : CallGuard := fun call fuel s =>
  u32Max ≤ fuel ∧ call.Between lo hi ∧ s.pager.pageSize = ps

variable {call : Call} {fuel : Nat} {s : Database} {session session' : Session}
  {log : List Call} {c : Content}

theorem Content.Measured.fitting (known : c.Measured ps lo hi) (contains : s.Contains env c)
    (evens : ps.Evens lo hi) (small : hi ≤ u32Max) (allowed : measured ps lo hi call fuel s) :
    fitting env call fuel s := by
  obtain ⟨deep, between, rfl⟩ := allowed
  refine ⟨deep, ?_, fun c' contains' => ?_⟩
  · cases call with
    | insert key row => exact fun encoded encodes => Nat.le_trans (between encoded encodes).2 small
    | update key row => exact fun encoded encodes => Nat.le_trans (between encoded encodes).2 small
    | get key => trivial
    | delete key => trivial
    | scan => trivial
  · obtain rfl := contains.unique contains'
    cases call with
    | insert key row =>
      exact fun t member _ encoded encodes => known.room contains evens
        (between encoded encodes) small t member
    | update key row =>
      exact fun t member _ encoded encodes => known.room contains evens
        (between encoded encodes) small t member
    | get key => trivial
    | delete key => trivial
    | scan => trivial

theorem measured_tracks (env : Env) (evens : ps.Evens lo hi) (small : hi ≤ u32Max) :
    Tracks env (measured ps lo hi) fun _ c => c.Measured ps lo hi where
  empty := fun t none => by cases none
  skip := fun log c call known => known
  step := by
    intro log c call reply fuel s contains guard known mutates answer _
    obtain ⟨-, between, rfl⟩ := guard
    cases call with
    | insert key row =>
      obtain ⟨encoded, encodes, -⟩ := Content.put_of_answer s.pager.pageSize answer (Or.inl rfl)
      have sized := between encoded encodes
      rw [Content.after_insert encodes]
      exact known.put contains (known.room contains evens sized small) sized row _
    | update key row =>
      obtain ⟨encoded, encodes, -⟩ := Content.put_of_answer s.pager.pageSize answer (Or.inr rfl)
      have sized := between encoded encodes
      rw [Content.after_update encodes]
      exact known.put contains (known.room contains evens sized small) sized row _
    | delete key => exact known.drop key _
    | get key => exact absurd mutates id
    | scan => exact absurd mutates id

section guards

variable {guard : CallGuard} {I : List Call → Content → Prop} {lineage : List Snapshot}
  {half : Option File} {since : Nat}

/-- A call that the guard allows is fitting, when what is tracked says so. -/
theorem History.next_fitting (tracks : Tracks env guard I)
    (fits : ∀ {log c call fuel s}, s.Contains env c → I log c → guard call fuel s →
      fitting env call fuel s)
    (history : History env (fun call fuel s => guard call fuel s ∧ fitting env call fuel s)
      ⟨.running s, lineage, half, since⟩ log)
    (allowed : guard call fuel s) : fitting env call fuel s := by
  have both : Tracks env (fun call fuel s => guard call fuel s ∧ fitting env call fuel s) I :=
    { tracks with step := fun contains guards => tracks.step contains guards.1 }
  obtain ⟨cur, past, rfl, floor, settled⟩ := history.reachable.good
  obtain ⟨c, holds, known⟩ :=
    (history.filled both fun _ _ _ guards => guards.2).lineage cur List.mem_cons_self
  exact fits (settled.contains holds) known allowed

theorem History.all_fitting (tracks : Tracks env guard I)
    (fits : ∀ {log c call fuel s}, s.Contains env c → I log c → guard call fuel s →
      fitting env call fuel s)
    (history : History env guard session log) :
    History env (fun call fuel s => guard call fuel s ∧ fitting env call fuel s) session log := by
  induction history with
  | create blank run => exact .create blank run
  | call c fuel _ within caught allowed ih =>
    exact .call c fuel ih within caught ⟨allowed, ih.next_fitting tracks fits allowed⟩
  | drop _ ih => exact .drop ih
  | reopen _ run ih => exact .reopen ih run
  | refused _ run ih => exact .refused ih run

/-- Such sessions are among those whose calls are fitting. -/
theorem guardedSessions_fitting (tracks : Tracks env guard I)
    (fits : ∀ {log c call fuel s}, s.Contains env c → I log c → guard call fuel s →
      fitting env call fuel s) :
    (guardedSessions env guard).Simulates (sessions env) fun a b => a = b ∧
      ∃ log, History env guard a log where
  start := by
    rintro session ⟨ps, capacity, d, d', s, blank, run, rfl⟩
    exact ⟨_, ⟨ps, capacity, d, d', s, blank, run, rfl⟩, rfl, [], .create blank run⟩
  step := by
    rintro session _ observed session' ⟨rfl, log, history⟩ step
    cases step with
    | call c fuel within caught allowed =>
      have fitting := (history.all_fitting tracks fits).next_fitting tracks fits allowed
      exact ⟨_, .call c fuel within caught fitting, rfl, _, .call c fuel history within caught allowed⟩
    | drop => exact ⟨_, .drop, rfl, log, .drop history⟩
    | reopen run => exact ⟨_, .reopen run, rfl, log, .reopen history run⟩
    | refused run => exact ⟨_, .refused run, rfl, log, .refused history run⟩

end guards

/-- A database whose rows are of such sizes needs no more: whatever I/O calls fail, its sessions are
sessions whose splits fit, and what is observed of them could be observed of the durable map. -/
theorem even_rows_refine_durable_map {observed : List Observation} (evens : ps.Evens lo hi)
    (small : hi ≤ u32Max) (trace : (guardedSessions env (measured ps lo hi)).Trace observed session) :
    (sessions env).Trace observed session ∧ ∃ m, durableMap.Trace observed m ∧ session.Shows env m := by
  have simulates := guardedSessions_fitting (measured_tracks env evens small)
    fun contains known allowed => Content.Measured.fitting known contains evens small allowed
  obtain ⟨session', fitting, rfl, -⟩ := simulates.trace trace
  obtain ⟨m, mapped, -, shows⟩ := (sessions_simulated env).trace fitting
  exact ⟨fitting, m, mapped, shows⟩

/-- A row of such a size is inserted. -/
theorem Steady.insert_measured {lineage : List Snapshot} (steady : Steady env ps lineage s c)
    (measured : c.Measured ps lo hi) (evens : ps.Evens lo hi) (small : hi ≤ u32Max)
    (encodes : row.encode key = .ok encoded) (between : lo ≤ encoded.length ∧ encoded.length ≤ hi)
    (absent : c.rows.lookup key = none)
    (room : s.nextPageId + ((overflowChunks ps encoded).length + (2 + (2 * c.height + 1))) ≤ u32Max) :
    ∃ s', Advances env ps lineage s c (.insert key row) u32Max .done s' ∧
      (c.after ps s.nextPageId (.insert key row)).Measured ps lo hi ∧
      s'.nextPageId ≤ s.nextPageId + ((overflowChunks ps encoded).length + (2 + (2 * c.height + 1))) := by
  have contains := steady.contains
  rw [BufferPool.Contains, steady.size] at contains
  have fits : c.SplitsFit ps (.insert key row) := by
    intro t member _ encoded' same
    obtain rfl := Except.ok.inj (encodes.symm.trans same)
    exact measured.room contains evens between small t member
  obtain ⟨s', step, next⟩ :=
    steady.insert (Nat.le_refl _) encodes (Nat.le_trans between.2 small) fits absent room
  rw [Content.after_insert encodes]
  exact ⟨s', step, measured.put contains (measured.room contains evens between small) between row _, next⟩

/-- Two rows with an overflow page each are inserted, and found when the database was dropped and
opened again. -/
theorem even_rows_refine_durable_map_spilled :
    let one : I64 := ⟨1, by decide, by decide⟩
    let two : I64 := ⟨2, by decide, by decide⟩
    let row : Row := ⟨[.blob (List.replicate 5000 7)]⟩
    ∃ (session : Session) (m : DurableMap),
      durableMap.Trace [.call (.insert one row) (.ok .done), .call (.insert two row) (.ok .done),
      .drop, .opened, .call .scan (.ok (.rows [(one, row), (two, row)]))] m ∧
        session.Shows (Env.faultless .dev fun _ => 0) m := by
  intro one two row
  let env := Env.faultless .dev fun _ => 0
  have encode : ∀ key, ∃ encoded, row.encode key = .ok encoded ∧ encoded.length = 5009 :=
    Row.encode_blob List.length_replicate (by decide)
  clear_value row
  obtain ⟨encoded₁, encodes₁, len₁⟩ := encode one
  obtain ⟨encoded₂, encodes₂, len₂⟩ := encode two
  have pages : ∀ encoded : Bytes, encoded.length = 5009 →
    (overflowChunks PageSize.default encoded).length = 1 := by
    intro encoded len
    rw [overflowChunks, length_chunksOf (overflowChunkCap_pos _) (Nat.le_refl _), List.length_drop, len]
    decide
  -- rows of one length that spills are even
  have evens : PageSize.default.Evens 5009 5009 :=
    PageSize.default.evens_spilled (by decide) (Nat.le_refl _)
  have between : ∀ key, Call.Between 5009 5009 (.insert key row) := by
    intro key encoded same
    obtain ⟨encoded', encodes, len⟩ := encode key
    obtain rfl := Except.ok.inj (encodes.symm.trans same)
    exact ⟨Nat.le_of_eq len.symm, Nat.le_of_eq len⟩
  obtain ⟨s₀, create, steady₀, next₀⟩ : ∃ s, _ ∧ Steady env PageSize.default _ s none ∧ _ :=
    Steady.created (fun _ => rfl) (Nat.le_refl 1)
  -- the two rows are inserted; whatever is split would fit
  obtain ⟨s₁, step₁, measured₁, next₁⟩ :=
    steady₀.insert_measured (.empty _ _ _) evens (by decide) encodes₁ (between one _ encodes₁) rfl
    (by rw [next₀, pages _ len₁]; decide)
  have flat : (Content.after PageSize.default s₀.nextPageId none (.insert one row)).height = 0 := by
    rw [Content.after_insert encodes₁]
    rfl
  have rows₁ := step₁.rows
  rw [next₀, pages _ len₁] at next₁
  have room : s₁.nextPageId + (1 + (2 + (2 * 0 + 1))) ≤ u32Max :=
    Nat.le_trans (Nat.add_le_add_right next₁ _) (by decide)
  obtain ⟨s₂, step₂, -, -⟩ :=
    step₁.steady.insert_measured measured₁ evens (by decide) encodes₂ (between two _ encodes₂)
    (by rw [rows₁]; rfl) (by rw [flat, pages _ len₂]; exact room)
  have rows₂ := step₂.rows
  rw [rows₁] at rows₂
  obtain ⟨s₃, d, opened, steady₃, session, -⟩ := step₂.steady.reopened (show 1 ≤ 9 by decide)
  obtain ⟨s₄, step₄, -⟩ : ∃ s, Stays env _ _ s₃ _ .scan u32Max _ s ∧ _ :=
    steady₃.looked (Nat.le_refl _) id
  rw [Content.answer, rows₂] at step₄
  let guard := measured PageSize.default 5009 5009
  -- the same calls as a session of the guard
  have started : (guardedSessions env guard).Trace [] (.created s₀) :=
    .start ⟨_, _, _, _, s₀, rfl, create, rfl⟩
  have insertOne : Session.Step env guard (.created s₀) _ _ :=
    .advances step₁ ⟨Nat.le_refl _, between one, steady₀.size⟩
  have insertTwo : Session.Step env guard ⟨.running s₁, _, none, 0⟩ _ _ :=
    .advances step₂ ⟨Nat.le_refl _, between two, step₁.steady.size⟩
  have reopened := (((started.step insertOne).step insertTwo).step .drop).step (.reopen opened)
  rw [session none] at reopened
  have trace := reopened.step (.stays step₄ ⟨Nat.le_refl _, trivial, steady₃.size⟩)
  exact ⟨_, (even_rows_refine_durable_map evens (by decide) trace).2⟩

end Pinax
