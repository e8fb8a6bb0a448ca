import Pinax.Verified.Contents

/-! # A split whose halves do not fit

A leaf with two short cells is split for a long one by the number of its cells, so a short cell and
the long one go into one half.  When they do not fit it, a build with overflow checks panics.
-/

namespace Pinax

open Hoare (Ends final)

variable {env : Env} {ps : PageSize} {buf : Bytes} {start : Nat} {cells : List LeafCell} {c : LeafCell}

/-- The content of a page does not reach below its first byte. -/
theorem LeafPage.insertCellAt_underflow (page : LeafPage ps buf start cells) (index : Nat)
    (fits : c.Fits ps.maxLocal) (short : start < c.size) :
    insertCellAt .dev buf leafHeaderLen index c.bytes = .error .panic := by
  obtain ⟨slots, slotted, -⟩ := page.slotted
  have size := LeafCell.size_le fits
  have sizes := ps.bounds
  have len : tryFromOr 16 c.bytes.length 65535 = c.size := by
    rw [LeafCell.length_bytes]
    exact tryFromOr_of_lt (by omega)
  have underflow : subW .dev 16 start c.size = .error .panic := if_neg (by omega)
  simp only [insertCellAt, slotted.numCells_eq, slotted.contentStart_eq, len, underflow,
    ok_bind, error_bind]

/-- Two cells that have no room together. -/
theorem buildLeafHalf_panics {a : LeafCell} (fitsFirst : a.Fits ps.maxLocal) (fits : c.Fits ps.maxLocal)
    (overfull : ps.contentEnd < a.size + c.size) :
    Btree.buildLeafHalf .dev ps.bytes ([a, c].map LeafCell.bytes) = .error .panic := by
  obtain ⟨buf, init, page⟩ := initLeaf_ok .dev ps
  have room := first_fits fitsFirst
  obtain ⟨buf', inserted, page'⟩ := page.insertCellAt_ok .dev (Nat.le_refl 0) fitsFirst room
  have panics := page'.insertCellAt_underflow 1 fits (by omega)
  simp only [Btree.buildLeafHalf, init, Btree.fillLeaf, List.map_cons, inserted, panics,
    ok_bind, error_bind]

section programs

variable {o : Origin} {nested : Bool} {h : Nat} {t : Tree h} {key : I64} {v : Pages} {n fuel : Nat}
  {row : Row} {encoded : Bytes}

/-- A payload that fits its cell is not spilled. -/
theorem buildRowCell_short {E : Stop → Prop} (encodes : row.encode key = .ok encoded)
    (short : encoded.length ≤ o.start.pager.pageSize.maxLocal) :
    Reads env o v n (buildRowCell env key row)
      (· = (payloadCell o.start.pager.pageSize key encoded 0).bytes) E := by
  have sizes := o.start.pager.pageSize.bounds
  have small : encoded.length < 2 ^ 32 := by
    simp only [PageSize.maxLocal, PageSize.usableSpace] at short
    omega
  rw [buildRowCell]
  refine Reads.ok encodes ?_
  rw [spillIfNeeded, bind_assoc]
  refine Reads.pageSize ?_
  rw [if_pos short, pure_bind]
  refine Reads.pure ?_
  rw [tryFromOr_of_lt small, payloadCell, LeafCell.bytes, List.take_of_length_le short]

theorem leafSplit_panics (dev : env.profile = .dev)
    (page : LeafPage o.start.pager.pageSize buf start cells) {index : Nat}
    (inside : index ≤ cells.length) (new : c.Fits o.start.pager.pageSize.maxLocal)
    (leftFits : HalfFits o.start.pager.pageSize (leftHalf (splitCells cells index c)))
    {a b : LeafCell} (right : rightHalf (splitCells cells index c) = [a, b])
    (overfull : o.start.pager.pageSize.contentEnd < a.size + b.size) :
    Reads env o v n (Btree.leafSplitWithNewCell env buf index c.bytes) (fun _ => False) (· = .panic) := by
  intro s during
  have size : s.pager.pageSize = o.start.pager.pageSize := congrArg Pager.pageSize during.pager
  have fits := fits_splitCells page.fits inside new
  have inRight : ∀ c' ∈ [a, b], c'.Fits o.start.pager.pageSize.maxLocal := fun c' member => by
    rw [← right] at member
    exact fits c' (List.mem_of_mem_drop member)
  have inLeft : ∀ c' ∈ leftHalf (splitCells cells index c), c'.Fits o.start.pager.pageSize.maxLocal :=
    fun c' member => fits c' (List.mem_of_mem_take member)
  obtain ⟨leftBuf, leftRun, -⟩ := buildLeafHalf_ok env.profile inLeft leftFits
  have panics := buildLeafHalf_panics (inRight a List.mem_cons_self)
    (inRight b (List.mem_cons_of_mem _ List.mem_cons_self)) overfull
  rw [← dev] at panics
  rw [leafSplitWithNewCell_eq env page inside c size]
  simp only [leftRun, right, panics, liftM_ok, liftM_error, pure_bind]
  exact Or.inr ⟨rfl, during⟩

/-- The insertion of a key whose cell does not fit beside one of the others. -/
theorem Tree.WellFormed.insert_panics (dev : env.profile = .dev)
    (wellFormed : t.WellFormed nested o.start.pager.pageSize v n)
    (root : o.start.pager.rootPageId = t.id) (deep : h < fuel)
    (absent : ∀ row, (key, row) ∉ t.rows) (encodes : row.encode key = .ok encoded)
    (short : encoded.length ≤ o.start.pager.pageSize.maxLocal) (small : encoded.length ≤ u32Max)
    (tight : ¬ (t.leafFor key).Roomy (payloadCell o.start.pager.pageSize key encoded 0))
    (leftFits : HalfFits o.start.pager.pageSize
      (leftHalf (splitCells (t.leafFor key).cells ((t.leafFor key).rank key)
        (payloadCell o.start.pager.pageSize key encoded 0))))
    {a b : LeafCell} (right : rightHalf (splitCells (t.leafFor key).cells ((t.leafFor key).rank key)
      (payloadCell o.start.pager.pageSize key encoded 0)) = [a, b])
        (overfull : o.start.pager.pageSize.contentEnd < a.size + b.size) :
    Reads env o v n (Btree.insert env fuel key row) (fun _ => False) (· = .panic) := by
  rw [Btree.insert_locate]
  refine Reads.rootPageId ?_
  rw [if_neg (wellFormed.root_ne root), root]
  -- the key is not bound, so the search ends between the smaller and the greater keys
  refine Reads.bind (wellFormed.locate (Or.inl deep)) ?_
  rintro ⟨path, leafId, leafBuf, result⟩ ⟨-, -, page, cut⟩
  obtain ⟨left, rest, cutAt, rfl⟩ := wellFormed.ordered.cut_absent absent cut
  obtain ⟨-, rank⟩ := cutAt.without
  have inside : left.length ≤ (t.leafFor key).cells.length := by
    rw [cutAt.cells, List.length_map, List.length_append, List.length_append]
    omega
  have fits : (payloadCell o.start.pager.pageSize key encoded 0).Fits o.start.pager.pageSize.maxLocal :=
    payloadCell_fits small (by decide)
  have size := LeafCell.size_le fits
  have sizes := o.start.pager.pageSize.bounds
  have needed : tryFromOr 16 ((payloadCell o.start.pager.pageSize key encoded 0).bytes.length +
    pointerLen) 65535
      = (payloadCell o.start.pager.pageSize key encoded 0).size + 2 := by
    rw [LeafCell.length_bytes, pointerLen]
    exact tryFromOr_of_lt (by omega)
  rw [rank] at leftFits right
  show Reads env o v n (Btree.insertFound env key row path leafId leafBuf (.insertAt left.length)) _ _
  rw [Btree.insertFound]
  refine Reads.bind (buildRowCell_short encodes short) ?_
  rintro bytes rfl
  refine Reads.never ?_
  rw [Btree.leafInsertOrSplit, needed]
  refine Reads.ok (page.freeSpace_eq env.profile) ?_
  -- `leaf_insert_or_split` finds no room and splits
  have full : ¬ (t.leafFor key).start - (5 + 2 * (t.leafFor key).cells.length) ≥
      (payloadCell o.start.pager.pageSize key encoded 0).size + 2 := by
    intro enough
    have count : (t.leafFor key).cells.length = (t.leafFor key).entries.length := List.length_map _
    refine tight ?_
    rw [Leaf.Roomy]
    omega
  rw [if_neg full]
  exact leafSplit_panics dev page inside fits leftFits right overfull

end programs

end Pinax
