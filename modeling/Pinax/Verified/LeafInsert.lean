import Pinax.Verified.Replace

/-! # Inserting a cell into a stored leaf

`Leaf.insertPart` is what `leaf_insert_or_split` makes of a leaf: one leaf where there is room for
the cell, and otherwise the two halves of its cells.
-/

namespace Pinax

open SearchNode (Node Part Within)

/-- The cell and its pointer fit between the pointer array and the content. -/
def Leaf.Roomy (leaf : Leaf) (c : LeafCell) : Prop :=
  5 + 2 * (leaf.entries.length + 1) + c.size ≤ leaf.start

instance (leaf : Leaf) (c : LeafCell) : Decidable (leaf.Roomy c) := by
  unfold Leaf.Roomy
  infer_instance

/-- A leaf that was built from its cells. -/
def Leaf.fresh (ps : PageSize) (id : Nat) (entries : List Entry) : Leaf :=
  ⟨id, ps.contentEnd - cellsLen (entries.map Entry.cell), entries⟩

/-- The first half of the cells, by count. -/
def firstHalf (all : List Entry) : List Entry := all.take (all.length / 2)
def secondHalf (all : List Entry) : List Entry := all.drop (all.length / 2)

/-- Both halves meet the obligation of `insert_cell_at`. -/
def HalvesFit (ps : PageSize) (all : List Entry) : Prop :=
  HalfFits ps ((firstHalf all).map Entry.cell) ∧ HalfFits ps ((secondHalf all).map Entry.cell)

instance (ps : PageSize) (all : List Entry) : Decidable (HalvesFit ps all) := by
  unfold HalvesFit
  infer_instance

/-- The leaf with `e` at `index`, under the ids from `n` on; with the next free id. -/
def Leaf.insertPart (ps : PageSize) (leaf : Leaf) (index : Nat) (e : Entry) (n : Nat) :
    Part I64 Leaf × Nat :=
  if leaf.Roomy e.cell then (.one ⟨n, leaf.start - e.cell.size, leaf.entries.insertIdx index e⟩, n + 1)
  else
    let all := leaf.entries.insertIdx index e
    (.two (Leaf.fresh ps n (firstHalf all)) ((secondHalf all).headD e).cell.key
      (Leaf.fresh ps (n + 1) (secondHalf all)), n + 2)

variable {ps : PageSize} {v v' : Pages} {n n₀ : Nat} {leaf : Leaf} {e : Entry} {key : I64}

theorem secondHalf_cons {all : List Entry} (some : all ≠ []) :
    ∃ first rest, secondHalf all = first :: rest := by
  have := List.length_pos_iff.mpr some
  cases half : secondHalf all with
  | nil =>
    have none := List.drop_eq_nil_iff.mp half
    omega
  | cons first rest => exact ⟨first, rest, rfl⟩

theorem firstHalf_append (all : List Entry) : firstHalf all ++ secondHalf all = all :=
  List.take_append_drop _ _

theorem mem_insertIdx {index : Nat} (inside : index ≤ leaf.entries.length) {e' : Entry} :
    e' ∈ leaf.entries.insertIdx index e ↔ e' = e ∨ e' ∈ leaf.entries := by
  rw [(List.perm_insertIdx e leaf.entries inside).mem_iff, List.mem_cons]

theorem insertIdx_ne_nil {index : Nat} (inside : index ≤ leaf.entries.length) :
    leaf.entries.insertIdx index e ≠ [] := by
  intro none
  have listed := (mem_insertIdx (e := e) inside).mpr (Or.inl rfl)
  rw [none] at listed
  exact absurd listed List.not_mem_nil

section programs

variable {env : Env} {o : Origin} {E : Stop → Prop}

/-- `leaf_insert_or_split` puts the leaves of the part. -/
theorem leafInsertOrSplit_runs (fresh : ∀ id, o.start.nextPageId ≤ id → o.writable id)
    {buf : Bytes} {index : Nat} (page : LeafPage o.start.pager.pageSize buf leaf.start leaf.cells)
    (inside : index ≤ leaf.entries.length) (new : e.cell.Fits o.start.pager.pageSize.maxLocal)
    (stored : ∀ e' ∈ leaf.entries.insertIdx index e, e'.Stored o.start.pager.pageSize v)
    (below : ∀ e' ∈ leaf.entries.insertIdx index e, ∀ id ∈ e'.ids, id < n)
    (room : leaf.Roomy e.cell ∨ HalvesFit o.start.pager.pageSize (leaf.entries.insertIdx index e)) :
    Runs env o v n (Btree.leafInsertOrSplit env buf index e.cell.bytes) (fun r v' n' =>
      let p := leaf.insertPart o.start.pager.pageSize index e n
      r = resultOf (h := 0) p.1 ∧ n' = p.2 ∧ ∀ l ∈ p.1.nodes, l.Stored o.start.pager.pageSize v' ∧
        l.id < 4294967296) E := by
  have inside' : index ≤ leaf.cells.length := by rw [Leaf.cells, List.length_map]; exact inside
  have count : leaf.cells.length = leaf.entries.length := List.length_map _
  have size := LeafCell.size_le new
  have sizes := o.start.pager.pageSize.bounds
  have bounds := page.bounds
  have needed : tryFromOr 16 (e.cell.bytes.length + pointerLen) 65535 = e.cell.size + 2 := by
    rw [LeafCell.length_bytes, pointerLen]
    exact tryFromOr_of_lt (by omega)
  have cells : ∀ all : List Entry, (∀ e' ∈ all, e' ∈ leaf.entries.insertIdx index e) →
      ∀ c ∈ all.map Entry.cell, c.Fits o.start.pager.pageSize.maxLocal := by
    intro all sub c member
    obtain ⟨e', listed, rfl⟩ := List.mem_map.mp member
    rcases (mem_insertIdx inside).mp (sub e' listed) with rfl | old
    · exact new
    · exact page.fits e'.cell (List.mem_map_of_mem old)
  -- the entries keep their chains, which end below the ids handed out here
  have moved : ∀ {v' : Pages} {all : List Entry}, (∀ id, id < n → v' id = v id) →
      (∀ e' ∈ all, e' ∈ leaf.entries.insertIdx index e) →
        ∀ e' ∈ all, e'.Stored o.start.pager.pageSize v' := by
    intro v' all same sub e' member
    exact (stored e' (sub e' member)).mono fun id inIds content known =>
      (same id (below e' (sub e' member) id inIds)).trans known
  rw [Btree.leafInsertOrSplit, needed]
  refine Runs.ok (page.freeSpace_eq env.profile) (Runs.ite (fun enough => ?_) fun short => ?_)
  -- room for the cell: the leaf is put under one new id
  · have roomy : leaf.Roomy e.cell := by
      rw [Leaf.Roomy]
      rw [count] at enough
      omega
    obtain ⟨buf', inserted, page'⟩ := page.insertCellAt_ok env.profile inside' new (by
      rw [count]
      exact roomy)
    refine Runs.ok inserted (Runs.put fresh page'.len fun small => Runs.pure ?_)
    simp only [u32Max] at small
    rw [Leaf.insertPart, if_pos roomy]
    refine ⟨rfl, rfl, fun l member => ?_⟩
    obtain rfl := List.mem_singleton.mp member
    refine ⟨⟨⟨buf', withPage_same, ?_⟩,
      moved (fun id lt => withPage_other (Nat.ne_of_lt lt)) fun _ listed => listed⟩,
      by show n < _; omega⟩
    rw [Leaf.cells, List.map_insertIdx]
    exact page'
  -- no room: both halves are built before the first of them is put
  · have full : ¬ leaf.Roomy e.cell := by
      rw [Leaf.Roomy]
      rw [count] at short
      omega
    obtain ⟨firstRoom, secondRoom⟩ := room.resolve_left full
    obtain ⟨first, rest, half⟩ := secondHalf_cons (insertIdx_ne_nil (e := e) inside)
    have split : leaf.entries.insertIdx index e =
      firstHalf (leaf.entries.insertIdx index e) ++ secondHalf (leaf.entries.insertIdx index e) :=
      (firstHalf_append _).symm
    have inFirst : ∀ e' ∈ firstHalf (leaf.entries.insertIdx index e),
      e' ∈ leaf.entries.insertIdx index e :=
      fun e' member => List.mem_of_mem_take member
    have inSecond : ∀ e' ∈ secondHalf (leaf.entries.insertIdx index e),
      e' ∈ leaf.entries.insertIdx index e :=
      fun e' member => List.mem_of_mem_drop member
    obtain ⟨leftBuf, leftRun, leftPage⟩ := buildLeafHalf_ok env.profile (cells _ inFirst) firstRoom
    obtain ⟨rightBuf, rightRun, rightPage⟩ := buildLeafHalf_ok env.profile (cells _ inSecond) secondRoom
    have separator : Btree.separatorOf
      (((secondHalf (leaf.entries.insertIdx index e)).map Entry.cell).map LeafCell.bytes)
        = .ok ((secondHalf (leaf.entries.insertIdx index e)).headD e).cell.key := by
      rw [half, List.map_cons]
      exact separatorOf_eq
    have all : splitCells leaf.cells index e.cell = (leaf.entries.insertIdx index e).map Entry.cell := by
      rw [splitCells, Leaf.cells, List.map_insertIdx]
    have leftCells : leftHalf (splitCells leaf.cells index e.cell) =
      (firstHalf (leaf.entries.insertIdx index e)).map Entry.cell := by
      rw [all, leftHalf, firstHalf, List.map_take, List.length_map]
    have rightCells : rightHalf (splitCells leaf.cells index e.cell) =
      (secondHalf (leaf.entries.insertIdx index e)).map Entry.cell := by
      rw [all, rightHalf, secondHalf, List.map_drop, List.length_map]
    -- the equation of the split is about a state, whose page size it reads
    intro s during within
    have size : s.pager.pageSize = o.start.pager.pageSize := congrArg Pager.pageSize during.pager
    rw [leafSplitWithNewCell_eq env page inside' e.cell size] at within ⊢
    simp only [leftCells, rightCells] at within ⊢
    revert within
    refine Runs.ok leftRun (Runs.ok rightRun (Runs.ok separator ?_)) s during
    refine Runs.put fresh leftPage.len fun _ => Runs.put fresh rightPage.len fun small => Runs.pure ?_
    simp only [u32Max] at small
    rw [Leaf.insertPart, if_neg full]
    have first' : n ≠ n + 1 := Nat.ne_of_lt (Nat.lt_succ_self n)
    have same : ∀ id, id < n → withPage (withPage v n (body leftBuf)) (n + 1) (body rightBuf) id =
      v id := fun id lt => by
      rw [withPage_other (by omega), withPage_other (by omega)]
    refine ⟨rfl, rfl, fun l member => ?_⟩
    rcases List.mem_cons.mp member with rfl | second
    · exact ⟨⟨⟨leftBuf, (withPage_other first').trans withPage_same, leftPage⟩, moved same inFirst⟩,
        by show n < _; omega⟩
    · obtain rfl := List.mem_singleton.mp second
      exact ⟨⟨⟨rightBuf, withPage_same, rightPage⟩, moved same inSecond⟩, by show n + 1 < _; omega⟩

end programs

/-! ## The new leaves in the tree -/

theorem Within.cut {γ : Type} {f : γ → Int} {l r : List γ} {x : γ} {lo hi : Int}
    (within : Within f (l ++ x :: r) lo hi) :
    Within f l lo (f x) ∧ Within f (x :: r) (f x) hi := by
  obtain ⟨⟨first, second⟩, apart⟩ := within.of_append
  have inside := second.bounds x List.mem_cons_self
  refine ⟨⟨inside.1, first.sorted,
    fun y member => ⟨(first.bounds y member).1, apart y member x List.mem_cons_self⟩⟩,
    ⟨le_of_lt inside.2, second.sorted, fun y member => ⟨?_, (second.bounds y member).2⟩⟩⟩
  rcases List.mem_cons.mp member with rfl | later
  · exact le_refl _
  · exact le_of_lt (List.rel_of_pairwise_cons second.sorted later)

theorem Leaf.entries_insertPart (ps : PageSize) (leaf : Leaf) (index : Nat) (e : Entry) (n : Nat) :
    (leaf.insertPart ps index e n).1.flat Leaf.entries = leaf.entries.insertIdx index e := by
  rw [Leaf.insertPart]
  split
  · rw [Part.flat_one]
  · rw [Part.flat_two]
    exact firstHalf_append _

/-- The new leaves take one page or two, besides those of their entries. -/
theorem Leaf.pages_insertPart (ps : PageSize) (leaf : Leaf) (index : Nat) (e : Entry) (n : Nat) :
    n ≤ (leaf.insertPart ps index e n).2 ∧ ((leaf.insertPart ps index e n).1.flat Leaf.pages).Perm
      (List.range' n ((leaf.insertPart ps index e n).2 - n) ++
        (leaf.entries.insertIdx index e).flatMap Entry.ids) := by
  rw [Leaf.insertPart]
  split
  · refine ⟨Nat.le_succ n, ?_⟩
    rw [Part.flat_one, Nat.add_sub_cancel_left]
    exact List.Perm.refl _
  · refine ⟨Nat.le_add_right n 2, ?_⟩
    rw [Part.flat_two, Nat.add_sub_cancel_left]
    have whole : (leaf.entries.insertIdx index e).flatMap Entry.ids
        = (firstHalf (leaf.entries.insertIdx index e)).flatMap Entry.ids ++
          (secondHalf (leaf.entries.insertIdx index e)).flatMap Entry.ids := by
      rw [← List.flatMap_append, firstHalf_append]
    rw [whole]
    exact (List.Perm.cons n List.perm_middle)

/-- The part may take the place of a leaf that had at most one more cell, of the same key. -/
theorem Leaf.insertPart_replaces {old : Leaf} {left mid right : List Entry} (ps : PageSize)
    (split : old.entries = left ++ mid ++ right) (start : Nat) (same : e.cell.key = key)
    (below : ∀ x ∈ left, x.key < key.val) (above : ∀ x ∈ right, key.val < x.key) (n : Nat) :
    Tree.Replaces key old ((⟨old.id, start, left ++ right⟩ : Leaf).insertPart ps left.length e n).1 := by
  have inserted : (left ++ right).insertIdx left.length e = left ++ e :: right := insertIdx_at rfl e
  intro b e' within low high
  have sub : (left ++ right).Sublist old.entries := by
    rw [split]
    exact (List.sublist_append_left left mid).append (List.Sublist.refl right)
  have equal : e.key = key.val := congrArg I64.val same
  have whole : Within Entry.key (left ++ e :: right) b e' := (within.sublist sub).insert
    (fun x member => by rw [equal]; exact below x member)
      (fun x member => by rw [equal]; exact above x member)
    (by rw [equal]; exact ⟨low, high⟩)
  rw [Leaf.insertPart, inserted]
  split
  · exact whole
  · obtain ⟨first, rest, half⟩ := secondHalf_cons (show left ++ e :: right ≠ [] by simp)
    have halves := firstHalf_append (left ++ e :: right)
    rw [half] at halves
    rw [← halves] at whole
    have cut := Within.cut whole
    show Within Entry.key (firstHalf (left ++ e :: right)) b
      ((secondHalf (left ++ e :: right)).headD e).key ∧
      Within Entry.key (secondHalf (left ++ e :: right))
        ((secondHalf (left ++ e :: right)).headD e).key e'
    rw [half]
    exact cut

theorem Leaf.insertPart_fits {old : Leaf} {left mid right : List Entry}
    (split : old.entries = left ++ mid ++ right) (start : Nat) (same : e.cell.key = key)
    (below : ∀ x ∈ left, x.key < key.val) (above : ∀ x ∈ right, key.val < x.key)
    (distinct : e.ids.Nodup) (range : ∀ id ∈ e.ids, n₀ ≤ id ∧ id < n) (le : n₀ ≤ n)
    (stored : ∀ l ∈ ((⟨old.id, start, left ++ right⟩ : Leaf).insertPart ps left.length e n).1.nodes,
      l.Stored ps v ∧ l.id < 4294967296) :
    Fits ps v n₀ ((⟨old.id, start, left ++ right⟩ : Leaf).insertPart ps left.length e n).2 key old
      ((⟨old.id, start, left ++ right⟩ : Leaf).insertPart ps left.length e n).1 := by
  have inserted : (left ++ right).insertIdx left.length e = left ++ e :: right := insertIdx_at rfl e
  obtain ⟨grown, pages⟩ := Leaf.pages_insertPart ps ⟨old.id, start, left ++ right⟩ left.length e n
  refine ⟨stored, Leaf.insertPart_replaces ps split start same below above n, ?_⟩
  refine ⟨List.range' n
    (((⟨old.id, start, left ++ right⟩ : Leaf).insertPart ps left.length e n).2 - n) ++ e.ids,
    (left ++ right).flatMap Entry.ids, pages.trans ?_, ?_, fun id member => ?_, ?_⟩
  · rw [inserted]
    refine List.perm_iff_count.mpr fun id => ?_
    simp only [List.flatMap_append, List.flatMap_cons, List.count_append]
    omega
  · refine List.nodup_append.mpr ⟨List.nodup_range', distinct, ?_⟩
    rintro id inRange id' inIds rfl
    have := (List.mem_range'_1.mp inRange).1
    have := (range id inIds).2
    omega
  · rcases List.mem_append.mp member with inRange | inIds
    · have := List.mem_range'_1.mp inRange
      omega
    · have := range id inIds
      omega
  · rw [Leaf.pages, split, List.flatMap_append, List.flatMap_append, List.flatMap_append]
    exact ((List.sublist_append_left _ _).append (List.Sublist.refl _)).cons _

end Pinax
