import Pinax.Verified.Budget
import Pinax.Verified.LeafInsert
import Pinax.Verified.RowCodec

/-! # Insert, update and delete on a well-formed tree

Each operation descends to the key's leaf, replaces it, copies the path and commits the new root.
-/

namespace Pinax

open SearchNode (Node Part Within)
open BufferPool (allocatePageId putNew)

/-! ## Finding the leaf -/

/-- What the three operations start with: the path to the key's leaf, its page, and the place of the
key. -/
def Btree.locate (env : Env) (fuel root : Nat) (key : I64) :
    PoolM (List Nat × Nat × Bytes × SearchResult) := do
  let path ← descendPath env fuel root key
  let leafId ← lastOf path
  let leafBuf ← BufferPool.get env leafId
  let result ← leafSearch leafBuf key
  return (path, leafId, leafBuf, result)

theorem Btree.insert_locate (env : Env) (fuel : Nat) (key : I64) (row : Row) :
    insert env fuel key row = (do
      let root ← BufferPool.rootPageId
      if root = emptyTreeRoot then insertFirst env key row
      else
        let found ← locate env fuel root key
        insertFound env key row found.1 found.2.1 found.2.2.1 found.2.2.2) := by
  simp only [insert_eq, locate, bind_assoc, pure_bind]

theorem Btree.update_locate (env : Env) (fuel : Nat) (key : I64) (row : Row) :
    update env fuel key row = (do
      let root ← BufferPool.rootPageId
      if root = emptyTreeRoot then throw (.permanent (.keyNotFound key))
      else
        let found ← locate env fuel root key
        updateFound env key row found.1 found.2.1 found.2.2.1 found.2.2.2) := by
  simp only [update_eq, locate, bind_assoc, pure_bind]

theorem Btree.delete_locate (env : Env) (fuel : Nat) (key : I64) :
    delete env fuel key = (do
      let root ← BufferPool.rootPageId
      if root = emptyTreeRoot then throw (.permanent (.keyNotFound key))
      else
        let ps ← BufferPool.pageSize
        let found ← locate env fuel root key
        deleteFound env key ps.maxLocal found.1 found.2.1 found.2.2.1 found.2.2.2) := by
  simp only [delete_eq, locate, bind_assoc, pure_bind]

/-- Where the key is, or where it belongs. -/
structure Located (ps : PageSize) {h : Nat} (t : Tree h) (key : I64)
    (found : List Nat × Nat × Bytes × SearchResult) : Prop where
  path : found.1.dropLast.reverse = (t.spine key).reverse
  leaf : found.2.1 = (t.leafFor key).id
  page : LeafPage ps found.2.2.1 (t.leafFor key).start (t.leafFor key).cells
  cut : (t.leafFor key).Cut key found.2.2.2

section programs

variable {env : Env} {o : Origin} {E : Stop → Prop} {nested : Bool} {h : Nat} {t : Tree h} {key : I64}
  {v v' : Pages} {n n₀ fuel : Nat}

theorem Tree.WellFormed.locate (wellFormed : t.WellFormed nested o.start.pager.pageSize v n₀)
    (deep : h < fuel ∨ E .running) :
    Reads env o v n (Btree.locate env fuel t.id key) (Located o.start.pager.pageSize t key) E := by
  obtain ⟨b, e, within, -⟩ := wellFormed.ordered.leaf key.between.1 key.between.2
  rw [Btree.locate]
  refine Reads.bind (wellFormed.stored.descend key deep [t.id]) ?_
  rintro path rfl
  have last : Btree.lastOf ([t.id] ++ t.path key) = .ok (t.leafFor key).id := by
    rw [Btree.lastOf, show ([t.id] ++ t.path key).getLast? = _ from t.getLast?_path key]
  refine Reads.ok last ((wellFormed.stored.leaf key).get fun buf page => ?_)
  obtain ⟨result, search, cut⟩ := Leaf.search page within key
  refine Reads.ok search (Reads.pure ⟨?_, rfl, page, cut⟩)
  show (t.id :: t.path key).dropLast.reverse = _
  rw [t.dropLast_path key]

/-! ## Putting the new leaf and committing -/

/-- What is left to do once the leaf's part is put. -/
theorem commitPart_finishes (fresh : ∀ id, o.start.nextPageId ≤ id → o.writable id) {p : Part I64 Leaf}
    (wellFormed : t.WellFormed nested o.start.pager.pageSize v n₀) (two : firstDataPageId ≤ n₀)
    (grown : Grown v n₀ v' n) (fits : Fits o.start.pager.pageSize v' n₀ n key (t.leafFor key) p)
    (splits : nested = true ∨ ∃ leaf, p = .one leaf) :
    Finishes env o v' n (do
      let result ← propagate env (t.spine key).reverse (t.leafFor key).id (resultOf (h := 0) p)
      let newRoot ← finalizeRoot env result
      BufferPool.commit env newRoot
      return newRoot) (fun a root v'' n'' => a = root ∧ ∃ (h' : Nat) (t' : Tree h'),
        t.replaceLeaf o.start.pager.pageSize key (p, n) = (⟨h', t'⟩, n'') ∧ t'.id = root ∧
        t'.WellFormed nested o.start.pager.pageSize v'' n'' ∧
        t'.entries = t.left key ++ (p.flat Leaf.entries ++ t.right key) ∧
        ∀ leaf, p = .one leaf → h' = h ∧ t'.separators = t.separators ∧ t'.leafFor key = leaf) E := by
  rw [← bind_assoc]
  refine Finishes.bind (replaceLeaf_runs fresh wellFormed two grown fits splits) ?_
  rintro root v'' n'' - ⟨-, h', t', made, same, wellFormed', entries, shape⟩
  exact Finishes.commit ⟨rfl, h', t', made, same, wellFormed', entries, shape⟩

/-- The entry that a row is stored as, when its overflow pages take the ids from `n` on. -/
def rowEntry (ps : PageSize) (key : I64) (row : Row) (encoded : Bytes) (n : Nat) : Entry :=
  ⟨payloadCell ps key encoded ((overflowIds ps n encoded).headD 0), overflowIds ps n encoded, row⟩

/-- What is true of it. -/
structure NewEntry (ps : PageSize) (v : Pages) (n₀ n : Nat) (key : I64) (row : Row) (encoded : Bytes)
    (e : Entry) : Prop where
  hasKey : e.cell.key = key
  hasRow : e.row = row
  fits : e.cell.Fits ps.maxLocal
  size : e.cell.size = (payloadCell ps key encoded 0).size
  stored : e.Stored ps v
  distinct : e.ids.Nodup
  range : ∀ id ∈ e.ids, n₀ ≤ id ∧ id < n

theorem newEntry_runs (fresh : ∀ id, o.start.nextPageId ≤ id → o.writable id) {row : Row}
    {encoded : Bytes} (encodes : row.encode key = .ok encoded) (small : encoded.length ≤ u32Max)
    (positive : 0 < n) :
    Runs env o v n (buildRowCell env key row) (fun bytes v' n' =>
      let e := rowEntry o.start.pager.pageSize key row encoded n
      bytes = e.cell.bytes ∧ n' = n + e.ids.length ∧
        NewEntry o.start.pager.pageSize v' n n' key row encoded e) E := by
  refine (buildRowCell_runs fresh encodes small).imp ?_
  rintro bytes v' n' - ⟨⟨localBytes, first⟩, rfl, written⟩
  obtain rfl : first = (overflowIds o.start.pager.pageSize n encoded).headD 0 :=
    written.linked.first_eq (length_overflowIds _ _ _)
  refine ⟨rfl, by rw [written.next, rowEntry, length_overflowIds], rfl, rfl,
    payloadCell_fits small written.linkFits, rfl, ⟨encoded, written.reassembles positive key, ?_⟩,
      nodup_overflowIds _ _ _, ?_⟩
  · have decodes := Row.decode_encode encodes []
    rwa [List.append_nil] at decodes
  · intro id member
    rw [written.next]
    exact mem_overflowIds.mp member

/-- The leaf without the key's cell, whose content space stays taken. -/
def Leaf.without (leaf : Leaf) (key : I64) : Leaf :=
  ⟨leaf.id, leaf.start, leaf.entries.filter fun e => e.cell.key ≠ key⟩

/-- How many of its keys are smaller. -/
def Leaf.rank (leaf : Leaf) (key : I64) : Nat := leaf.entries.countP fun e => e.key < key.val

/-- The rows with `key` bound to `row`, in key order. -/
def bindRow (key : I64) (row : Row) (rows : List (I64 × Row)) : List (I64 × Row) :=
  rows.filter (fun r => r.1.val < key.val) ++ (key, row) :: rows.filter fun r => key.val < r.1.val

/-- The rows without that of `key`. -/
def unbindRow (key : I64) (rows : List (I64 × Row)) : List (I64 × Row) := rows.filter fun r => r.1 ≠ key

/-- Only the sizes of the cells decide whether the halves fit. -/
theorem HalvesFit.congr {ps : PageSize} {all all' : List Entry} (fit : HalvesFit ps all)
    (same : all.map (fun e => e.cell.size) = all'.map fun e => e.cell.size) : HalvesFit ps all' := by
  have count := congrArg List.length same
  rw [List.length_map, List.length_map] at count
  have sizes : ∀ l : List Entry, cellsLen (l.map Entry.cell) = (l.map fun e => e.cell.size).sum :=
    fun l => by
    rw [cellsLen, List.map_map]
    rfl
  obtain ⟨first, second⟩ := fit
  simp only [HalvesFit, HalfFits, sizes, firstHalf, secondHalf, List.length_map, List.length_take,
    List.length_drop] at first second ⊢
  rw [List.map_take] at first ⊢
  rw [List.map_drop] at second ⊢
  rw [← same, ← count]
  exact ⟨first, second⟩

/-- The cell `c` fits the leaf, or the halves do that the leaf is split into. -/
def Leaf.Takes (ps : PageSize) (leaf : Leaf) (index : Nat) (c : LeafCell) : Prop :=
  leaf.Roomy c ∨ HalvesFit ps (leaf.entries.insertIdx index ⟨c, [], ⟨[]⟩⟩)

/-- Putting the leaf with the new entry, and all that follows. -/
theorem putEntry_finishes (fresh : ∀ id, o.start.nextPageId ≤ id → o.writable id) {row : Row}
    {encoded : Bytes} (wellFormed : t.WellFormed nested o.start.pager.pageSize v n₀)
    (two : firstDataPageId ≤ n₀) (grown : Grown v n₀ v' n) {e : Entry}
    (entry : NewEntry o.start.pager.pageSize v' n₀ n key row encoded e) {left mid right : List Entry}
    (split : (t.leafFor key).entries = left ++ mid ++ right) (below : ∀ x ∈ left, x.key < key.val)
    (above : ∀ x ∈ right, key.val < x.key) {buf : Bytes}
    (page : LeafPage o.start.pager.pageSize buf (t.leafFor key).start
      ((left ++ right).map Entry.cell)) (takes : Leaf.Takes o.start.pager.pageSize
        ⟨(t.leafFor key).id, (t.leafFor key).start, left ++ right⟩ left.length
      (payloadCell o.start.pager.pageSize key encoded 0))
    (splits : nested = true ∨ (⟨(t.leafFor key).id, (t.leafFor key).start, left ++ right⟩ : Leaf).Roomy
      (payloadCell o.start.pager.pageSize key encoded 0)) :
    Finishes env o v' n (do
      let result ← Btree.leafInsertOrSplit env buf left.length e.cell.bytes
      let result ← propagate env (t.spine key).reverse (t.leafFor key).id result
      let newRoot ← finalizeRoot env result
      BufferPool.commit env newRoot
      return newRoot) (fun a root v'' n'' => a = root ∧ ∃ (h' : Nat) (t' : Tree h'),
        t.replaceLeaf o.start.pager.pageSize key
          ((⟨(t.leafFor key).id, (t.leafFor key).start, left ++ right⟩ : Leaf).insertPart
          o.start.pager.pageSize left.length e n) = (⟨h', t'⟩, n'') ∧ t'.id = root ∧
        t'.WellFormed nested o.start.pager.pageSize v'' n'' ∧
        t'.entries = t.left key ++ (left ++ e :: right ++ t.right key) ∧
        ((⟨(t.leafFor key).id, (t.leafFor key).start, left ++ right⟩ : Leaf).Roomy
          (payloadCell o.start.pager.pageSize key encoded 0) →
          h' = h ∧ t'.separators = t.separators)) E := by
  let leaf : Leaf := ⟨(t.leafFor key).id, (t.leafFor key).start, left ++ right⟩
  have inside : left.length ≤ leaf.entries.length := by
    show left.length ≤ (left ++ right).length
    rw [List.length_append]
    omega
  have inserted : leaf.entries.insertIdx left.length e = left ++ e :: right := insertIdx_at rfl e
  have sameRoom : leaf.Roomy e.cell ↔ leaf.Roomy (payloadCell o.start.pager.pageSize key encoded 0) := by
    rw [Leaf.Roomy, Leaf.Roomy, entry.size]
  -- what stays on the leaf was there before: its chains are stored, below the new ids
  have old : ∀ e' ∈ left ++ right, e' ∈ (t.leafFor key).entries := by
    intro e' member
    rw [split]
    rcases List.mem_append.mp member with inLeft | inRight
    · exact List.mem_append_left _ (List.mem_append_left _ inLeft)
    · exact List.mem_append_right _ inRight
  have oldIds : ∀ e' ∈ left ++ right, ∀ id ∈ e'.ids, id < n₀ := fun e' member id inIds =>
    (wellFormed.range id (Tree.leaf_pages
      (List.mem_cons_of_mem _ (List.mem_flatMap.mpr ⟨e', old e' member, inIds⟩)))).2
  have stored : ∀ e' ∈ leaf.entries.insertIdx left.length e, e'.Stored o.start.pager.pageSize v' := by
    intro e' member
    rcases (mem_insertIdx inside).mp member with rfl | isOld
    · exact entry.stored
    · refine ((wellFormed.stored.leaf key).entries e' (old e' isOld)).mono
        fun id inIds content known => ?_
      exact (grown.same id (oldIds e' isOld id inIds)).trans known
  have idsBelow : ∀ e' ∈ leaf.entries.insertIdx left.length e, ∀ id ∈ e'.ids, id < n := by
    intro e' member id inIds
    rcases (mem_insertIdx inside).mp member with rfl | isOld
    · exact (entry.range id inIds).2
    · exact Nat.lt_of_lt_of_le (oldIds e' isOld id inIds) grown.le
  -- what was asked of a cell without a chain holds of the cell with one, which is as long
  have room : leaf.Roomy e.cell ∨
    HalvesFit o.start.pager.pageSize (leaf.entries.insertIdx left.length e) := by
    rcases takes with roomy | halves
    · exact Or.inl (sameRoom.mpr roomy)
    · refine Or.inr (halves.congr ?_)
      rw [List.map_insertIdx, List.map_insertIdx, entry.size]
  have page' : LeafPage o.start.pager.pageSize buf leaf.start leaf.cells := page
  -- the leaf or its halves, then the path above, then the commit
  refine Finishes.bind (leafInsertOrSplit_runs fresh page' inside entry.fits stored idsBelow room) ?_
  rintro result v'' n'' grown' ⟨rfl, rfl, parts⟩
  have fits := Leaf.insertPart_fits split
    (t.leafFor key).start entry.hasKey below above entry.distinct entry.range grown.le parts
  have one : nested = true ∨ ∃ l,
    (leaf.insertPart o.start.pager.pageSize left.length e n).1 = .one l := by
    rcases splits with nested | roomy
    · exact Or.inl nested
    · exact Or.inr ⟨_, by rw [Leaf.insertPart, if_pos (sameRoom.mpr roomy)]⟩
  refine (commitPart_finishes fresh wellFormed two (grown.trans grown') fits one).imp ?_
  rintro root root' v₃ n₃ ⟨same, h', t', made, id, wellFormed', entries, shape⟩
  refine ⟨same, h', t', made, id, wellFormed', ?_, fun roomy => ?_⟩
  · rw [entries, Leaf.entries_insertPart, inserted]
  · obtain ⟨height, separators, -⟩ := shape _ (by rw [Leaf.insertPart, if_pos (sameRoom.mpr roomy)])
    exact ⟨height, separators⟩

end programs

/-! ## Cutting the contents at a key -/

section contents

variable {env : Env} {nested : Bool} {h : Nat} {t : Tree h} {key : I64} {lo hi : Int}
  {left mid right : List Entry}

/-- A cut around the cells of `key`: at most one, and smaller and greater keys on its sides. -/
structure CutAt (key : I64) (entries left mid right : List Entry) : Prop where
  split : entries = left ++ mid ++ right
  below : ∀ e ∈ left, e.key < key.val
  here : ∀ e ∈ mid, e.cell.key = key
  above : ∀ e ∈ right, key.val < e.key

theorem CutAt.filter {entries : List Entry} (cut : CutAt key entries left mid right)
    (p : Entry → Bool) {b c d : Bool} (isLeft : ∀ e ∈ left, p e = b) (isMid : ∀ e ∈ mid, p e = c)
    (isRight : ∀ e ∈ right, p e = d) :
    entries.filter p = (if b then left else []) ++ (if c then mid else []) ++ if d then right
      else [] := by
  have all : ∀ (l : List Entry) (a : Bool), (∀ e ∈ l, p e = a) → l.filter p = if a then l else [] := by
    intro l a same
    cases a with
    | true => exact List.filter_eq_self.mpr same
    | false => exact List.filter_eq_nil_iff.mpr fun e member => by rw [same e member]; decide
  rw [cut.split, List.filter_append, List.filter_append, all left b isLeft, all mid c isMid,
    all right d isRight]

theorem CutAt.keys {entries : List Entry} (cut : CutAt key entries left mid right) :
    (∀ e ∈ left, e.cell.key ≠ key) ∧ (∀ e ∈ mid, e.key = key.val) ∧ ∀ e ∈ right, e.cell.key ≠ key := by
  refine ⟨fun e member same => ?_, fun e member => congrArg I64.val (cut.here e member),
    fun e member same => ?_⟩
  · have := cut.below e member
    rw [Entry.key, same] at this
    omega
  · have := cut.above e member
    rw [Entry.key, same] at this
    omega

theorem CutAt.without {leaf : Leaf} (cut : CutAt key leaf.entries left mid right) :
    leaf.without key = ⟨leaf.id, leaf.start, left ++ right⟩ ∧ leaf.rank key = left.length := by
  obtain ⟨keysLeft, keysMid, keysRight⟩ := cut.keys
  constructor
  · rw [Leaf.without, cut.filter (b := true) (c := false) (d := true) _
      (fun e member => decide_eq_true (keysLeft e member))
      (fun e member => decide_eq_false fun other => other (cut.here e member)) fun e member =>
        decide_eq_true (keysRight e member)]
    simp
  · rw [Leaf.rank, List.countP_eq_length_filter, cut.filter (b := true) (c := false) (d := false) _
      (fun e member => decide_eq_true (cut.below e member))
        (fun e member => decide_eq_false (by rw [keysMid e member]; omega))
      fun e member => decide_eq_false (by have := cut.above e member; omega)]
    simp

/-- A search cuts the leaf. -/
theorem Leaf.Cut.cutAt {leaf : Leaf} {result : SearchResult} (cut : leaf.Cut key result)
    (within : Within Entry.key leaf.entries lo hi) :
    ∃ left mid right, CutAt key leaf.entries left mid right ∧
      ((mid = [] ∧ result = .insertAt left.length) ∨ ∃ e, mid = [e] ∧ result = .found left.length) := by
  cases cut with
  | @found left right e split same =>
    have sorted := within.sorted
    rw [split] at sorted
    obtain ⟨-, later, apart⟩ := List.pairwise_append.mp sorted
    have equal : e.key = key.val := congrArg I64.val same
    refine ⟨left, [e], right, ⟨by rw [split]; simp, fun x member => ?_, fun x member => ?_,
      fun x member => ?_⟩, Or.inr ⟨e, rfl, rfl⟩⟩
    · rw [← equal]; exact apart x member e List.mem_cons_self
    · rw [List.mem_singleton.mp member]; exact same
    · rw [← equal]; exact List.rel_of_pairwise_cons later member
  | @insertAt left right split below above =>
    exact ⟨left, [], right, ⟨by rw [split]; simp, below, fun x none => absurd none List.not_mem_nil,
      above⟩, Or.inl ⟨rfl, rfl⟩⟩

/-- A cut of the key's leaf is one of the whole tree. -/
theorem Tree.cutAt (ordered : t.Ordered nested minKey endKey)
    (cut : CutAt key (t.leafFor key).entries left mid right) :
    CutAt key t.entries (t.left key ++ left) mid (right ++ t.right key) := by
  have around := ordered.around key.between.1 key.between.2
  refine ⟨?_, fun e member => ?_, cut.here, fun e member => ?_⟩
  · rw [t.entries_eq key, cut.split]
    simp only [List.append_assoc]
  · rcases List.mem_append.mp member with outside | inside
    · exact around.1 e outside
    · exact cut.below e inside
  · rcases List.mem_append.mp member with inside | outside
    · exact cut.above e inside
    · exact around.2 e outside

theorem CutAt.bindRow {entries : List Entry} (cut : CutAt key entries left mid right) {e : Entry}
    (same : e.cell.key = key) :
    (left ++ e :: right).map (fun e => (e.cell.key, e.row)) =
      bindRow key e.row (entries.map fun e => (e.cell.key, e.row)) := by
  obtain ⟨-, keysMid, -⟩ := cut.keys
  have smaller := cut.filter (b := true) (c := false) (d := false) (fun e => e.key < key.val)
    (fun e member => decide_eq_true (cut.below e member))
      (fun e member => decide_eq_false (by rw [keysMid e member]; omega))
    fun e member => decide_eq_false (by have := cut.above e member; omega)
  have greater := cut.filter (b := false) (c := false) (d := true) (fun e => key.val < e.key)
    (fun e member => decide_eq_false (by have := cut.below e member; omega))
    (fun e member => decide_eq_false (by rw [keysMid e member]; omega)) fun e member => decide_eq_true
      (cut.above e member)
  simp only [↓reduceIte, Bool.false_eq_true, List.append_nil, List.nil_append] at smaller greater
  rw [Pinax.bindRow, List.filter_map, List.filter_map, List.map_append, List.map_cons, same,
    ← smaller, ← greater]
  rfl

theorem CutAt.unbindRow {entries : List Entry} (cut : CutAt key entries left mid right) :
    (left ++ right).map (fun e => (e.cell.key, e.row)) =
      unbindRow key (entries.map fun e => (e.cell.key, e.row)) := by
  obtain ⟨keysLeft, -, keysRight⟩ := cut.keys
  have others := cut.filter (b := true) (c := false) (d := true) (fun e => e.cell.key ≠ key)
    (fun e member => decide_eq_true (keysLeft e member))
      (fun e member => decide_eq_false fun other => other (cut.here e member))
    fun e member => decide_eq_true (keysRight e member)
  simp only [↓reduceIte, Bool.false_eq_true, List.append_nil] at others
  rw [Pinax.unbindRow, List.filter_map, ← others]
  rfl

end contents

/-! ## The operations -/

/-- There is room for the key's cell in its leaf, possibly after a split. -/
def Tree.Room {h : Nat} (ps : PageSize) (t : Tree h) (key : I64) (encoded : Bytes) : Prop :=
  ((t.leafFor key).without key).Takes ps ((t.leafFor key).rank key) (payloadCell ps key encoded 0)

/-- There is room for it without a split. -/
def Tree.Unsplit {h : Nat} (ps : PageSize) (t : Tree h) (key : I64) (encoded : Bytes) : Prop :=
  ((t.leafFor key).without key).Roomy (payloadCell ps key encoded 0)

section operations

variable {nested : Bool} {h : Nat} {t : Tree h} {key : I64} {fuel : Nat}

/-- The key is not in the tree, so its leaf is cut between two cells. -/
theorem Tree.Ordered.cut_absent (ordered : t.Ordered nested minKey endKey)
    (absent : ∀ row, (key, row) ∉ t.rows) {result : SearchResult} (cut : (t.leafFor key).Cut key result) :
    ∃ left right, CutAt key (t.leafFor key).entries left [] right ∧ result = .insertAt left.length := by
  obtain ⟨b, e, inLeaf, -⟩ := ordered.leaf key.between.1 key.between.2
  obtain ⟨left, mid, right, cutAt, ⟨rfl, rfl⟩ | ⟨old, rfl, rfl⟩⟩ := cut.cutAt inLeaf
  · exact ⟨left, right, cutAt, rfl⟩
  · have member : old ∈ (t.leafFor key).entries := by rw [cutAt.split]; simp
    exact absurd (ordered.mem_rows.mpr ⟨old, member, cutAt.here old List.mem_cons_self, rfl⟩)
      (absent old.row)

/-- The key is in the tree, so its leaf is cut around its cell. -/
theorem Tree.Ordered.cut_present (ordered : t.Ordered nested minKey endKey) {row : Row}
    (present : (key, row) ∈ t.rows) {result : SearchResult} (cut : (t.leafFor key).Cut key result) :
    ∃ left old right, CutAt key (t.leafFor key).entries left [old] right ∧ old.row = row ∧
      result = .found left.length := by
  obtain ⟨b, e, inLeaf, -⟩ := ordered.leaf key.between.1 key.between.2
  obtain ⟨listed, member, same, rfl⟩ := ordered.mem_rows.mp present
  obtain ⟨left, mid, right, cutAt, ⟨rfl, rfl⟩ | ⟨old, rfl, rfl⟩⟩ := cut.cutAt inLeaf
  · obtain ⟨keysLeft, -, keysRight⟩ := cutAt.keys
    rw [cutAt.split, List.append_nil] at member
    rcases List.mem_append.mp member with inLeft | inRight
    · exact absurd same (keysLeft listed inLeft)
    · exact absurd same (keysRight listed inRight)
  · have inside : old ∈ (t.leafFor key).entries := by rw [cutAt.split]; simp
    have equal : listed = old :=
      inLeaf.unique member inside (congrArg I64.val (same.trans (cutAt.here old List.mem_cons_self).symm))
    exact ⟨left, old, right, cutAt, by rw [equal], rfl⟩

theorem CutAt.cells {leaf : Leaf} {left mid right : List Entry}
    (cut : CutAt key leaf.entries left mid right) :
    leaf.cells = (left ++ mid ++ right).map Entry.cell := by
  rw [Leaf.cells, cut.split]

/-- The page of the leaf without the key's cell. -/
theorem CutAt.removeCellAt {ps : PageSize} {leaf : Leaf} {left right : List Entry}
    {old : Entry} {buf : Bytes} (cut : CutAt key leaf.entries left [old] right)
    (page : LeafPage ps buf leaf.start leaf.cells) :
    leaf.cells[left.length]? = some old.cell ∧
      ∃ buf' offset, removeCellAt buf leafHeaderLen left.length = .ok (buf', offset) ∧
      LeafPage ps buf' leaf.start ((left ++ right).map Entry.cell) := by
  have found : leaf.cells[left.length]? = some old.cell := by
    rw [cut.cells]
    simp
  obtain ⟨buf', offset, removed, page'⟩ := page.removeCellAt_ok (List.getElem?_eq_some_iff.mp found).1
  have erased : leaf.cells.eraseIdx left.length = (left ++ right).map Entry.cell := by
    rw [cut.cells, List.eraseIdx_map, List.append_assoc,
      List.eraseIdx_append_of_length_le (Nat.le_refl _), Nat.sub_self]
    rfl
  rw [erased] at page'
  exact ⟨found, buf', offset, removed, page'⟩

/-- What the new tree holds. -/
theorem rows_bound {left mid right : List Entry} (ordered : t.Ordered nested minKey endKey)
    (cut : CutAt key (t.leafFor key).entries left mid right) {e : Entry} (same : e.cell.key = key)
    {h' : Nat} {t' : Tree h'} (entries : t'.entries = t.left key ++
      (left ++ e :: right ++ t.right key)) : t'.rows = bindRow key e.row t.rows := by
  have regroup : t.left key ++ (left ++ e :: right ++ t.right key) =
    (t.left key ++ left) ++ e :: (right ++ t.right key) := by
    simp only [List.append_assoc, List.cons_append]
  rw [Tree.rows, entries, regroup]
  exact (t.cutAt ordered cut).bindRow same

theorem rows_unbound {left mid right : List Entry} (ordered : t.Ordered nested minKey endKey)
    (cut : CutAt key (t.leafFor key).entries left mid right) {h' : Nat} {t' : Tree h'}
    (entries : t'.entries = t.left key ++ (left ++ right ++ t.right key)) :
    t'.rows = unbindRow key t.rows := by
  have regroup : t.left key ++ (left ++ right ++ t.right key) =
    (t.left key ++ left) ++ (right ++ t.right key) := by
    simp only [List.append_assoc]
  rw [Tree.rows, entries, regroup]
  exact (t.cutAt ordered cut).unbindRow

variable {env : Env} {o : Origin} {v : Pages} {n : Nat} {E : Stop → Prop}

theorem Tree.WellFormed.two {ps : PageSize} (wellFormed : t.WellFormed nested ps v n) :
    firstDataPageId ≤ n := by
  have range := wellFormed.range t.id t.id_mem_pages
  omega

theorem Tree.WellFormed.root_ne {ps : PageSize} {root : Nat} (wellFormed : t.WellFormed nested ps v n)
    (same : root = t.id) :
    root ≠ emptyTreeRoot := by
  have low := (wellFormed.range t.id t.id_mem_pages).1
  rw [same]
  simp only [firstDataPageId, emptyTreeRoot] at *
  omega

/-- The tree that takes the place of `t`, with the row bound; unless its leaf is split, of the same
shape. -/
def Tree.Binds (nested : Bool) (ps : PageSize) (t : Tree h) (key : I64) (row : Row) (encoded : Bytes)
    (result root : Nat) (v : Pages) (n : Nat) : Prop :=
  result = root ∧ ∃ (h' : Nat) (t' : Tree h'), t'.id = root ∧ t'.WellFormed nested ps v n ∧
    t'.rows = bindRow key row t.rows ∧
    (t.Unsplit ps key encoded → h' = h ∧ t'.separators = t.separators)

/-- What takes the place of the key's leaf when its row is put. -/
def Tree.putPart (ps : PageSize) (key : I64) (row : Row) (encoded : Bytes) (t : Tree h) (n : Nat) :
    SearchNode.Part I64 Leaf × Nat :=
  let e := rowEntry ps key row encoded n
  ((t.leafFor key).without key).insertPart ps ((t.leafFor key).rank key) e (n + e.ids.length)

/-- The tree with the key's row bound, under the ids from `n` on: the chain, the leaf or its halves,
and the path. -/
def Tree.putRow (ps : PageSize) (key : I64) (row : Row) (encoded : Bytes) (t : Tree h) (n : Nat) :
    AnyTree × Nat :=
  let e := rowEntry ps key row encoded n
  t.replaceLeaf ps key (((t.leafFor key).without key).insertPart ps ((t.leafFor key).rank key) e
    (n + e.ids.length))

/-- The tree that takes the place of `t` is `putRow` of it. -/
def Tree.Puts (nested : Bool) (ps : PageSize) (t : Tree h) (key : I64) (row : Row) (encoded : Bytes)
    (n result root : Nat) (v : Pages) (n' : Nat) : Prop :=
  result = root ∧ ∃ (h' : Nat) (t' : Tree h'), t.putRow ps key row encoded n = (⟨h', t'⟩, n') ∧
    t'.id = root ∧
    t'.WellFormed nested ps v n' ∧ t'.rows = bindRow key row t.rows ∧
      (t.Unsplit ps key encoded → h' = h ∧ t'.separators = t.separators)

theorem Tree.Puts.binds {ps : PageSize} {row : Row} {encoded : Bytes} {n' result root : Nat} {v : Pages}
    (puts : t.Puts nested ps key row encoded n result root v n') :
    t.Binds nested ps key row encoded result root v n' := by
  obtain ⟨same, h', t', -, holds⟩ := puts
  exact ⟨same, h', t', holds⟩

/-- What is common to the two calls that put a row: the cell is built, and goes into what is left of
its leaf. -/
theorem Tree.WellFormed.putRow_finishes {left mid right : List Entry} {buf : Bytes} {row : Row}
    {encoded : Bytes} (fresh : ∀ id, o.start.nextPageId ≤ id → o.writable id)
    (wellFormed : t.WellFormed nested o.start.pager.pageSize v n)
    (cut : CutAt key (t.leafFor key).entries left mid right)
    (page : LeafPage o.start.pager.pageSize buf (t.leafFor key).start
      ((left ++ right).map Entry.cell)) (encodes : row.encode key = .ok encoded)
        (small : encoded.length ≤ u32Max) (room : t.Room o.start.pager.pageSize key encoded)
    (splits : nested = true ∨ t.Unsplit o.start.pager.pageSize key encoded) :
    Finishes env o v n (do
      let cell ← buildRowCell env key row
      let result ← Btree.leafInsertOrSplit env buf left.length cell
      let result ← propagate env (t.spine key).reverse (t.leafFor key).id result
      let newRoot ← finalizeRoot env result
      BufferPool.commit env newRoot
      return newRoot) (t.Puts nested o.start.pager.pageSize key row encoded n) E := by
  obtain ⟨sameLeaf, sameRank⟩ := cut.without
  simp only [Tree.Room, Tree.Unsplit, sameLeaf, sameRank] at room splits
  refine Finishes.bind (newEntry_runs fresh encodes small
    (Nat.lt_of_lt_of_le (by decide) wellFormed.two)) ?_
  rintro bytes v' n' grown ⟨rfl, rfl, entry⟩
  refine (putEntry_finishes fresh wellFormed wellFormed.two grown entry cut.split cut.below cut.above
    page room splits).imp ?_
  rintro root root' v'' n'' ⟨rfl, h', t', made, same, wellFormed', entries, shape⟩
  refine ⟨rfl, h', t', ?_, same, wellFormed', ?_, fun unsplit => shape ?_⟩
  · rw [Tree.putRow, sameLeaf, sameRank]
    exact made
  swap
  · rw [Tree.Unsplit, sameLeaf] at unsplit
    exact unsplit
  rw [rows_bound wellFormed.ordered cut entry.hasKey entries, entry.hasRow]

theorem Tree.WellFormed.insert_finishes {row : Row} {encoded : Bytes}
    (fresh : ∀ id, o.start.nextPageId ≤ id → o.writable id)
    (wellFormed : t.WellFormed nested o.start.pager.pageSize v n)
    (root : o.start.pager.rootPageId = t.id) (deep : h < fuel ∨ E .running)
    (absent : ∀ row, (key, row) ∉ t.rows) (encodes : row.encode key = .ok encoded)
    (small : encoded.length ≤ u32Max) (room : t.Room o.start.pager.pageSize key encoded)
    (splits : nested = true ∨ t.Unsplit o.start.pager.pageSize key encoded) :
    Finishes env o v n (Btree.insert env fuel key row)
      (t.Puts nested o.start.pager.pageSize key row encoded n) E := by
  rw [Btree.insert_locate]
  refine Finishes.rootPageId ?_
  rw [if_neg (wellFormed.root_ne root), root]
  refine Finishes.bind_reads (wellFormed.locate deep) ?_
  rintro ⟨path, leafId, leafBuf, result⟩ ⟨samePath, rfl, page, cut⟩
  obtain ⟨left, right, cutAt, rfl⟩ := wellFormed.ordered.cut_absent absent cut
  have page' : LeafPage o.start.pager.pageSize leafBuf (t.leafFor key).start
    ((left ++ right).map Entry.cell) := by
    have cells := cutAt.cells
    rw [List.append_nil] at cells
    rw [← cells]
    exact page
  show Finishes env o v n (buildRowCell env key row >>= fun cell => _) _ E
  rw [samePath]
  exact wellFormed.putRow_finishes fresh cutAt page' encodes small room splits

theorem Tree.WellFormed.update_finishes {row : Row} {encoded : Bytes}
    (fresh : ∀ id, o.start.nextPageId ≤ id → o.writable id)
    (wellFormed : t.WellFormed nested o.start.pager.pageSize v n)
    (root : o.start.pager.rootPageId = t.id) (deep : h < fuel ∨ E .running)
    (present : ∃ old, (key, old) ∈ t.rows) (encodes : row.encode key = .ok encoded)
    (small : encoded.length ≤ u32Max) (room : t.Room o.start.pager.pageSize key encoded)
    (splits : nested = true ∨ t.Unsplit o.start.pager.pageSize key encoded) :
    Finishes env o v n (Btree.update env fuel key row)
      (t.Puts nested o.start.pager.pageSize key row encoded n) E := by
  rw [Btree.update_locate]
  refine Finishes.rootPageId ?_
  rw [if_neg (wellFormed.root_ne root), root]
  refine Finishes.bind_reads (wellFormed.locate deep) ?_
  rintro ⟨path, leafId, leafBuf, result⟩ ⟨samePath, rfl, page, cut⟩
  obtain ⟨oldRow, listed⟩ := present
  obtain ⟨left, old, right, cutAt, -, rfl⟩ := wellFormed.ordered.cut_present listed cut
  obtain ⟨-, buf', offset, removed, page'⟩ := cutAt.removeCellAt page
  show Finishes env o v n (Btree.updateFound env key row path (t.leafFor key).id leafBuf
    (.found left.length)) _ E
  simp only [Btree.updateFound, removed, liftM_ok, pure_bind]
  rw [samePath]
  exact wellFormed.putRow_finishes fresh cutAt page' encodes small room splits

/-! What is refused. -/

theorem Tree.WellFormed.insert_present {old row : Row}
    (wellFormed : t.WellFormed nested o.start.pager.pageSize v n)
    (root : o.start.pager.rootPageId = t.id) (deep : h < fuel) (present : (key, old) ∈ t.rows) :
    Reads env o v n (Btree.insert env fuel key row) (fun _ => False)
      (· = .permanent (.keyAlreadyExists key)) := by
  rw [Btree.insert_locate]
  refine Reads.rootPageId ?_
  rw [if_neg (wellFormed.root_ne root), root]
  refine Reads.bind (wellFormed.locate (Or.inl deep)) ?_
  rintro ⟨path, leafId, leafBuf, result⟩ ⟨-, -, -, cut⟩
  obtain ⟨left, old, right, -, -, rfl⟩ := wellFormed.ordered.cut_present present cut
  exact Reads.throw rfl

theorem Tree.WellFormed.update_absent {row : Row}
    (wellFormed : t.WellFormed nested o.start.pager.pageSize v n)
    (root : o.start.pager.rootPageId = t.id) (deep : h < fuel) (absent : ∀ row, (key, row) ∉ t.rows) :
    Reads env o v n (Btree.update env fuel key row) (fun _ => False)
      (· = .permanent (.keyNotFound key)) := by
  rw [Btree.update_locate]
  refine Reads.rootPageId ?_
  rw [if_neg (wellFormed.root_ne root), root]
  refine Reads.bind (wellFormed.locate (Or.inl deep)) ?_
  rintro ⟨path, leafId, leafBuf, result⟩ ⟨-, -, -, cut⟩
  obtain ⟨left, right, -, rfl⟩ := wellFormed.ordered.cut_absent absent cut
  exact Reads.throw rfl

theorem Tree.WellFormed.delete_absent (wellFormed : t.WellFormed nested o.start.pager.pageSize v n)
    (root : o.start.pager.rootPageId = t.id) (deep : h < fuel) (absent : ∀ row, (key, row) ∉ t.rows) :
    Reads env o v n (Btree.delete env fuel key) (fun _ => False) (· = .permanent (.keyNotFound key)) := by
  rw [Btree.delete_locate]
  refine Reads.rootPageId ?_
  rw [if_neg (wellFormed.root_ne root), root]
  refine Reads.pageSize (Reads.bind (wellFormed.locate (Or.inl deep)) ?_)
  rintro ⟨path, leafId, leafBuf, result⟩ ⟨-, -, -, cut⟩
  obtain ⟨left, right, -, rfl⟩ := wellFormed.ordered.cut_absent absent cut
  exact Reads.throw rfl

end operations

/-! ## Without I/O failures -/

section faultless

variable {env : Env} {nested : Bool} {s s' : BufferPool} {h : Nat} {t : Tree h} {key : I64} {fuel : Nat}

/-- The tree `t` is committed: no page is dirty, the slot that was spare holds the new state, and
the other one what it held. -/
structure Arrived (env : Env) (nested : Bool) (s s' : BufferPool) {h : Nat} (t : Tree h) : Prop where
  stands : Stands env nested s' t
  pager : s'.pager = s.pager.committed t.id s'.nextPageId
  clock : s.disk.clock ≤ s'.disk.clock
  dirty : s'.dirty = ∅
  slot : s'.disk.file.slot s'.pager.activeSlot = metaSlot env s'.pager.content
  kept : s'.disk.file.slot s.pager.activeSlot = s.disk.file.slot s.pager.activeSlot

/-- The call committed a tree `t'` with `Q`; or the transaction id overflowed, and it panicked. -/
def Committing {α : Type} (env : Env) (nested : Bool) (s : BufferPool) {h : Nat} (t : Tree h)
    (run : EStateM.Result Stop BufferPool α) (Q : α → (h' : Nat) → Tree h' → Prop) : Prop :=
  (s.pager.TxnOverflow env ∧ ∃ s', run = .error .panic s' ∧ s'.pager = s.pager ∧ Stands env nested s' t) ∨
  ∃ a s' h', ∃ t' : Tree h', run = .ok a s' ∧ Q a h' t' ∧ Arrived env nested s s' t'

theorem Committing.imp {α : Type} {run : EStateM.Result Stop BufferPool α}
    {Q Q' : α → (h' : Nat) → Tree h' → Prop} (committing : Committing env nested s t run Q)
    (post : ∀ a h' (t' : Tree h'), Q a h' t' → Q' a h' t') :
    Committing env nested s t run Q' := by
  rcases committing with overflow | ⟨a, s', h', t', run, holds, arrived⟩
  · exact Or.inl overflow
  · exact Or.inr ⟨a, s', h', t', run, post a h' t' holds, arrived⟩

theorem Stands.grown {v : Pages} {n : Nat} (stands : Stands env nested s t)
    (grown : Grown (s.known env) s.nextPageId v n) (during : During env (anyPage s) v n s') :
    Stands env nested s' t := by
  have pager : s'.pager = s.pager := during.pager
  refine ⟨⟨during.sound, during.dirty, by rw [pager]; exact stands.root, ?_, stands.ordered,
    stands.low⟩, by rw [pager]; exact stands.sized, stands.distinct, fun id member => ?_⟩
  · rw [pager]
    exact stands.known.mono fun id member content known =>
      (during.agree id content ((grown.same id (stands.below id member)).trans known)).2
  · rw [during.next]
    exact Nat.lt_of_lt_of_le (stands.below id member) grown.le

theorem Stands.fresh (stands : Stands env nested s t) (id : Nat)
    (high : (anyPage s).start.nextPageId ≤ id) : (anyPage s).writable id :=
  Nat.le_trans stands.wellFormed.two high

theorem Stands.finish {α : Type} {x : PoolM α} {Q : α → (h' : Nat) → Tree h' → Prop}
    (stands : Stands env nested s t)
    (finishes : Finishes env (anyPage s) (s.known env) s.nextPageId x (fun a root v n =>
      ∃ (h' : Nat) (t' : Tree h'), t'.id = root ∧ t'.WellFormed nested s.pager.pageSize v n ∧
        Q a h' t') fun _ => False)
    (works : ∀ k, s.disk.clock ≤ k → env.fault k = none) (within : ¬ Exhausted (Hoare.final (x s))) :
    Committing env nested s t (x s) Q := by
  have ends := finishes.works stands.unchanged within works
  cases run : x s with
  | ok a s' =>
    rw [run] at ends
    obtain ⟨-, v, n, root, -, ⟨h', t', same, wellFormed, holds⟩, committed⟩ := ends
    obtain ⟨slot, kept⟩ := committed.slots
    refine Or.inr ⟨a, s', h', t', rfl, holds, wellFormed.stands committed same, ?_, committed.clock,
      committed.dirty, slot, kept⟩
    rw [committed.next, same]
    exact committed.pager
  | error e s' =>
    rw [run] at ends
    obtain ⟨⟨rfl, overflow⟩ | none, v, n, grown, during⟩ := ends
    · exact Or.inl ⟨overflow, s', rfl, during.pager, stands.grown grown during⟩
    · exact none.elim

theorem Stands.bind {x : PoolM Nat} {row : Row} {encoded : Bytes} (stands : Stands env nested s t)
    (finishes : Finishes env (anyPage s) (s.known env) s.nextPageId x
      (t.Binds nested s.pager.pageSize key row encoded) fun _ => False)
    (works : ∀ k, s.disk.clock ≤ k → env.fault k = none) (within : ¬ Exhausted (Hoare.final (x s))) :
    Committing env nested s t (x s) fun root h' t' => root = t'.id ∧ t'.rows = bindRow key row t.rows ∧
      (t.Unsplit s.pager.pageSize key encoded → h' = h ∧ t'.separators = t.separators) := by
  refine stands.finish (finishes.imp ?_) works within
  rintro result root v n ⟨rfl, h', t', rfl, wellFormed, rows, shape⟩
  exact ⟨h', t', rfl, wellFormed, rfl, rows, shape⟩

theorem Stands.insert (stands : Stands env nested s t)
    (works : ∀ k, s.disk.clock ≤ k → env.fault k = none) (deep : h < fuel) {row : Row}
    {encoded : Bytes} (absent : ∀ row, (key, row) ∉ t.rows) (encodes : row.encode key = .ok encoded)
    (small : encoded.length ≤ u32Max) (room : t.Room s.pager.pageSize key encoded)
    (splits : nested = true ∨ t.Unsplit s.pager.pageSize key encoded)
    (within : ¬ Exhausted (Hoare.final (Btree.insert env fuel key row s))) :
    Committing env nested s t (Btree.insert env fuel key row s) fun root h' t' => root = t'.id ∧
      t'.rows = bindRow key row t.rows ∧
      (t.Unsplit s.pager.pageSize key encoded → h' = h ∧ t'.separators = t.separators) :=
  stands.bind (Finishes.imp (Tree.WellFormed.insert_finishes
    (o := anyPage s) stands.fresh stands.wellFormed stands.root (Or.inl deep)
    absent encodes small room splits) fun _ _ _ _ puts => puts.binds) works within

/-! How many page ids are enough. -/

theorem overflowChunks_of_encode {row : Row} {encoded encoded' : Bytes}
    (encodes : row.encode key = .ok encoded) (same : row.encode key = .ok encoded') :
    (overflowChunks ps encoded').length ≤ (overflowChunks ps encoded).length := by
  obtain rfl := Except.ok.inj (encodes.symm.trans same)
  exact Nat.le_refl _

theorem Tree.length_spine (t : Tree h) (key : I64) : (t.spine key).length = h := by
  induction h with
  | zero => rfl
  | succ h ih => rw [spine, List.length_cons, ih]

instance {rel : BufferPool → BufferPool → Prop} [PoolRel rel] (root : Nat) :
    Moving rel (Btree.locate env fuel root key) := by
  unfold Btree.locate
  infer_instance

theorem Stands.locate_spends {β : Type} {f : List Nat × Nat × Bytes × SearchResult → PoolM β}
    {c : Nat} (stands : Stands env nested s t) (works : ∀ k, s.disk.clock ≤ k → env.fault k = none)
    (deep : h < fuel) (fresh : ¬ Exhausted s) (takes : ∀ found, found.1.dropLast.length = h →
      Takes s.pager.pageSize c (f found)) (room : s.nextPageId + c ≤ u32Max) :
    Spends c s ((Btree.locate env fuel s.pager.rootPageId key >>= f) s) := by
  have located : Reads env (anyPage s) (s.known env) s.nextPageId (Btree.locate env fuel t.id key)
    (Located s.pager.pageSize t key)
    fun _ => False := Tree.WellFormed.locate (o := anyPage s) stands.wellFormed (Or.inl deep)
  rw [← stands.root] at located
  obtain ⟨found, s₁, run, here, after⟩ := stands.reads works located
  have quiet := (inferInstance : Quiet (Btree.locate env fuel s.pager.rootPageId key)).moves s
  rw [run, Hoare.final_ok] at quiet
  have still := quiet.exhausted.not.mpr fresh
  have length : found.1.dropLast.length = h := by
    rw [← List.length_reverse, here.path, List.length_reverse, t.length_spine]
  have next : s₁.nextPageId = s.nextPageId := after.next
  have ends := (takes found length).spends quiet.2.1 (by rw [next]; exact room) still
  rw [Spends, next] at ends
  rw [Hoare.bind_ok run]
  exact ends

theorem Stands.insert_spends {row : Row} {encoded : Bytes} (stands : Stands env nested s t)
    (works : ∀ k, s.disk.clock ≤ k → env.fault k = none) (deep : h < fuel) (fresh : ¬ Exhausted s)
    (encodes : row.encode key = .ok encoded)
    (room : s.nextPageId +
      ((overflowChunks s.pager.pageSize encoded).length + (2 + (2 * h + 1))) ≤ u32Max) :
    Spends ((overflowChunks s.pager.pageSize encoded).length + (2 + (2 * h + 1))) s
      (Btree.insert env fuel key row s) := by
  have root : BufferPool.rootPageId s = .ok s.pager.rootPageId s := rfl
  rw [Btree.insert_locate, Hoare.bind_ok root, if_neg stands.root_ne]
  refine stands.locate_spends works deep fresh (fun found length => ?_) room
  rw [← length]
  exact insertFound_takes (fun _ => overflowChunks_of_encode encodes) _ _ _ _

theorem Stands.update_spends {row : Row} {encoded : Bytes} (stands : Stands env nested s t)
    (works : ∀ k, s.disk.clock ≤ k → env.fault k = none) (deep : h < fuel) (fresh : ¬ Exhausted s)
    (encodes : row.encode key = .ok encoded)
    (room : s.nextPageId +
      ((overflowChunks s.pager.pageSize encoded).length + (2 + (2 * h + 1))) ≤ u32Max) :
    Spends ((overflowChunks s.pager.pageSize encoded).length + (2 + (2 * h + 1))) s
      (Btree.update env fuel key row s) := by
  have root : BufferPool.rootPageId s = .ok s.pager.rootPageId s := rfl
  rw [Btree.update_locate, Hoare.bind_ok root, if_neg stands.root_ne]
  refine stands.locate_spends works deep fresh (fun found length => ?_) room
  rw [← length]
  exact updateFound_takes (fun _ => overflowChunks_of_encode encodes) _ _ _ _

theorem Stands.delete_spends (stands : Stands env nested s t)
    (works : ∀ k, s.disk.clock ≤ k → env.fault k = none) (deep : h < fuel) (fresh : ¬ Exhausted s)
    (room : s.nextPageId + (2 * h + 2) ≤ u32Max) :
    Spends (2 * h + 2) s (Btree.delete env fuel key s) := by
  have root : BufferPool.rootPageId s = .ok s.pager.rootPageId s := rfl
  have size : BufferPool.pageSize s = .ok s.pager.pageSize s := rfl
  rw [Btree.delete_locate, Hoare.bind_ok root, if_neg stands.root_ne, Hoare.bind_ok size]
  refine stands.locate_spends works deep fresh (fun found length => ?_) room
  rw [← length]
  exact deleteFound_takes _ _ _ _ _

theorem Stands.delete_within (stands : Stands env nested s t)
    (works : ∀ k, s.disk.clock ≤ k → env.fault k = none) (deep : h < fuel) (fresh : ¬ Exhausted s)
    (room : s.nextPageId + (2 * h + 2) ≤ u32Max) :
    ¬ Exhausted (Hoare.final (Btree.delete env fuel key s)) :=
  (stands.delete_spends works deep fresh room).within

/-- A call that only reads and is refused. -/
theorem Stands.refused {α : Type} {x : PoolM α} {e : Stop} (stands : Stands env nested s t)
    (works : ∀ k, s.disk.clock ≤ k → env.fault k = none)
    (read : Reads env (anyPage s) (s.known env) s.nextPageId x (fun _ => False) (· = e)) :
    ∃ s', x s = .error e s' ∧ s.Unchanged env s' := by
  have ends := read.works stands.unchanged works
  cases run : x s with
  | ok a s' =>
    rw [run] at ends
    exact ends.1.elim
  | error e' s' =>
    rw [run] at ends
    obtain ⟨rfl, after⟩ := ends
    exact ⟨s', rfl, after⟩

end faultless

end Pinax
