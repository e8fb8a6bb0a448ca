import Pinax.Verified.Faultless

/-! # Long rows

A leaf of the default size has room for one row of 2109 bytes, but not for two.  Putting the row
again splits the leaf into an empty one and one of the row; putting another row behind it splits the
leaf between the two.
-/

namespace Pinax

open SearchNode (Node Hole Part)

variable {env : Env} {h : Nat} {t : Tree h} {key : I64} {ps : PageSize} {row : Row} {encoded : Bytes}
  {log : List Call}

/-! ## A leaf of one row -/

/-- The leaves that the key's leaf is split into for its row. -/
def Tree.halves (ps : PageSize) (key : I64) (row : Row) (t : Tree h) (n : Nat) : Option (Leaf × Leaf) :=
  match row.encode key with
  | .error _ => none
  | .ok encoded =>
    match (t.putPart ps key row encoded n).1 with
    | .one _ => none
    | .two a _ b => some (a, b)

@[simp] theorem firstHalf_single (e : Entry) : firstHalf [e] = [] := by simp [firstHalf]
@[simp] theorem secondHalf_single (e : Entry) : secondHalf [e] = [e] := by simp [secondHalf]

/-- The leaf of a single row is split into an empty leaf and one of that row. -/
theorem Tree.putPart_single {old : Entry} (only : (t.leafFor key).entries = [old])
    (same : old.cell.key = key) (full : ¬ t.Unsplit ps key encoded) (row : Row) (n : Nat) :
    ∃ id, t.putPart ps key row encoded n
      = (.two (Leaf.fresh ps id []) key (Leaf.fresh ps (id + 1) [rowEntry ps key row encoded n]),
        id + 2) := by
  let e := rowEntry ps key row encoded n
  have none : ((t.leafFor key).without key).entries = [] := by
    rw [Leaf.without, only]
    simp [same]
  have rank : (t.leafFor key).rank key = 0 := by
    rw [Leaf.rank, only]
    simp [Entry.key, same]
  have full : ¬ ((t.leafFor key).without key).Roomy e.cell := full
  rw [Tree.putPart, Leaf.insertPart, if_neg full, none, rank, List.insertIdx_zero]
  simp only [firstHalf_single, secondHalf_single]
  exact ⟨n + e.ids.length, rfl⟩

/-- A root whose last leaf is that of the key, which is its only separator. -/
def singleRow (n : Nat) (key : I64) (left right : Leaf) : Tree 1 := Tree.inner n ⟨[(key, left)], right⟩

theorem singleRow_route (n : Nat) (key : I64) (left right : Leaf) :
    (singleRow n key left right).hole key = .atEnd [(key, left)] ∧
      (singleRow n key left right).child key = right := by
  have routed : SearchNode.routeFrom I64.val key.val [] [(key, left)] right =
    (.atEnd [(key, left)], right) := by
    rw [SearchNode.routeFrom, if_neg (lt_irrefl key.val)]
    rfl
  exact ⟨congrArg Prod.fst routed, congrArg Prod.snd routed⟩

theorem singleRow_leafFor (n : Nat) (key : I64) (left right : Leaf) :
    (singleRow n key left right).leafFor key = right := by
  rw [Tree.leafFor, (singleRow_route n key left right).2]
  rfl

/-- The first update of a single row puts its key between two leaves, of which the left one is empty. -/
theorem putRow_leaf {leaf : Leaf} {old : Entry} (only : leaf.entries = [old]) (same : old.cell.key = key)
    (full : ¬ Tree.Unsplit (h := 0) ps leaf key encoded) (row : Row) (n : Nat) :
    ∃ id, (Tree.putRow (h := 0) ps key row encoded leaf n).1
      = ⟨1, singleRow (id + 2) key (Leaf.fresh ps id [])
        (Leaf.fresh ps (id + 1) [rowEntry ps key row encoded n])⟩ := by
  obtain ⟨id, part⟩ := Tree.putPart_single (h := 0) only same full row n
  refine ⟨id, ?_⟩
  show (Tree.replaceLeaf (h := 0) ps key leaf (Tree.putPart (h := 0) ps key row encoded leaf n)).1 = _
  rw [part]
  rfl

/-- The second one puts it there again. -/
theorem putRow_singleRow {m : Nat} {left right : Leaf} {old : Entry} (only : right.entries = [old])
    (same : old.cell.key = key) (full : ¬ (singleRow m key left right).Unsplit ps key encoded)
    (row : Row) (n : Nat) :
    ∃ id, ((singleRow m key left right).putRow ps key row encoded n).1
      = ⟨1, Tree.inner (id + 2) ⟨[(key, left), (key, Leaf.fresh ps id [])],
          Leaf.fresh ps (id + 1) [rowEntry ps key row encoded n]⟩⟩ := by
  obtain ⟨hole, child⟩ := singleRow_route m key left right
  obtain ⟨id, part⟩ := Tree.putPart_single (by rw [singleRow_leafFor]; exact only) same full row n
  have few := maxInteriorEntries_bound ps
  refine ⟨id, ?_⟩
  show ((singleRow m key left right).replaceLeaf ps key
    ((singleRow m key left right).putPart ps key row encoded n)).1 = _
  rw [part, Tree.replaceLeaf, Tree.graft, hole, Tree.graft, Node.cut_of_le (show _ ≤ _ from few)]
  rfl

/-- A second row with a larger key splits the leaf of a single row between the two. -/
theorem putPart_beside {leaf : Leaf} {old : Entry} (only : leaf.entries = [old])
    (below : old.cell.key.val < key.val) (full : ¬ Tree.Unsplit (h := 0) ps leaf key encoded)
    (row : Row) (n : Nat) :
    ∃ id, Tree.putPart (h := 0) ps key row encoded leaf n
      = (.two (Leaf.fresh ps id [old]) key (Leaf.fresh ps (id + 1) [rowEntry ps key row encoded n]),
        id + 2) := by
  let e := rowEntry ps key row encoded n
  have other : old.cell.key ≠ key := fun same => by
    rw [same] at below
    exact lt_irrefl _ below
  have without : (leaf.without key).entries = [old] := by
    rw [Leaf.without, only]
    simp [other]
  have rank : leaf.rank key = 1 := by
    rw [Leaf.rank, only]
    simp [Entry.key, below]
  have halves : firstHalf [old, e] = [old] ∧ secondHalf [old, e] = [e] := by simp [firstHalf, secondHalf]
  have full : ¬ (leaf.without key).Roomy e.cell := full
  refine ⟨n + e.ids.length, ?_⟩
  show (leaf.without key).insertPart ps (leaf.rank key) e (n + e.ids.length) = _
  rw [Leaf.insertPart, if_neg full, without, rank, show [old].insertIdx 1 e = [old, e] from rfl]
  simp only [halves]
  rfl

theorem putRow_beside {leaf : Leaf} {old : Entry} (only : leaf.entries = [old])
    (below : old.cell.key.val < key.val) (full : ¬ Tree.Unsplit (h := 0) ps leaf key encoded)
    (row : Row) (n : Nat) :
    ∃ id, (Tree.putRow (h := 0) ps key row encoded leaf n).1
        = ⟨1, singleRow (id + 2) key (Leaf.fresh ps id [old])
          (Leaf.fresh ps (id + 1) [rowEntry ps key row encoded n])⟩ ∧
      (row.encode key = .ok encoded → Tree.halves (h := 0) ps key row leaf n
        = some (Leaf.fresh ps id [old], Leaf.fresh ps (id + 1) [rowEntry ps key row encoded n])) := by
  obtain ⟨id, part⟩ := putPart_beside only below full row n
  refine ⟨id, ?_, fun encodes => ?_⟩
  · show (Tree.replaceLeaf (h := 0) ps key leaf (Tree.putPart (h := 0) ps key row encoded leaf n)).1 = _
    rw [part]
    rfl
  · simp only [Tree.halves, encodes, part]

/-- The leaf of one row of 2109 bytes has no room for another one with a larger key, but is split
into halves that fit. -/
theorem Tree.full_beside {id k : Nat} {other : I64} {row' : Row} {encoded' : Bytes}
    (below : other.val < key.val) (long : 2109 ≤ encoded.length) (len' : encoded'.length = 2109) :
    let leaf := Leaf.fresh PageSize.default id [rowEntry PageSize.default other row' encoded' k]
    ¬ Tree.Unsplit (h := 0) PageSize.default leaf key encoded ∧
      Tree.Room (h := 0) PageSize.default leaf key encoded ∧
      (leaf.without key).entries ≠ [] := by
  intro leaf
  let old := rowEntry PageSize.default other row' encoded' k
  -- the old cell: a header of 16 bytes and the whole encoding
  have size : old.cell.size = 2125 := by
    show 16 + (encoded'.take PageSize.default.maxLocal).length = 2125
    rw [List.length_take, len']
    decide
  -- the new cell keeps at most `maxLocal` bytes of its encoding in the page
  have cell : 2125 ≤ (payloadCell PageSize.default key encoded 0).size ∧
    (payloadCell PageSize.default key encoded 0).size ≤ 4069 := by
    have most : PageSize.default.maxLocal = 4053 := by decide
    rw [LeafCell.size, payloadCell, List.length_take, most]
    omega
  have start : leaf.start = 1963 := by
    have total : cellsLen ([old].map Entry.cell) = old.cell.size := Nat.add_zero _
    show PageSize.default.contentEnd - cellsLen ([old].map Entry.cell) = 1963
    rw [total, size]
    decide
  have different : other ≠ key := fun same => by
    rw [same] at below
    exact lt_irrefl _ below
  have without : (leaf.without key).entries = [old] := by
    simp [Leaf.without, leaf, Leaf.fresh, old, rowEntry, payloadCell, different]
  have rank : leaf.rank key = 1 := by
    simp [Leaf.rank, leaf, Leaf.fresh, rowEntry, payloadCell, Entry.key, below]
  refine ⟨?_, Or.inr ?_, ?_⟩
  -- no room on the leaf itself: 5 + 4 + 2125 bytes do not end below 1963
  · show ¬ 5 + 2 * ((leaf.without key).entries.length + 1) +
      (payloadCell PageSize.default key encoded 0).size ≤ leaf.start
    rw [without, start, List.length_singleton]
    omega
  -- each half is one of the two cells, and either fits a page alone
  · have halves (e : Entry) : firstHalf [old, e] = [old] ∧ secondHalf [old, e] = [e] := by
      simp [firstHalf, secondHalf]
    show HalvesFit PageSize.default ((leaf.without key).entries.insertIdx (leaf.rank key) _)
    rw [without, rank, show [old].insertIdx 1 _ = [old, _] from rfl, HalvesFit,
      (halves _).1, (halves _).2]
    constructor
    · show 5 + 2 * 1 + (old.cell.size + 0) ≤ 4088
      rw [size]
      decide
    · show 5 + 2 * 1 + ((payloadCell PageSize.default key encoded 0).size + 0) ≤ 4088
      omega
  · rw [without]
    exact List.cons_ne_nil _ _

/-- The leaf of one row of 2109 bytes has no room for another such row, but is split into halves
that fit. -/
theorem Tree.full_of_long {id k : Nat}
    (found : t.leafFor key = Leaf.fresh PageSize.default id
      [rowEntry PageSize.default key row encoded k]) (len : encoded.length = 2109) : ¬ t.Unsplit
        PageSize.default key encoded ∧ t.Room PageSize.default key encoded := by
  have cell : ∀ first, (payloadCell PageSize.default key encoded first).size = 2125 := by
    intro first
    rw [LeafCell.size, payloadCell, List.length_take, len]
    rfl
  have total : ∀ e : Entry, cellsLen ([e].map Entry.cell) = e.cell.size := fun e => Nat.add_zero _
  have amount : PageSize.default.contentEnd = 4088 := by decide
  have without : (t.leafFor key).without key = ⟨id, 1963, []⟩ := by
    rw [found, Leaf.without, Leaf.fresh, total]
    simp only [rowEntry, cell, amount]
    simp [payloadCell]
  have rank : (t.leafFor key).rank key = 0 := by
    rw [found, Leaf.rank, Leaf.fresh]
    simp [Entry.key, rowEntry, payloadCell]
  constructor
  · rw [Tree.Unsplit, without, Leaf.Roomy, cell]
    show ¬ 5 + 2 * (0 + 1) + 2125 ≤ 1963
    decide
  · rw [Tree.Room, without, rank]
    refine Or.inr ?_
    rw [HalvesFit, List.insertIdx_zero, firstHalf_single, secondHalf_single, HalfFits, HalfFits, total]
    simp only [cell, amount]
    simp [cellsLen]

/-- Updating such a row splits its leaf, without an I/O failure. -/
theorem Ran.update_long {s : Database} {id k : Nat} (works : ∀ k, env.fault k = none)
    (ran : Ran env (fitting env) s log (some ⟨h, t⟩))
    (found : t.leafFor key = Leaf.fresh PageSize.default id
      [rowEntry PageSize.default key row encoded k]) (deep : h < u32Max)
    (encodes : row.encode key = .ok encoded) (len : encoded.length = 2109)
    (room : s.nextPageId + (2 + (2 * h + 1)) ≤ u32Max) :
    ∃ s', Ran env (fitting env) s' (log ++ [.update key row])
      (some (t.putRow PageSize.default key row encoded s.nextPageId).1) ∧
      s'.nextPageId ≤ s.nextPageId + (2 + (2 * h + 1)) := by
  have contains := ran.contains
  obtain ⟨cur, past, floor, -, settled, holds⟩ := ran.history
  have wellFormed := contains.wellFormed ⟨h, t⟩ rfl
  have inLeaf : rowEntry PageSize.default key row encoded k ∈ (t.leafFor key).entries := by
    rw [found]
    exact List.mem_cons_self
  have listed := Tree.mem_of_mem_leaf inLeaf
  have present : (Content.rows (some ⟨h, t⟩)).lookup key = some row :=
    wellFormed.ordered.lookup.mpr (List.mem_map.mpr ⟨_, listed, rfl⟩)
  -- the key is bound, and the row has an encoding
  have answer : Content.answer (some ⟨h, t⟩) (.update key row) = .ok .done := by
    rw [Content.answer, present, encodes]
    rfl
  have sized : (Call.update key row).Sized := by
    intro encoded' same
    obtain rfl := Except.ok.inj (encodes.symm.trans same)
    rw [len]
    decide
  have fits : s.SplitsFit env (.update key row) := by
    intro c here
    rw [here.unique contains, ran.size]
    intro t' member _ encoded' same
    obtain rfl := Option.some.inj member
    obtain rfl := Except.ok.inj (encodes.symm.trans same)
    exact (Tree.full_of_long found len).2
  have allowed : fitting env (.update key row) u32Max s := ⟨Nat.le_refl _, sized, fits⟩
  -- 2109 bytes stay in the leaf, so the update takes no page for a chain
  have none : (overflowChunks s.pager.pageSize encoded).length + (2 + (2 * h + 1)) = 2 + (2 * h + 1) := by
    rw [ran.size, overflowChunks_nil (by rw [len]; decide)]
    exact Nat.zero_add _
  have spends :=
    update_spends (fun k _ => works k) settled contains deep ran.fresh encodes (by rw [none]; exact room)
  rw [none] at spends
  obtain ⟨s', -, ran', next⟩ := ran.calls works allowed allowed spends trivial answer
  rw [Content.after_update encodes] at ran'
  exact ⟨s', ran', next⟩

/-- Inserting a row of 2109 bytes into a new database. -/
theorem Ran.first_long (profile : Profile) (xxh3 : Bytes → UInt64) {guard : CallGuard} (key : I64)
    (encodes : row.encode key = .ok encoded) (len : encoded.length = 2109)
    (allowed : ∀ s, fitting (Env.faultless profile xxh3) (.insert key row) u32Max s →
      s.pager.rootPageId = emptyTreeRoot →
      guard (.insert key row) u32Max s) :
    ∃ s id, Ran (Env.faultless profile xxh3) guard s [.insert key row]
        (some ⟨0, Leaf.fresh PageSize.default id [rowEntry PageSize.default key row encoded 2]⟩) ∧
          s.nextPageId ≤ 3 := by
  obtain ⟨s, ran, next⟩ := Ran.created profile xxh3 guard
  have root : s.pager.rootPageId = emptyTreeRoot := ran.contains.root.symm
  have answer : Content.answer none (.insert key row) = .ok .done := by
    show (row.encode key).map (fun _ => Reply.done) = _
    rw [encodes]
    rfl
  have sized : (Call.insert key row).Sized := by
    intro encoded' same
    obtain rfl := Except.ok.inj (encodes.symm.trans same)
    rw [len]
    decide
  have fits : fitting (Env.faultless profile xxh3) (.insert key row) u32Max s :=
    ⟨Nat.le_refl _, sized, BufferPool.splitsFit_empty root _⟩
  have none : (overflowChunks s.pager.pageSize encoded).length + 1 = 1 := by
    rw [ran.size, overflowChunks_nil (by rw [len]; decide)]
    rfl
  have spends : Spends _ s ((Call.insert key row).run (Env.faultless profile xxh3) u32Max s) :=
    insert_first_takes root ran.fresh encodes (by rw [none, next]; decide)
  rw [none] at spends
  obtain ⟨s', -, ran', next'⟩ := ran.calls (fun _ => rfl) (allowed s fits root) fits spends trivial answer
  rw [Content.after_insert encodes, next] at ran'
  rw [next] at next'
  exact ⟨s', _, ran', next'⟩

section beside

variable {guard : CallGuard} {s : Database} {id k : Nat} {other : I64} {row' : Row} {encoded' : Bytes}

/-- Another row that is as long can be inserted behind it. -/
theorem Ran.second_fits
    (ran : Ran env guard s log
      (some ⟨0, Leaf.fresh PageSize.default id [rowEntry PageSize.default other row' encoded' k]⟩))
    (below : other.val < key.val) (encodes : row.encode key = .ok encoded)
    (long : 2109 ≤ encoded.length) (small : encoded.length ≤ u32Max) (len' : encoded'.length = 2109) :
    fitting env (.insert key row) u32Max s ∧
      Content.answer (some ⟨0, Leaf.fresh PageSize.default id
        [rowEntry PageSize.default other row' encoded' k]⟩) (.insert key row)
        = .ok .done := by
  let leaf := Leaf.fresh PageSize.default id [rowEntry PageSize.default other row' encoded' k]
  constructor
  · refine ⟨Nat.le_refl _, (Call.sized_of_encodes encodes small).1, fun c here => ?_⟩
    rw [here.unique ran.contains, ran.size]
    intro t member _ encoded' same
    obtain rfl := Option.some.inj member
    obtain rfl := Except.ok.inj (encodes.symm.trans same)
    exact (Tree.full_beside below long len').2.1
  · have different : key ≠ other := fun same => by
      rw [same] at below
      exact lt_irrefl _ below
    have rows : Content.rows (some ⟨0, leaf⟩) = [(other, row')] := rfl
    have absent : (Content.rows (some ⟨0, leaf⟩)).lookup key = none := by
      rw [rows, List.lookup_eq_none_iff]
      simpa using different
    rw [Content.answer, absent, encodes]
    rfl

/-- It splits the leaf. -/
theorem Ran.second_long (works : ∀ k, env.fault k = none)
    (ran : Ran env guard s log
      (some ⟨0, Leaf.fresh PageSize.default id [rowEntry PageSize.default other row' encoded' k]⟩))
    (below : other.val < key.val) (encodes : row.encode key = .ok encoded)
    (long : 2109 ≤ encoded.length) (small : encoded.length ≤ u32Max) (len' : encoded'.length = 2109)
    (room : s.nextPageId + ((overflowChunks PageSize.default encoded).length + 3) ≤ u32Max)
    (allowed : guard (.insert key row) u32Max s) :
    ∃ s' id', (Call.insert key row).run env u32Max s = .ok .done s' ∧
      Ran env guard s' (log ++ [.insert key row])
        (some ⟨1, singleRow (id' + 2) key
          (Leaf.fresh PageSize.default id' [rowEntry PageSize.default other row' encoded' k])
          (Leaf.fresh PageSize.default (id' + 1)
            [rowEntry PageSize.default key row encoded s.nextPageId])⟩) ∧
      Tree.halves (h := 0) PageSize.default key row
        (Leaf.fresh PageSize.default id [rowEntry PageSize.default other row' encoded' k])
        s.nextPageId = some (Leaf.fresh PageSize.default id'
          [rowEntry PageSize.default other row' encoded' k], Leaf.fresh PageSize.default (id' + 1)
            [rowEntry PageSize.default key row encoded s.nextPageId]) ∧
      s'.nextPageId ≤ s.nextPageId + ((overflowChunks PageSize.default encoded).length + 3) := by
  let leaf := Leaf.fresh PageSize.default id [rowEntry PageSize.default other row' encoded' k]
  obtain ⟨fits, answer⟩ := ran.second_fits below encodes long small len'
  obtain ⟨cur, past, floor, -, settled, holds⟩ := ran.history
  rw [← ran.size] at room
  have spends : Spends _ s ((Call.insert key row).run env u32Max s) :=
    insert_later_spends (fun k _ => works k) settled ran.contains (by decide) ran.fresh encodes room
  obtain ⟨s', run, ran', next⟩ := ran.calls works allowed fits spends trivial answer
  rw [ran.size] at next
  obtain ⟨id', tree, halves⟩ :=
    putRow_beside (rfl : leaf.entries = _) below (Tree.full_beside below long len').1 row s.nextPageId
  have put : (Content.put PageSize.default key row encoded (some ⟨0, leaf⟩) s.nextPageId).1
      = (Tree.putRow (h := 0) PageSize.default key row encoded leaf s.nextPageId).1 := rfl
  rw [Content.after_insert encodes, put, tree] at ran'
  exact ⟨s', id', run, ran', halves encodes, next⟩

end beside

end Pinax
