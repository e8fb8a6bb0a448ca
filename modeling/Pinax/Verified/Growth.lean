import Pinax.Verified.Envelope
import Pinax.Verified.PathCopy

/-! # How a tree grows under updates

`remove_cell_at` does not give back content space.  A leaf whose one row is updated fills up with
dead cells, and the split that follows leaves an empty leaf behind, which nothing ever takes away.
-/

namespace Pinax

open Hoare (final)

variable {env : Env} {h : Nat} {t : Tree h} {key : I64} {row : Row} {encoded : Bytes} {ps : PageSize}
  {nested : Bool} {fuel : Nat}

/-- How often a row with an encoding of `len` bytes is put into a fresh leaf until the leaf is split. -/
def PageSize.putsPerLeaf (ps : PageSize) (len : Nat) : Nat :=
  (ps.contentEnd - 7) / (16 + min len ps.maxLocal)

theorem payloadCell_size (ps : PageSize) (key : I64) (encoded : Bytes) (first : Nat) :
    (payloadCell ps key encoded first).size = 16 + min encoded.length ps.maxLocal := by
  rw [LeafCell.size, payloadCell, List.length_take, Nat.min_comm]

/-- The leaf of a single row has room for the row again until it was put there so often. -/
theorem PageSize.putsPerLeaf_spec (ps : PageSize) (len : Nat) {start puts : Nat}
    (filled : start + puts * (16 + min len ps.maxLocal) = ps.contentEnd) :
    5 + 2 * (0 + 1) + (16 + min len ps.maxLocal) ≤ start ↔ puts < ps.putsPerLeaf len := by
  rw [putsPerLeaf, ← Nat.succ_le_iff, Nat.le_div_iff_mul_le (by omega), Nat.succ_mul puts]
  have fixed : 16 ≤ 16 + min len ps.maxLocal := Nat.le_add_right _ _
  generalize 16 + min len ps.maxLocal = size at filled fixed ⊢
  generalize puts * size = used at filled ⊢
  omega

theorem PageSize.putsPerLeaf_pos (ps : PageSize) (len : Nat) : 0 < ps.putsPerLeaf len := by
  have room := (ps.cellWeight_bounds len).2
  simp only [PageSize.cellWeight, PageSize.leafRoom] at room
  refine (ps.putsPerLeaf_spec len (Nat.zero_mul _ ▸ Nat.add_zero _)).mp ?_
  omega

/-- The tree of a single row that was put `puts` times: all leaves are empty but the one of the row,
and they were filled one after the other. -/
structure Tree.Stacked (ps : PageSize) (key : I64) (row : Row) (encoded : Bytes) (puts : Nat)
    {h : Nat} (t : Tree h) : Prop where
  only : ∃ n, (t.leafFor key).entries = [rowEntry ps key row encoded n]
  others : ∀ leaf ∈ t.otherLeaves key, leaf.entries = []
  level : ∃ k, 1 ≤ k ∧ k ≤ ps.putsPerLeaf encoded.length ∧
    puts = (t.otherLeaves key).length * ps.putsPerLeaf encoded.length + k ∧
    (t.leafFor key).start + k * (16 + min encoded.length ps.maxLocal) = ps.contentEnd

/-- The leaf with the key's cell is the one the key is routed to. -/
theorem Tree.Ordered.leafFor_of_perm (ordered : t.Ordered nested minKey endKey) {leaf : Leaf}
    {rest : List Leaf} {e : Entry} (leaves : t.leaves.Perm (leaf :: rest)) (member : e ∈ leaf.entries)
    (same : e.cell.key = key) (others : ∀ l ∈ rest, l.entries = []) :
    t.leafFor key = leaf ∧ (t.otherLeaves key).Perm rest := by
  have listed : e ∈ t.entries := by
    rw [t.entries_leaves]
    exact List.mem_flatMap.mpr ⟨leaf, leaves.mem_iff.mpr List.mem_cons_self, member⟩
  have inside := ordered.mem_leaf key.between.1 key.between.2 listed same
  have parts := (t.leaves_perm key).symm.trans leaves
  have found : t.leafFor key = leaf := by
    cases List.mem_cons.mp (parts.subset List.mem_cons_self) with
    | inl first => exact first
    | inr other =>
      rw [others _ other] at inside
      exact absurd inside List.not_mem_nil
  rw [found] at parts
  exact ⟨found, parts.cons_inv⟩

namespace Tree.Stacked

variable {puts : Nat}

theorem single (stacked : t.Stacked ps key row encoded puts) :
    ((t.leafFor key).without key).entries = [] ∧ (t.leafFor key).rank key = 0 := by
  obtain ⟨n, only⟩ := stacked.only
  constructor
  · rw [Leaf.without, only]
    simp [rowEntry, payloadCell]
  · rw [Leaf.rank, only]
    simp [Entry.key, rowEntry, payloadCell]

theorem unsplit_iff (stacked : t.Stacked ps key row encoded puts) {k : Nat}
    (filled : (t.leafFor key).start + k * (16 + min encoded.length ps.maxLocal) = ps.contentEnd) :
    t.Unsplit ps key encoded ↔ k < ps.putsPerLeaf encoded.length := by
  rw [Unsplit, Leaf.Roomy, stacked.single.1, payloadCell_size]
  exact ps.putsPerLeaf_spec encoded.length filled

/-- The halves of the leaf, of which one is empty, fit their pages. -/
theorem room (stacked : t.Stacked ps key row encoded puts) (small : encoded.length ≤ u32Max) :
    t.Room ps key encoded := by
  obtain ⟨none, rank⟩ := stacked.single
  have fits :=
    first_fits (show (payloadCell ps key encoded 0).Fits ps.maxLocal from payloadCell_fits
      small (by decide))
  rw [Room, rank]
  refine Or.inr ?_
  rw [HalvesFit, none, List.insertIdx_zero, firstHalf_single, secondHalf_single]
  simp only [HalfFits, cellsLen, List.map_nil, List.sum_nil, List.length_nil, List.map_cons,
    List.sum_cons, List.length_cons]
  omega

/-- Another put fills the leaf further, or adds one. -/
theorem put (stacked : t.Stacked ps key row encoded puts) {n : Nat}
    (ordered : (t.putRow ps key row encoded n).1.2.Ordered nested minKey endKey) :
    (t.putRow ps key row encoded n).1.2.Stacked ps key row encoded (puts + 1) := by
  obtain ⟨m, only⟩ := stacked.only
  obtain ⟨none, rank⟩ := stacked.single
  obtain ⟨k, positive, most, total, filled⟩ := stacked.level
  have leaves : (t.putRow ps key row encoded n).1.2.leaves.Perm
    ((t.putPart ps key row encoded n).1.nodes ++ t.otherLeaves key) :=
    t.leaves_replaceLeaf ps key (t.putPart ps key row encoded n)
  have size : (rowEntry ps key row encoded n).cell.size = 16 + min encoded.length ps.maxLocal :=
    payloadCell_size ps key encoded _
  have same : (rowEntry ps key row encoded n).cell.key = key := rfl
  -- of the new tree only its order and its leaves matter
  generalize (t.putRow ps key row encoded n).1.2 = t' at ordered leaves ⊢
  by_cases unsplit : t.Unsplit ps key encoded
  · -- the leaf takes the cell
    have more := (stacked.unsplit_iff filled).mp unsplit
    have roomy : ((t.leafFor key).without key).Roomy (rowEntry ps key row encoded n).cell := unsplit
    rw [putPart, Leaf.insertPart, if_pos roomy, none, rank, List.insertIdx_zero] at leaves
    obtain ⟨found, others⟩ : t'.leafFor key = _ ∧ (t'.otherLeaves key).Perm (t.otherLeaves key) :=
      ordered.leafFor_of_perm leaves List.mem_cons_self same stacked.others
    refine ⟨⟨n, by rw [found]⟩, fun leaf member => stacked.others leaf (others.subset member), k + 1,
      Nat.le_add_left 1 k, more, ?_, ?_⟩
    · rw [others.length_eq]
      omega
    · have here : 5 + 2 * (0 + 1) + (16 + min encoded.length ps.maxLocal) ≤ (t.leafFor key).start :=
        (ps.putsPerLeaf_spec encoded.length filled).mpr more
      rw [found, size, Nat.succ_mul]
      show (t.leafFor key).start - _ + _ = _
      omega
  · -- its first half is empty
    have full : k = ps.putsPerLeaf encoded.length :=
      Nat.le_antisymm most (Nat.not_lt.mp fun more => unsplit ((stacked.unsplit_iff filled).mpr more))
    obtain ⟨id, part⟩ := t.putPart_single only rfl unsplit row n
    rw [part] at leaves
    have empty : ∀ leaf ∈ Leaf.fresh ps id [] :: t.otherLeaves key, leaf.entries = [] := by
      intro leaf member
      cases List.mem_cons.mp member with
      | inl first => rw [first, Leaf.fresh]
      | inr other => exact stacked.others leaf other
    obtain ⟨found, others⟩ :
      t'.leafFor key = _ ∧ (t'.otherLeaves key).Perm (Leaf.fresh ps id [] :: t.otherLeaves key) :=
      ordered.leafFor_of_perm (leaves.trans (List.Perm.swap _ _ _)) List.mem_cons_self same empty
    refine ⟨⟨n, by rw [found, Leaf.fresh]⟩, fun leaf member => empty leaf (others.subset member),
      1, Nat.le_refl 1, ps.putsPerLeaf_pos _, ?_, ?_⟩
    · rw [others.length_eq, List.length_cons, Nat.succ_mul]
      omega
    · have room := (ps.cellWeight_bounds encoded.length).2
      simp only [PageSize.cellWeight, PageSize.leafRoom] at room
      rw [found, Nat.one_mul]
      show ps.contentEnd - ((rowEntry ps key row encoded n).cell.size + 0) + _ = _
      omega

/-- A leaf to which the row was just added for the first time. -/
theorem fresh (ps : PageSize) (key : I64) (row : Row) (encoded : Bytes) (id n : Nat) :
    Tree.Stacked (h := 0) ps key row encoded 1 (Leaf.fresh ps id [rowEntry ps key row encoded n]) := by
  have room := (ps.cellWeight_bounds encoded.length).2
  simp only [PageSize.cellWeight, PageSize.leafRoom] at room
  have size : (rowEntry ps key row encoded n).cell.size = 16 + min encoded.length ps.maxLocal :=
    payloadCell_size ps key encoded _
  refine ⟨⟨n, rfl⟩, fun leaf none => absurd none List.not_mem_nil, 1, Nat.le_refl 1,
    ps.putsPerLeaf_pos _, ?_, ?_⟩
  · show 1 = 0 * _ + 1
    omega
  · rw [Nat.one_mul]
    show ps.contentEnd - ((rowEntry ps key row encoded n).cell.size + 0) + _ = _
    omega

theorem rows (stacked : t.Stacked ps key row encoded puts) : t.rows = [(key, row)] := by
  obtain ⟨n, only⟩ := stacked.only
  have entries : t.entries.Perm [rowEntry ps key row encoded n] := by
    rw [t.entries_leaves]
    refine ((t.leaves_perm key).flatMap_right _).trans ?_
    rw [List.flatMap_cons, only, List.flatMap_eq_nil_iff.mpr stacked.others]
    exact List.Perm.refl _
  rw [Tree.rows, List.perm_singleton.mp entries]
  rfl

/-- How many leaves the tree has. -/
theorem leaves {n : Nat} (stacked : t.Stacked ps key row encoded (n + 1)) :
    t.leaves.length = n / ps.putsPerLeaf encoded.length + 1 ∧
      t.emptied = n / ps.putsPerLeaf encoded.length := by
  obtain ⟨m, only⟩ := stacked.only
  obtain ⟨k, positive, most, total, -⟩ := stacked.level
  have quotient : n / ps.putsPerLeaf encoded.length = (t.otherLeaves key).length := by
    refine Nat.div_eq_of_lt_le ?_ ?_
    · omega
    · rw [Nat.succ_mul]
      omega
  have parts := t.leaves_perm key
  have empty : (t.otherLeaves key).countP (fun leaf => leaf.entries.isEmpty) =
    (t.otherLeaves key).length :=
    List.countP_eq_length.mpr fun leaf member => List.isEmpty_iff.mpr (stacked.others leaf member)
  rw [quotient, parts.length_eq, List.length_cons, emptied, parts.countP_eq,
    List.countP_cons, empty, only]
  simp

end Tree.Stacked

/-! ## The updates -/

/-- Updating the row once more. -/
theorem RanOn.update {s : Database} {log : List Call} {n : Nat} (works : ∀ k, env.fault k = none)
    (ran : RanOn env (fitting env) ps s log (some ⟨h, t⟩)) (stacked : t.Stacked ps key row encoded n)
    (encodes : row.encode key = .ok encoded) (small : encoded.length ≤ u32Max)
    (room : s.nextPageId + ((overflowChunks ps encoded).length + 67) ≤ u32Max) :
    ∃ t' : AnyTree, RanOn env (fitting env) ps (final ((Call.update key row).run env u32Max s))
      (log ++ [.update key row]) (some t') ∧
      t'.2.Stacked ps key row encoded (n + 1) ∧
      (final ((Call.update key row).run env u32Max s)).nextPageId ≤
        s.nextPageId + ((overflowChunks ps encoded).length + 67) := by
  have contains := ran.contains
  obtain ⟨cur, past, floor, -, settled, holds⟩ := ran.history
  have wellFormed := contains.wellFormed ⟨h, t⟩ rfl
  -- a tree is low: its height is the logarithm of an `u32`
  have height : h < 32 := by
    refine (Nat.pow_lt_pow_iff_right (by decide : 1 < 2)).mp (Nat.lt_trans wellFormed.two_pow_lt ?_)
    simp only [u32Max] at room
    omega
  have present : (Content.rows (some ⟨h, t⟩)).lookup key = some row := by
    have rows : Content.rows (some ⟨h, t⟩) = [(key, row)] := stacked.rows
    rw [rows]
    simp
  have answer : Content.answer (some ⟨h, t⟩) (.update key row) = .ok .done := by
    rw [Content.answer, present, encodes]
    rfl
  have sized : (Call.update key row).Sized := by
    intro encoded' same
    obtain rfl := Except.ok.inj (encodes.symm.trans same)
    exact small
  have fits : s.SplitsFit env (.update key row) := by
    intro c here
    rw [here.unique contains, ran.size]
    intro t' member _ encoded' same
    obtain rfl := Option.some.inj member
    obtain rfl := Except.ok.inj (encodes.symm.trans same)
    exact stacked.room small
  have allowed : fitting env (.update key row) u32Max s := ⟨Nat.le_refl _, sized, fits⟩
  have enough : s.nextPageId + ((overflowChunks ps encoded).length + (2 + (2 * h + 1))) ≤
    u32Max := by omega
  rw [← ran.size] at enough
  have deep : h < u32Max := Nat.lt_trans height (by decide)
  have spends := update_spends (fun k _ => works k) settled contains deep ran.fresh encodes enough
  obtain ⟨s', run, ran', next⟩ := ran.calls works allowed allowed spends trivial answer
  rw [ran.size] at next
  rw [Content.after_update encodes] at ran'
  have wellFormed' := ran'.contains.wellFormed _ rfl
  rw [run, Hoare.final_ok]
  exact ⟨_, ran', stacked.put wellFormed'.ordered, by omega⟩

/-- Inserting it into a new database. -/
theorem RanOn.first {s : Database} (works : ∀ k, env.fault k = none)
    (ran : RanOn env (fitting env) ps s [] none) (encodes : row.encode key = .ok encoded)
    (small : encoded.length ≤ u32Max)
    (room : s.nextPageId + ((overflowChunks ps encoded).length + 67) ≤ u32Max) :
    ∃ t : AnyTree, RanOn env (fitting env) ps (final ((Call.insert key row).run env u32Max s))
      [.insert key row] (some t) ∧
      t.2.Stacked ps key row encoded 1 ∧
      (final ((Call.insert key row).run env u32Max s)).nextPageId ≤
        s.nextPageId + ((overflowChunks ps encoded).length + 67) := by
  have root : s.pager.rootPageId = emptyTreeRoot := ran.contains.root.symm
  have answer : Content.answer none (.insert key row) = .ok .done := by
    show (row.encode key).map (fun _ => Reply.done) = _
    rw [encodes]
    rfl
  have allowed : fitting env (.insert key row) u32Max s :=
    ⟨Nat.le_refl _, (Call.sized_of_encodes encodes small).1, BufferPool.splitsFit_empty root _⟩
  have enough : s.nextPageId + ((overflowChunks ps encoded).length + 1) ≤ u32Max := by omega
  rw [← ran.size] at enough
  have spends : Spends _ s ((Call.insert key row).run env u32Max s) :=
    insert_first_takes root ran.fresh encodes enough
  obtain ⟨s', run, ran', next⟩ := ran.calls works allowed allowed spends trivial answer
  rw [ran.size] at next
  rw [Content.after_insert encodes] at ran'
  rw [run, Hoare.final_ok]
  exact ⟨_, ran', .fresh ps key row encoded _ _, by omega⟩

end Pinax
