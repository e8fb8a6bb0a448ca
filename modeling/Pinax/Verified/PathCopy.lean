import Mathlib.Data.Nat.Log
import Pinax.Verified.DurableMap
import Pinax.Verified.Separation

/-! # What a mutation copies

A mutation writes new pages for the leaf of its key and the interior pages above it, and the tree it
commits shares every other page with the one before.  Trees are at most logarithmically high, so few
pages are copied.
-/

namespace Pinax

open Hoare (final)
open SearchNode (Node Part)

variable {env : Env} {h : Nat} {t : Tree h} {key : I64} {ps : PageSize} {nested : Bool} {v : Pages}
  {n : Nat} {row : Row} {encoded : Bytes}

namespace Tree

/-! ## The pages that stay -/

/-- The pages of the chain of the key's row. -/
def chain (key : I64) (t : Tree h) : List Nat :=
  ((t.leafFor key).entries.filter fun e => e.cell.key = key).flatMap Entry.ids

/-- The pages on the way to the key's row: its chain, its leaf, and the interior pages above. -/
def copied (key : I64) (t : Tree h) : List Nat := t.spine key ++ (t.leafFor key).id :: t.chain key

/-- The other pages. -/
def shared (key : I64) (t : Tree h) : List Nat :=
  ((t.leafFor key).without key).entries.flatMap Entry.ids ++ t.rest key

theorem pages_shared (key : I64) (t : Tree h) : t.pages.Perm (t.copied key ++ t.shared key) := by
  refine (t.pages_perm key).trans ?_
  have split :=
    List.filter_append_perm (fun e : Entry => decide (e.cell.key = key)) (t.leafFor key).entries
  have ids := split.flatMap_right Entry.ids
  rw [List.flatMap_append] at ids
  have negated : ((t.leafFor key).entries.filter fun e => !decide (e.cell.key = key)) =
    ((t.leafFor key).without key).entries := by
    rw [Leaf.without]
    simp
  rw [negated] at ids
  rw [copied, shared, chain, Leaf.pages]
  refine List.perm_iff_count.mpr fun id => ?_
  have count := List.perm_iff_count.mp ids id
  simp only [List.count_append, List.count_cons] at count ⊢
  omega

theorem pages_rooted (part : Part I64 (Tree h) × Nat) :
    (rooted part).1.2.pages.Perm (List.range' part.2 ((rooted part).2 - part.2) ++
      part.1.flat pages) := by
  obtain ⟨p, n⟩ := part
  cases p with
  | one t =>
    rw [rooted, Nat.sub_self, Part.flat_one]
    exact List.Perm.refl _
  | two a separator b =>
    rw [rooted, Nat.add_sub_cancel_left, Part.flat_two]
    show (n :: (a.pages ++ (b.pages ++ []))).Perm _
    rw [List.append_nil]
    exact List.Perm.refl _

/-- The tree with the leaf replaced has new pages for the path, and the other pages. -/
theorem pages_replaceLeaf (ps : PageSize) (key : I64) (t : Tree h) (part : Part I64 Leaf × Nat) :
    (t.replaceLeaf ps key part).1.2.pages.Perm
      (List.range' part.2 ((t.replaceLeaf ps key part).2 - part.2) ++
        (part.1.flat Leaf.pages ++ t.rest key)) := by
  obtain ⟨grown, grafted⟩ := t.pages_graft key (maxInteriorEntries ps.bytes) part.1 part.2
  have root := pages_rooted (t.graft key (maxInteriorEntries ps.bytes) part.1 part.2)
  have more := rooted_next (t.graft key (maxInteriorEntries ps.bytes) part.1 part.2)
  rw [replaceLeaf]
  generalize t.graft key (maxInteriorEntries ps.bytes) part.1 part.2 = q at grown grafted root more ⊢
  refine root.trans (List.perm_iff_count.mpr fun id => ?_)
  have count := List.perm_iff_count.mp grafted id
  rw [← range'_append_range' grown more]
  simp only [List.count_append] at count ⊢
  omega

/-- Putting a row copies the path to its key. -/
theorem pages_putRow {left mid right : List Entry}
    (cut : CutAt key (t.leafFor key).entries left mid right) (ps : PageSize) (row : Row)
    (encoded : Bytes) (n : Nat) :
    (t.putRow ps key row encoded n).1.2.pages.Perm
      (List.range' n ((t.putRow ps key row encoded n).2 - n) ++ t.shared key) := by
  obtain ⟨without, rank⟩ := cut.without
  let e := rowEntry ps key row encoded n
  have ids : e.ids.Perm (List.range' n e.ids.length) := by
    show (overflowIds ps n encoded).Perm (List.range' n (overflowIds ps n encoded).length)
    rw [length_overflowIds]
    exact List.reverse_perm _
  obtain ⟨grown, leaves⟩ :=
    ((t.leafFor key).without key).pages_insertPart ps ((t.leafFor key).rank key) e (n + e.ids.length)
  have inside : (t.leafFor key).rank key ≤ ((t.leafFor key).without key).entries.length := by
    rw [without, rank, List.length_append]
    exact Nat.le_add_right _ _
  have entries := (List.perm_insertIdx e _ inside).flatMap_right Entry.ids
  rw [List.flatMap_cons] at entries
  have path := t.pages_replaceLeaf ps key
    (((t.leafFor key).without key).insertPart ps ((t.leafFor key).rank key) e (n + e.ids.length))
  have more := t.replaceLeaf_next ps key
    (((t.leafFor key).without key).insertPart ps ((t.leafFor key).rank key) e (n + e.ids.length))
  rw [putRow, shared]
  generalize ((t.leafFor key).without key).insertPart ps ((t.leafFor key).rank key) e
    (n + e.ids.length) = part at grown leaves path more ⊢
  refine path.trans (List.perm_iff_count.mpr fun id => ?_)
  -- the new ids are those of the chain, of the leaves, and of the interior pages
  rw [← range'_append_range' (Nat.le_add_right n e.ids.length) (Nat.le_trans grown more),
    ← range'_append_range' grown more, Nat.add_sub_cancel_left]
  have ofLeaves := List.perm_iff_count.mp leaves id
  have ofEntries := List.perm_iff_count.mp entries id
  have ofChain := List.perm_iff_count.mp ids id
  simp only [List.count_append] at ofLeaves ofEntries ⊢
  omega

/-- Dropping a row does so, too. -/
theorem pages_dropRow (ps : PageSize) (key : I64) (t : Tree h) (n : Nat) :
    (t.dropRow ps key n).1.2.pages.Perm (List.range' n ((t.dropRow ps key n).2 - n) ++ t.shared key) := by
  have path := t.pages_replaceLeaf ps key
    (.one ⟨n, ((t.leafFor key).without key).start, ((t.leafFor key).without key).entries⟩, n + 1)
  have more := t.replaceLeaf_next ps key
    (.one ⟨n, ((t.leafFor key).without key).start, ((t.leafFor key).without key).entries⟩, n + 1)
  rw [dropRow, shared]
  refine path.trans (List.perm_iff_count.mpr fun id => ?_)
  rw [← range'_append_range' (Nat.le_add_right n 1) more, Nat.add_sub_cancel_left, Part.flat_one]
  simp only [Leaf.pages, List.count_append, List.count_cons, List.range'_one, List.count_nil]
  omega

/-! ## How many pages are copied -/

theorem number_next_le (p : Part I64 (Node I64 (Tree h))) (n : Nat) : (number p n).2 ≤ n + 2 := by
  cases p with
  | one node => exact Nat.le_succ (n + 1)
  | two node separator node' => exact Nat.le_refl (n + 2)

theorem graft_next_le (key : I64) (cap : Nat) (p : Part I64 Leaf) (t : Tree h) (n : Nat) :
    (t.graft key cap p n).2 ≤ n + 2 * h := by
  induction h with
  | zero => exact Nat.le_refl n
  | succ h ih =>
    have below := ih (t.child key)
    have here := number_next_le (((t.hole key).graft ((t.child key).graft key cap p n).1).cut cap)
      ((t.child key).graft key cap p n).2
    rw [graft]
    omega

theorem replaceLeaf_next_le (ps : PageSize) (key : I64) (t : Tree h) (part : Part I64 Leaf × Nat) :
    (t.replaceLeaf ps key part).2 ≤ part.2 + (2 * h + 1) := by
  have grafted := t.graft_next_le key (maxInteriorEntries ps.bytes) part.1 part.2
  rw [replaceLeaf]
  generalize t.graft key (maxInteriorEntries ps.bytes) part.1 part.2 = q at grafted ⊢
  obtain ⟨p, n⟩ := q
  cases p with
  | one t => exact Nat.le_trans grafted (by omega)
  | two a separator b => exact Nat.succ_le_succ grafted

theorem putRow_next_le (ps : PageSize) (key : I64) (row : Row) (encoded : Bytes) (t : Tree h) (n : Nat) :
    (t.putRow ps key row encoded n).2 ≤ n + ((overflowChunks ps encoded).length + (2 * h + 3)) := by
  have leaves : ∀ (leaf : Leaf) (index : Nat) (e : Entry) (m : Nat),
    (leaf.insertPart ps index e m).2 ≤ m + 2 := by
    intro leaf index e m
    rw [Leaf.insertPart]
    split
    · exact Nat.le_succ (m + 1)
    · exact Nat.le_refl (m + 2)
  have ids : (rowEntry ps key row encoded n).ids.length = (overflowChunks ps encoded).length :=
    length_overflowIds ps n encoded
  have leaf :=
    leaves ((t.leafFor key).without key) ((t.leafFor key).rank key) (rowEntry ps key row encoded n)
    (n + (rowEntry ps key row encoded n).ids.length)
  have path :=
    t.replaceLeaf_next_le ps key (((t.leafFor key).without key).insertPart ps ((t.leafFor key).rank key)
    (rowEntry ps key row encoded n) (n + (rowEntry ps key row encoded n).ids.length))
  rw [putRow]
  omega

theorem dropRow_next_le (ps : PageSize) (key : I64) (t : Tree h) (n : Nat) :
    (t.dropRow ps key n).2 ≤ n + (2 * h + 3) := by
  have path := t.replaceLeaf_next_le ps key
    (.one ⟨n, ((t.leafFor key).without key).start, ((t.leafFor key).without key).entries⟩, n + 1)
  rw [dropRow]
  omega

/-- Every interior page has at least two children. -/
theorem Sized.two_pow_le {cap : Nat} (sized : t.Sized cap) : 2 ^ h ≤ t.leaves.length := by
  induction h with
  | zero => exact Nat.le_refl 1
  | succ h ih =>
    obtain ⟨some, -, children⟩ := sized
    have count : 2 ≤ t.node.children.length := by
      rw [Node.children, List.length_append, List.length_map]
      exact Nat.succ_le_succ some
    have whole : ∀ cs : List (Tree h), (∀ c ∈ cs, c ∈ t.node.children) →
      cs.length * 2 ^ h ≤ (cs.flatMap fun c => c.leaves).length := by
      intro cs inside
      induction cs with
      | nil => simp
      | cons c cs rest =>
        have first := ih (children c (inside c List.mem_cons_self))
        have later := rest fun d member => inside d (List.mem_cons_of_mem _ member)
        rw [List.flatMap_cons, List.length_append, List.length_cons, Nat.succ_mul]
        omega
    have sum := whole t.node.children fun _ member => member
    calc 2 ^ (h + 1) = 2 * 2 ^ h := by rw [Nat.pow_succ, Nat.mul_comm]
      _ ≤ t.node.children.length * 2 ^ h := Nat.mul_le_mul_right _ count
      _ ≤ _ := sum

theorem leaves_le_pages (t : Tree h) : t.leaves.length ≤ t.pages.length := by
  induction h with
  | zero => exact Nat.le_add_left 1 _
  | succ h ih =>
    show (t.node.children.flatMap fun c => c.leaves).length ≤
      (Inner.id t :: t.node.children.flatMap fun c => c.pages).length
    rw [List.length_cons, List.length_flatMap, List.length_flatMap]
    exact Nat.le_succ_of_le (List.sum_le_sum fun c _ => ih c)

/-- The height of a tree is at most the logarithm of the number of its pages. -/
theorem WellFormed.two_pow_lt (wellFormed : t.WellFormed nested ps v n) : 2 ^ h < n := by
  have leaves := wellFormed.sized.two_pow_le
  have pages := t.leaves_le_pages
  -- no page has the id 0
  have inside : t.pages.toFinset ⊆ (Finset.range n).erase 0 := by
    intro id member
    obtain ⟨low, high⟩ := wellFormed.range id (List.mem_toFinset.mp member)
    exact Finset.mem_erase.mpr ⟨Nat.ne_of_gt (Nat.lt_of_lt_of_le (by decide) low),
      Finset.mem_range.mpr high⟩
  have card := Finset.card_le_card inside
  have two := wellFormed.two
  rw [List.toFinset_card_of_nodup wellFormed.distinct,
    Finset.card_erase_of_mem (Finset.mem_range.mpr (Nat.lt_of_lt_of_le (by decide) two)),
      Finset.card_range] at card
  simp only [firstDataPageId] at two
  omega

end Tree

/-! ## Mutations -/

/-- The overflow pages that the call's row takes. -/
def Call.overflow (ps : PageSize) : Call → Nat
  | .insert key row | .update key row =>
    match row.encode key with
    | .ok encoded => (overflowChunks ps encoded).length
    | .error _ => 0
  | .get _ | .delete _ | .scan => 0

variable {s s' : Database} {lineage : List Snapshot} {half : Option File} {since fuel : Nat}
  {log : List Call} {call : Call} {reply : Reply}

theorem Call.Writes.mutates (writes : call.Writes key) : call.Mutates := by
  cases call with
  | insert key' row => trivial
  | get key' => exact writes.elim
  | update key' row => trivial
  | delete key' => trivial
  | scan => exact writes.elim

/-- The tree that a call commits has new pages, one path and one chain at most, and those of the old
tree that are shared. -/
theorem Tree.WellFormed.after_pages (wellFormed : t.WellFormed nested ps v n) (writes : call.Writes key)
    (answer : Content.answer (some ⟨h, t⟩) call = .ok reply) (m : Nat) :
    ∃ t' k, Content.after ps m (some ⟨h, t⟩) call = some t' ∧
      t'.2.pages.Perm (List.range' m k ++ t.shared key) ∧
      k ≤ call.overflow ps + (2 * h + 3) := by
  obtain ⟨left, mid, right, cut⟩ := wellFormed.cutAt key
  have put : ∀ row encoded, (t.putRow ps key row encoded m).2 - m ≤
    (overflowChunks ps encoded).length + (2 * h + 3) := by
    intro row encoded
    have := t.putRow_next_le ps key row encoded m
    omega
  cases call with
  | insert key' row =>
    obtain rfl : key = key' := writes
    obtain ⟨encoded, encodes, -⟩ := Content.put_of_answer ps answer (Or.inl rfl)
    rw [Content.after_insert encodes, Call.overflow, encodes]
    exact ⟨_, _, rfl, t.pages_putRow cut ps row encoded m, put row encoded⟩
  | update key' row =>
    obtain rfl : key = key' := writes
    obtain ⟨encoded, encodes, -⟩ := Content.put_of_answer ps answer (Or.inr rfl)
    rw [Content.after_update encodes, Call.overflow, encodes]
    exact ⟨_, _, rfl, t.pages_putRow cut ps row encoded m, put row encoded⟩
  | delete key' =>
    obtain rfl : key = key' := writes
    have few := t.dropRow_next_le ps key m
    refine ⟨_, _, rfl, t.pages_dropRow ps key m, ?_⟩
    rw [Call.overflow]
    omega
  | get key' => exact writes.elim
  | scan => exact writes.elim

/-- In every session, a mutation that returns `Ok` writes new pages for one path, which is
logarithmically long, and for the chain of its row, and the tree that it commits shares all pages of
the tree before but those of that path and of the key's old chain. -/
theorem mutations_copy_one_path
    (history : History env (fitting env) ⟨.running s, lineage, half, since⟩ log)
    (contains : s.Contains env (some ⟨h, t⟩)) (allowed : fitting env call fuel s)
    (within : ¬ Exhausted s') (run : call.run env fuel s = .ok reply s') (writes : call.Writes key) :
    t.pages.Perm (t.copied key ++ t.shared key) ∧ ∃ t' k, s'.Contains env (some t') ∧
      t'.2.pages.Perm (List.range' s.nextPageId k ++ t.shared key) ∧
      k ≤ call.overflow s.pager.pageSize + 2 * Nat.log 2 s.pager.pageCount + 3 := by
  obtain ⟨cur, past, rfl, floor, settled⟩ := history.reachable.good
  have filled := history.filled (I := fun _ _ => True) ⟨trivial, fun _ _ _ _ => trivial,
    fun _ _ _ _ _ _ => trivial⟩ fun _ _ _ guard => guard
  obtain ⟨c, holds, -⟩ := filled.lineage cur List.mem_cons_self
  obtain rfl := (settled.contains holds).unique contains
  obtain ⟨deep, sized, fits⟩ := allowed
  have inside : ¬ Exhausted (final (call.run env fuel s)) := by
    rw [run]
    exact within
  have outcome := settled.call_outcome holds (settled.shallow holds deep) sized (fits _ contains) inside
  rw [run] at outcome
  refine ⟨t.pages_shared key, ?_⟩
  cases outcome with
  | replied looks => exact absurd writes.mutates looks
  | committed mutates answer next small rows committed holds' =>
    obtain ⟨t', k, after, pages, few⟩ :=
      (contains.wellFormed _ rfl).after_pages writes answer s.nextPageId
    rw [after] at holds'
    refine ⟨t', k, (settled.of_committed committed next small within).contains holds', pages, ?_⟩
    have count : 2 ^ h < s.pager.pageCount := by
      have below := (holds.wellFormed _ rfl).two_pow_lt
      rwa [← settled.content] at below
    have height := Nat.le_log_of_pow_le (by decide) (Nat.le_of_lt count)
    have few : k ≤ call.overflow s.pager.pageSize + (2 * h + 3) := few
    omega

/-- Two rows on a leaf each, the second one with an overflow page.  Deleting it copies its leaf and
the root, takes its overflow page away, and shares the leaf of the first row. -/
theorem mutations_copy_one_path_two_rows :
    let env := Env.faultless .dev fun _ => 0
    let one : I64 := ⟨1, by decide, by decide⟩
    let two : I64 := ⟨2, by decide, by decide⟩
    let row : Row := ⟨[.blob (List.replicate 2100 0)]⟩
    let long : Row := ⟨[.blob (List.replicate 4991 0)]⟩
    ∃ s s' lineage, ∃ t : Tree 1, ∃ t' k,
      History env (fitting env) ⟨.running s, lineage, none, 0⟩ [.insert one row, .insert two long] ∧
      s.Contains env (some ⟨1, t⟩) ∧ t.rows = [(one, row), (two, long)] ∧
        (Call.delete two).run env u32Max s = .ok (.removed long) s' ∧
      (t.copied two).length = 3 ∧ (t.shared two).length = 1 ∧ s'.Contains env (some t') ∧
      t'.2.pages.Perm (List.range' s.nextPageId k ++ t.shared two) ∧
        k ≤ 2 * Nat.log 2 s.pager.pageCount + 3 := by
  intro env one two row long
  obtain ⟨encoded₁, encodes₁, len₁⟩ : ∃ encoded, row.encode one = .ok encoded ∧ encoded.length = 2109 :=
    Row.encode_blob List.length_replicate (by decide) one
  obtain ⟨encoded₂, encodes₂, len₂⟩ : ∃ encoded, long.encode two = .ok encoded ∧ encoded.length = 5000 :=
    Row.encode_blob List.length_replicate (by decide) two
  clear_value row long
  have none₁ : overflowChunks PageSize.default encoded₁ = [] := overflowChunks_nil (by rw [len₁]; decide)
  have one₂ : (overflowChunks PageSize.default encoded₂).length = 1 := by
    rw [overflowChunks, length_chunksOf (overflowChunkCap_pos _) (Nat.le_refl _), List.length_drop, len₂]
    decide
  have small : encoded₂.length ≤ u32Max := by
    rw [len₂]
    decide
  have long₂ : 2109 ≤ encoded₂.length := by
    rw [len₂]
    decide
  have below : one.val < two.val := by decide
  -- the second row does not fit the leaf of the first, and spills a page
  obtain ⟨s₁, id₁, ran₁, next₁⟩ := Ran.first_long .dev (fun _ => 0) one encodes₁ len₁ fun _ fits _ => fits
  obtain ⟨s, id, -, ran, -, next⟩ := ran₁.second_long (fun _ => rfl) below encodes₂ long₂ small len₁
    (by rw [one₂]; exact Nat.le_trans (Nat.add_le_add_right next₁ _) (by decide))
      (ran₁.second_fits below encodes₂ long₂ small len₁).1
  rw [one₂] at next
  obtain ⟨cur, past, floor, history, settled, -⟩ := ran.history
  have contains := ran.contains
  let left := Leaf.fresh PageSize.default id [rowEntry PageSize.default one row encoded₁ 2]
  let right :=
    Leaf.fresh PageSize.default (id + 1) [rowEntry PageSize.default two long encoded₂ s₁.nextPageId]
  let t := singleRow (id + 2) two left right
  have answer : Content.answer (some ⟨1, t⟩) (.delete two) = .ok (.removed long) := by
    have found : Content.rows (some ⟨1, t⟩) = [(one, row), (two, long)] := rfl
    rw [Content.answer, found]
    rfl
  have allowed : fitting env (.delete two) u32Max s := ⟨Nat.le_refl _, trivial, fun c _ => trivial⟩
  -- the delete takes two ids for the path and none for a chain
  have spends : Spends (2 * 1 + 2) s ((Call.delete two).run env u32Max s) := by
    have room : s.nextPageId + (2 * 1 + 2) ≤ u32Max := by
      simp only [u32Max]
      omega
    rw [run_delete]
    exact Hoare.Ends.map ((settled.stands contains).delete_spends (fun _ _ => rfl)
      (by decide) ran.fresh room)
  obtain ⟨s', run, ran', -⟩ := ran.calls (fun _ => rfl) allowed allowed spends trivial answer
  obtain ⟨-, t', k, contains', pages, few⟩ :=
    mutations_copy_one_path history contains allowed ran'.fresh run
    (show (Call.delete two).Writes two from rfl)
  -- root, leaf and overflow page are copied or dropped; the other leaf is shared
  have copied : t.copied two = [id + 2, id + 1] ++
    overflowIds PageSize.default s₁.nextPageId encoded₂ := by
    have chain : t.chain two = overflowIds PageSize.default s₁.nextPageId encoded₂ := List.append_nil _
    rw [Tree.copied, chain]
    rfl
  have shared : t.shared two = [id] ++ overflowIds PageSize.default 2 encoded₁ := by
    have rest : t.rest two = left.pages ++ [] ++ [] := rfl
    have leaf : (t.leafFor two).without two = ⟨id + 1, right.start, []⟩ := rfl
    rw [Tree.shared, leaf, rest]
    show (id :: (overflowIds PageSize.default 2 encoded₁ ++ [])) ++ [] ++ [] = _
    rw [List.append_nil, List.append_nil, List.append_nil]
    rfl
  refine ⟨s, s', _, t, t', k, history, contains, rfl, run, ?_, ?_, contains', pages,
    by simpa [Call.overflow] using few⟩
  · rw [copied, List.length_append, length_overflowIds, one₂]
    rfl
  · rw [shared, List.length_append, length_overflowIds, none₁]
    rfl

end Pinax
