import Pinax.Verified.Deletion
import Pinax.Verified.PathCopy

/-! # Insertion and update

What the two calls that put a row do to a well-formed tree: a cell goes into one leaf, which may
split, and splits may travel up to a new root.
-/

namespace Pinax

open SearchNode (Part)

variable {env : Env} {nested : Bool} {s s' : BufferPool} {h : Nat} {t : Tree h} {key : I64}
  {row : Row} {encoded : Bytes} {fuel : Nat}

/-- The tree `t'` that takes the place of `t`, with the row of the key bound: new pages for the
chain, the leaf or its halves and one path, and those of `t` off that path; unless the leaf was
split, of the same shape. -/
structure Tree.Bound (ps : PageSize) (t : Tree h) (key : I64) (row : Row) (encoded : Bytes) (n : Nat)
    {h' : Nat} (t' : Tree h') : Prop where
  rows : t'.rows = bindRow key row t.rows
  height : h ≤ h' ∧ h' ≤ h + 1
  pages : ∃ k, t'.pages.Perm (List.range' n k ++ t.shared key) ∧
    k ≤ (overflowChunks ps encoded).length + (2 * h + 3)
  shape : t.Unsplit ps key encoded → h' = h ∧ t'.separators = t.separators

theorem Tree.height_replaceLeaf (ps : PageSize) (key : I64) (t : Tree h) (part : Part I64 Leaf × Nat) :
    h ≤ (t.replaceLeaf ps key part).1.1 ∧ (t.replaceLeaf ps key part).1.1 ≤ h + 1 := by
  rw [replaceLeaf]
  generalize t.graft key (maxInteriorEntries ps.bytes) part.1 part.2 = grafted
  obtain ⟨p, n⟩ := grafted
  cases p with
  | one t => exact ⟨Nat.le_refl h, Nat.le_succ h⟩
  | two a separator b => exact ⟨Nat.le_succ h, Nat.le_refl (h + 1)⟩

theorem Tree.Puts.bound {ps : PageSize} {v v' : Pages} {n result root n' : Nat}
    (wellFormed : t.WellFormed nested ps v n)
    (puts : t.Puts nested ps key row encoded n result root v' n') :
    result = root ∧ ∃ (h' : Nat) (t' : Tree h'), t'.id = root ∧ t'.WellFormed nested ps v' n' ∧
      t.Bound ps key row encoded n t' := by
  obtain ⟨same, h', t', made, id, wellFormed', rows, shape⟩ := puts
  obtain ⟨left, mid, right, cut⟩ := wellFormed.cutAt key
  have pages := t.pages_putRow cut ps row encoded n
  have few := t.putRow_next_le ps key row encoded n
  have height : h ≤ (t.putRow ps key row encoded n).1.1 ∧ (t.putRow ps key row encoded n).1.1 ≤ h + 1 :=
    t.height_replaceLeaf ps key (t.putPart ps key row encoded n)
  rw [made] at pages few height
  exact ⟨same, h', t', id, wellFormed', rows, height, ⟨_, pages, by omega⟩, shape⟩

theorem Stands.put {x : PoolM Nat} (stands : Stands env nested s t)
    (finishes : Finishes env (anyPage s) (s.known env) s.nextPageId x
      (t.Puts nested s.pager.pageSize key row encoded s.nextPageId)
      fun _ => False)
    (works : ∀ k, s.disk.clock ≤ k → env.fault k = none) (within : ¬ Exhausted (Hoare.final (x s))) :
    Committing env nested s t (x s) fun root _ t' => root = t'.id ∧
      t.Bound s.pager.pageSize key row encoded s.nextPageId t' := by
  refine stands.finish (finishes.imp ?_) works within
  intro result root v n puts
  obtain ⟨rfl, h', t', rfl, wellFormed, bound⟩ := puts.bound stands.wellFormed
  exact ⟨h', t', rfl, wellFormed, rfl, bound⟩

end Pinax
