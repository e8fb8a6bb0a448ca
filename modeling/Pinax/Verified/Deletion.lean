import Mathlib.Data.List.Flatten
import Pinax.Verified.Mutations

/-! # Deletion

`delete` takes one cell out of one leaf.  Nothing is merged, so leaves may become empty and
separators outlive their keys; `collapse_root_if_needed` never finds a root to collapse.
-/

namespace Pinax

open SearchNode (Node Part Within)

variable {env : Env} {nested : Bool} {s s' : BufferPool} {h : Nat} {t : Tree h} {key : I64} {fuel : Nat}

/-- A root with at least one separator stays. -/
theorem collapseRootIfNeeded_reads {o : Origin} {v : Pages} {n cap : Nat} {E : Stop → Prop}
    (stored : t.Stored o.start.pager.pageSize v) (sized : t.Sized cap) :
    Reads env o v n (collapseRootIfNeeded env t.id) (· = t.id) E := by
  rw [collapseRootIfNeeded]
  cases h with
  | zero =>
    refine Leaf.Stored.get stored fun buf page => Reads.ok page.readType ?_
    rw [if_pos (by decide)]
    exact Reads.pure rfl
  | succ h =>
    refine stored.get fun buf page => Reads.ok page.readType ?_
    rw [if_neg (by decide)]
    refine Reads.ok page.numCells_eq ?_
    have some : 1 ≤ (t.node.map Tree.id).cells.length := by
      simp only [Node.map, List.length_map]
      exact sized.1
    rw [if_neg (by omega)]
    exact Reads.pure rfl

theorem CutAt.sublist {entries left mid right : List Entry} (cut : CutAt key entries left mid right) :
    (left ++ right).Sublist entries := by
  rw [cut.split, List.append_assoc]
  exact (List.Sublist.refl left).append (List.sublist_append_right _ _)

/-- The leaf without an entry may take its place. -/
theorem Leaf.fits_without {ps : PageSize} {v : Pages} {n₀ n : Nat} {leaf : Leaf}
    {left right : List Entry} {old : Entry} (cut : CutAt key leaf.entries left [old] right)
    (le : n₀ ≤ n) (small : n < 4294967296)
    (stored : (⟨n, leaf.start, left ++ right⟩ : Leaf).Stored ps v) :
    Fits ps v n₀ (n + 1) key leaf (.one ⟨n, leaf.start, left ++ right⟩) := by
  have sub := cut.sublist
  refine ⟨fun l member => ?_, fun b e within low high => within.sublist sub, [n],
    (left ++ right).flatMap Entry.ids, ?_, List.nodup_singleton n, fun id member => ?_, ?_⟩
  · obtain rfl := List.mem_singleton.mp member
    exact ⟨stored, small⟩
  · rw [Part.flat_one]
    exact List.Perm.refl _
  · obtain rfl := List.mem_singleton.mp member
    exact ⟨le, Nat.lt_succ_self _⟩
  · exact (sub.flatMap Entry.ids).cons _

/-- The tree without the key's cell, under the ids from `n` on. -/
def Tree.dropRow (ps : PageSize) (key : I64) (t : Tree h) (n : Nat) : AnyTree × Nat :=
  let leaf := (t.leafFor key).without key
  t.replaceLeaf ps key (.one ⟨n, leaf.start, leaf.entries⟩, n + 1)

theorem Tree.WellFormed.delete_finishes {o : Origin} {v : Pages} {n : Nat} {E : Stop → Prop} {row : Row}
    (fresh : ∀ id, o.start.nextPageId ≤ id → o.writable id)
    (wellFormed : t.WellFormed nested o.start.pager.pageSize v n)
    (root : o.start.pager.rootPageId = t.id) (deep : h < fuel ∨ E .running)
    (present : (key, row) ∈ t.rows) :
    Finishes env o v n (Btree.delete env fuel key)
      (fun result root v' n' => result = (root, row) ∧ ∃ t' : Tree h,
      t.dropRow o.start.pager.pageSize key n = (⟨h, t'⟩, n') ∧ t'.id = root ∧ t'.WellFormed nested
        o.start.pager.pageSize v' n' ∧ t'.rows = unbindRow key t.rows ∧
          t'.separators = t.separators) E := by
  rw [Btree.delete_locate]
  refine Finishes.rootPageId ?_
  rw [if_neg (wellFormed.root_ne root), root]
  refine Finishes.pageSize (Finishes.bind_reads (wellFormed.locate deep) ?_)
  rintro ⟨path, leafId, leafBuf, result⟩ ⟨samePath, rfl, page, cut⟩
  obtain ⟨left, old, right, cutAt, rfl, rfl⟩ := wellFormed.ordered.cut_present present cut
  -- the row is read before its cell is removed
  obtain ⟨cell, buf', offset, removed, page'⟩ := cutAt.removeCellAt page
  have inside : old ∈ (t.leafFor key).entries := by rw [cutAt.split]; simp
  have leafStored := wellFormed.stored.leaf key
  have sub := cutAt.sublist
  have decodes : Reads env o v n (reassemble env old.cell >>= fun full =>
    (liftM (Row.decode full) : PoolM Row) >>= pure) (· = old.row) E :=
    (leafStored.entries old inside).reads (Reads.pure rfl)
  simp only [bind_pure] at decodes
  show Finishes env o v n (Btree.deleteFound env key o.start.pager.pageSize.maxLocal path
    (t.leafFor key).id leafBuf
    (.found left.length)) _ E
  rw [Btree.deleteFound]
  refine Finishes.ok (page.cellAt_eq cell) ?_
  rw [← bind_assoc]
  refine Finishes.bind_reads decodes ?_
  rintro row rfl
  refine Finishes.ok removed ?_
  show Finishes env o v n (Btree.deleteRemoved env path (t.leafFor key).id buf' old.row) _ E
  rw [Btree.deleteRemoved, samePath]
  refine Finishes.put fresh page'.len fun small => ?_
  -- the leaf without the row is put under the next id
  have newLeaf : (⟨n, (t.leafFor key).start, left ++ right⟩ : Leaf).Stored o.start.pager.pageSize
    (withPage v n (body buf')) := by
    refine ⟨⟨buf', withPage_same, page'⟩,
      fun e member => (leafStored.entries e ?_).mono fun id inIds content known => ?_⟩
    · exact sub.mem member
    · have below := (wellFormed.range id
        (Tree.leaf_pages (List.mem_cons_of_mem _ (List.mem_flatMap.mpr ⟨e, sub.mem member, inIds⟩)))).2
      exact (withPage_other (Nat.ne_of_lt below)).trans known
  simp only [u32Max] at small
  have fits := Leaf.fits_without cutAt (Nat.le_refl n) (by omega) newLeaf
  rw [← bind_assoc]
  -- the path above is copied, and the root is not split
  refine Finishes.bind (replaceLeaf_runs fresh wellFormed wellFormed.two (Grown.put _ _ _) fits
    (Or.inr ⟨_, rfl⟩)) ?_
  rintro root v' n' - ⟨-, h', t', made, rfl, wellFormed', entries, shape⟩
  obtain ⟨rfl, separators, -⟩ := shape _ rfl
  obtain ⟨sameLeaf, -⟩ := cutAt.without
  rw [Part.flat_one] at entries
  -- a root with a cell is not collapsed
  refine Finishes.bind_reads (collapseRootIfNeeded_reads wellFormed'.stored wellFormed'.sized) ?_
  rintro root rfl
  refine Finishes.commit ⟨rfl, t', ?_, rfl, wellFormed',
    rows_unbound wellFormed.ordered cutAt entries, separators⟩
  rw [Tree.dropRow, sameLeaf]
  exact made

theorem Stands.delete (stands : Stands env nested s t)
    (works : ∀ k, s.disk.clock ≤ k → env.fault k = none) (deep : h < fuel) {row : Row}
    (present : (key, row) ∈ t.rows) (within : ¬ Exhausted (Hoare.final (Btree.delete env fuel key s))) :
    Committing env nested s t (Btree.delete env fuel key s) fun result h' t' => result = (t'.id, row) ∧
      t'.rows = unbindRow key t.rows ∧ h' = h ∧ t'.separators = t.separators := by
  refine stands.finish (Finishes.imp
    (Tree.WellFormed.delete_finishes (o := anyPage s) stands.fresh stands.wellFormed stands.root
    (Or.inl deep) present) ?_) works within
  rintro result root v n ⟨rfl, t', -, rfl, wellFormed, rows, separators⟩
  exact ⟨h, t', rfl, wellFormed, rfl, rows, rfl, separators⟩

/-- A well-formed tree that holds no row: nothing is found in it, and a row whose cell fits its leaf
is inserted. -/
theorem Stands.emptied (stands : Stands env nested s t)
    (works : ∀ k, s.disk.clock ≤ k → env.fault k = none) (deep : h < fuel) (empty : t.rows = []) :
    (∃ s', Btree.scan env fuel s = .ok [] s') ∧ ∀ key, (∃ s', Btree.get env fuel key s = .ok none s') ∧
      ∀ row encoded, row.encode key = .ok encoded → encoded.length ≤ u32Max →
        t.Unsplit s.pager.pageSize key encoded →
        ¬ Exhausted (Hoare.final (Btree.insert env fuel key row s)) →
        Committing env nested s t (Btree.insert env fuel key row s) fun root _ t' => root = t'.id ∧
          t'.rows = [(key, row)] := by
  constructor
  · obtain ⟨s', run, -⟩ := stands.scan works deep
    exact ⟨s', by rw [run, empty]⟩
  intro key
  have absent : ∀ row, (key, row) ∉ t.rows := by
    intro row member
    rw [empty] at member
    exact absurd member List.not_mem_nil
  constructor
  · obtain ⟨found, s', run, bound, -⟩ := stands.get works key deep
    cases found with
    | none => exact ⟨s', run⟩
    | some row => exact absurd ((bound row).mp rfl) (absent row)
  · intro row encoded encodes small unsplit within
    have inserted :=
      stands.insert works deep absent encodes small (Or.inl unsplit) (Or.inr unsplit) within
    rw [empty] at inserted
    exact inserted.imp fun root h' t' ⟨same, rows, _⟩ => ⟨same, rows⟩

/-- `delete` on a well-formed tree of any height.  A bound key's row is returned, and the root that
is committed has the height and the separators of the old one and its rows without that key; it is
not collapsed, and when no row is left it still serves lookups and inserts.  An unbound key is
refused, and nothing is committed. -/
theorem delete_exact (stands : Stands env false s t)
    (works : ∀ k, s.disk.clock ≤ k → env.fault k = none) (key : I64) (deep : h < fuel)
    (within : ¬ Exhausted (Hoare.final (Btree.delete env fuel key s))) :
    (∀ row, (key, row) ∈ t.rows →
      (s.pager.TxnOverflow env ∧ ∃ s', Btree.delete env fuel key s = .error .panic s' ∧
        s'.pager = s.pager ∧ Stands env false s' t) ∨
      ∃ s', ∃ t' : Tree h, Btree.delete env fuel key s = .ok (t'.id, row) s' ∧ Arrived env false s s' t' ∧
        t'.rows = unbindRow key t.rows ∧ t'.separators = t.separators ∧
        (∃ s'', collapseRootIfNeeded env t'.id s' = .ok t'.id s'') ∧
        (t'.rows = [] → (∃ s'', Btree.scan env fuel s' = .ok [] s'') ∧
          ∀ key', (∃ s'', Btree.get env fuel key' s' = .ok none s'') ∧
          ∀ row' encoded, row'.encode key' = .ok encoded → encoded.length ≤ u32Max →
            t'.Unsplit s'.pager.pageSize key' encoded →
            ¬ Exhausted (Hoare.final (Btree.insert env fuel key' row' s')) →
            Committing env false s' t' (Btree.insert env fuel key' row' s') fun root _ t'' =>
              root = t''.id ∧ t''.rows = [(key', row')])) ∧
    ((∀ row, (key, row) ∉ t.rows) →
      ∃ s', Btree.delete env fuel key s = .error (.permanent (.keyNotFound key)) s' ∧
      Stands env false s' t ∧ s'.pager = s.pager ∧ ∀ slot, s'.disk.file.slot slot =
        s.disk.file.slot slot) := by
  constructor
  · intro row present
    refine (stands.delete works deep present within).imp_right ?_
    rintro ⟨result, s', h', t', run, ⟨rfl, rows, rfl, separators⟩, arrived⟩
    have later : ∀ k, s'.disk.clock ≤ k → env.fault k = none :=
      fun k late => works k (Nat.le_trans arrived.clock late)
    -- the root keeps its cells, or is a leaf, so nothing is collapsed
    have reads : Reads env (anyPage s') (s'.known env) s'.nextPageId (collapseRootIfNeeded env t'.id)
      (· = t'.id) fun _ => False :=
      collapseRootIfNeeded_reads arrived.stands.known arrived.stands.sized
    obtain ⟨root, s'', collapse, rfl, -⟩ := arrived.stands.reads later reads
    exact ⟨s', t', run, arrived, rows, separators, ⟨s'', collapse⟩, arrived.stands.emptied later deep⟩
  · intro absent
    obtain ⟨s', run, after⟩ := stands.refused works
      (Tree.WellFormed.delete_absent (o := anyPage s) stands.wellFormed stands.root deep absent)
    exact ⟨s', run, stands.grown (.refl _ _) after, after.pager, after.framed.slot⟩

theorem delete_exact_twoLeaves :
    let env := Env.faultless .dev fun _ => 0
    let key : I64 := ⟨7, by decide, by decide⟩
    ∃ s, Stands env false s twoLeaves ∧ ∃ s', ∃ t' : Tree 1, Btree.delete env 2 key s =
      .ok (t'.id, ⟨[]⟩) s' ∧
      t'.rows = [(⟨1, by decide, by decide⟩, ⟨[]⟩)] := by
  intro env key
  obtain ⟨s, stands, -, pager, next, trace⟩ := twoLeaves_stands env false
  have fresh : ¬ Exhausted s := by
    rintro ⟨id, member, -⟩
    rw [trace] at member
    exact absurd member List.not_mem_nil
  have within : ¬ Exhausted (Hoare.final (Btree.delete env 2 key s)) :=
    stands.delete_within (fun _ _ => rfl) (show 1 < 2 by decide) fresh (by rw [next]; decide)
  obtain ⟨bound, -⟩ := delete_exact stands (fun _ _ => rfl) key (show 1 < 2 by decide) within
  have present : (key, ⟨[]⟩) ∈ twoLeaves.rows := List.mem_cons_of_mem _ List.mem_cons_self
  rcases bound ⟨[]⟩ present with ⟨⟨-, overflow⟩, -⟩ | ⟨s', t', run, -, rows, -⟩
  · rw [pager] at overflow
    exact absurd overflow (by decide)
  · exact ⟨s, stands, s', t', run, rows⟩

end Pinax
