import Pinax.Verified.Deletion
import Pinax.Verified.PageIds

/-! # What a committed root holds

A `Content` is what a root stands for: no tree, under the sentinel of the empty one, or a tree.
`answer` and `after` say what a call replies on a content and which content it commits, and
`Content.Planted.changed` that the calls which change a tree do so.
-/

namespace Pinax

open Hoare (Ends final)
open SearchNode (Node Part Within)

abbrev Content := Option AnyTree

namespace Content

def rows (c : Content) : List (I64 × Row) := c.elim [] fun t => t.2.rows

def height (c : Content) : Nat := c.elim 0 Sigma.fst

def rootPageId (c : Content) : Nat := c.elim emptyTreeRoot fun t => t.2.id

/-- The pages `v` hold the content behind `root`, under ids below `n`. -/
structure Planted (ps : PageSize) (v : Pages) (n root : Nat) (c : Content) : Prop where
  root : c.rootPageId = root
  wellFormed : ∀ t ∈ c, t.2.WellFormed true ps v n

/-- The tree with the key's row bound, under the ids from `n` on. -/
def put (ps : PageSize) (key : I64) (row : Row) (encoded : Bytes) (c : Content) (n : Nat) :
    AnyTree × Nat :=
  match c with
  | none =>
    let e := rowEntry ps key row encoded n
    (⟨0, Leaf.fresh ps (n + e.ids.length) [e]⟩, n + e.ids.length + 1)
  | some t => t.2.putRow ps key row encoded n

/-- The reply of a call, which the contents and the row's encoding decide. -/
def answer (c : Content) : Call → Except Stop Reply
  | .insert key row =>
    if (c.rows.lookup key).isSome then .error (.permanent (.keyAlreadyExists key))
    else (row.encode key).map fun _ => .done
  | .get key => .ok (.binding (c.rows.lookup key))
  | .update key row =>
    if (c.rows.lookup key).isSome then (row.encode key).map fun _ => .done
    else .error (.permanent (.keyNotFound key))
  | .delete key =>
    match c.rows.lookup key with
    | some row => .ok (.removed row)
    | none => .error (.permanent (.keyNotFound key))
  | .scan => .ok (.rows c.rows)

/-- The content a call commits when its reply is no error. -/
def after (ps : PageSize) (n : Nat) (c : Content) : Call → Content
  | .insert key row | .update key row =>
    match row.encode key with
    | .ok encoded => some (c.put ps key row encoded n).1
    | .error _ => c
  | .delete key => c.map fun t => (t.2.dropRow ps key n).1
  | .get _ | .scan => c

/-- The call splits no leaf into halves that do not fit their pages. -/
def SplitsFit (ps : PageSize) (c : Content) : Call → Prop
  | .insert key row =>
    ∀ t ∈ c, c.rows.lookup key = none → ∀ encoded, row.encode key = .ok encoded → t.2.Room ps key encoded
  | .update key row =>
    ∀ t ∈ c, c.rows.lookup key ≠ none → ∀ encoded, row.encode key = .ok encoded → t.2.Room ps key encoded
  | .get _ | .delete _ | .scan => True

end Content

/-- The rows when the call was not refused. -/
def Call.rowsAfter (rows : List (I64 × Row)) : Call → List (I64 × Row)
  | .insert key row | .update key row => bindRow key row rows
  | .delete key => unbindRow key rows
  | .get _ | .scan => rows

/-- No row of the call is too long for the length field of its cell. -/
def Call.Sized : Call → Prop
  | .insert key row | .update key row => ∀ encoded, row.encode key = .ok encoded → encoded.length ≤ u32Max
  | .get _ | .delete _ | .scan => True

/-- The committed pages hold the content. -/
def Snapshot.Holds (env : Env) (sn : Snapshot) (c : Content) : Prop :=
  c.Planted sn.content.pageSize (diskPage env sn.content.pageSize sn.file) sn.content.pageCount
    sn.content.rootPageId

variable {env : Env} {nested : Bool} {h : Nat} {t : Tree h} {key : I64} {ps : PageSize} {v v' : Pages}
  {n n' : Nat} {c : Content}

/-! ## Binding and looking up -/

/-- Looking a key up in rows that have each key once. -/
theorem lookup_eq_some_iff {rows : List (I64 × Row)}
    (sorted : rows.Pairwise fun a b => a.1.val < b.1.val) {row : Row} :
    rows.lookup key = some row ↔ (key, row) ∈ rows := by
  induction rows with
  | nil => simp
  | cons r rows ih =>
    obtain ⟨first, rest⟩ := List.pairwise_cons.mp sorted
    obtain ⟨key', row'⟩ := r
    by_cases same : key = key'
    · subst same
      have absent : (key, row) ∉ rows := fun member => absurd (first _ member) (lt_irrefl _)
      simp [absent, eq_comm]
    · have different : (key == key') = false := by simpa using same
      rw [List.lookup_cons, different, List.mem_cons, Prod.mk.injEq]
      exact (ih rest).trans ⟨Or.inr, fun either => either.resolve_left fun both => same both.1⟩

theorem Tree.Ordered.rows_sorted (ordered : t.Ordered nested minKey endKey) :
    t.rows.Pairwise fun a b => a.1.val < b.1.val := by
  rw [Tree.rows, List.pairwise_map]
  exact ordered.within.sorted

theorem Tree.Ordered.lookup (ordered : t.Ordered nested minKey endKey) {row : Row} :
    t.rows.lookup key = some row ↔ (key, row) ∈ t.rows := lookup_eq_some_iff ordered.rows_sorted

theorem Tree.Ordered.lookup_none (ordered : t.Ordered nested minKey endKey) :
    t.rows.lookup key = none ↔ ∀ row, (key, row) ∉ t.rows := by
  rw [Option.eq_none_iff_forall_ne_some]
  exact forall_congr' fun row => not_congr ordered.lookup

/-! ## Planting -/

theorem Tree.WellFormed.mono (wellFormed : t.WellFormed nested ps v n)
    (more : ∀ id content, firstDataPageId ≤ id → id < n → v id = some content → v' id = some content)
    (le : n ≤ n') :
    t.WellFormed nested ps v' n' :=
  { wellFormed with
    stored := wellFormed.stored.mono fun id member content known =>
      more id content (wellFormed.range id member).1 (wellFormed.range id member).2 known
    range := fun id member => ⟨(wellFormed.range id member).1,
      Nat.lt_of_lt_of_le (wellFormed.range id member).2 le⟩ }

theorem Content.Planted.mono {root : Nat} (planted : c.Planted ps v n root)
    (more : ∀ id content, firstDataPageId ≤ id → id < n → v id = some content → v' id = some content)
    (le : n ≤ n') :
    c.Planted ps v' n' root :=
  ⟨planted.root, fun t member => (planted.wellFormed t member).mono more le⟩

theorem Content.Planted.sorted {root : Nat} (planted : c.Planted ps v n root) :
    c.rows.Pairwise fun a b => a.1.val < b.1.val := by
  cases c with
  | none => exact List.Pairwise.nil
  | some t => exact (planted.wellFormed t rfl).ordered.rows_sorted

/-- A content stays where it was committed. -/
theorem Snapshot.Holds.kept {sn : Snapshot} {file : File} (holds : sn.Holds env c) (kept : sn.Kept file) :
    c.Planted sn.content.pageSize (diskPage env sn.content.pageSize file) sn.content.pageCount
      sn.content.rootPageId :=
  holds.mono (fun _ _ low below found => kept.diskPage low below found) (Nat.le_refl _)

/-! ## The next ids -/

theorem Tree.rooted_next (part : Part I64 (Tree h) × Nat) : part.2 ≤ (Tree.rooted part).2 := by
  obtain ⟨p, n⟩ := part
  cases p with
  | one t => exact Nat.le_refl n
  | two a separator b => exact Nat.le_succ n

theorem Tree.replaceLeaf_next (ps : PageSize) (key : I64) (t : Tree h) (part : Part I64 Leaf × Nat) :
    part.2 ≤ (t.replaceLeaf ps key part).2 :=
  Nat.le_trans (Tree.pages_graft key (maxInteriorEntries ps.bytes) part.1 t part.2).1 (Tree.rooted_next _)

theorem Leaf.insertPart_next (ps : PageSize) (leaf : Leaf) (index : Nat) (e : Entry) (n : Nat) :
    n < (leaf.insertPart ps index e n).2 := by
  unfold Leaf.insertPart
  split
  · exact Nat.lt_succ_self n
  · exact Nat.lt_add_of_pos_right (by decide)

theorem Content.put_next (ps : PageSize) (key : I64) (row : Row) (encoded : Bytes)
    (c : Content) (n : Nat) :
    n < (c.put ps key row encoded n).2 := by
  cases c with
  | none => exact Nat.lt_succ_of_le (Nat.le_add_right n _)
  | some t =>
    refine Nat.lt_of_le_of_lt (Nat.le_add_right n (rowEntry ps key row encoded n).ids.length) ?_
    exact Nat.lt_of_lt_of_le (Leaf.insertPart_next ps _ _ _ _) (Tree.replaceLeaf_next ps key t.2 _)

theorem Tree.dropRow_next (ps : PageSize) (key : I64) (t : Tree h) (n : Nat) :
    n < (t.dropRow ps key n).2 :=
  Nat.lt_of_lt_of_le (Nat.lt_succ_self n) (Tree.replaceLeaf_next ps key t (_, n + 1))

/-! ## Calls on a content -/

section programs

variable {o : Origin} {E : Stop → Prop} {fuel : Nat}

theorem Tree.WellFormed.scan_reads (wellFormed : t.WellFormed nested o.start.pager.pageSize v n)
    (root : o.start.pager.rootPageId = t.id) (deep : h < fuel) :
    Reads env o v n' (Btree.scan env fuel) (· = t.rows) E := by
  rw [Btree.scan]
  refine Reads.rootPageId ?_
  rw [if_neg (wellFormed.root_ne root), root]
  exact wellFormed.stored.scanNode deep []

theorem Tree.WellFormed.get_reads (wellFormed : t.WellFormed nested o.start.pager.pageSize v n)
    (root : o.start.pager.rootPageId = t.id) (key : I64) (deep : h < fuel) :
    Reads env o v n' (Btree.get env fuel key) (· = t.rows.lookup key) E := by
  obtain ⟨b, e, within, -⟩ := wellFormed.ordered.leaf key.between.1 key.between.2
  rw [Btree.get]
  refine Reads.rootPageId ?_
  rw [if_neg (wellFormed.root_ne root), root]
  refine (wellFormed.stored.getFrom key within deep).imp fun found exact => Option.ext fun row => ?_
  exact ((exact row).trans wellFormed.ordered.mem_rows.symm).trans wellFormed.ordered.lookup.symm

theorem buildRowCell_error {row : Row} {e : Stop} (refused : row.encode key = .error e) :
    buildRowCell env key row = throw e := by
  rw [buildRowCell, refused]
  rfl

theorem Tree.WellFormed.insert_unencodable {row : Row} {e : Stop}
    (wellFormed : t.WellFormed nested o.start.pager.pageSize v n)
    (root : o.start.pager.rootPageId = t.id) (deep : h < fuel) (absent : ∀ row, (key, row) ∉ t.rows)
    (refused : row.encode key = .error e) :
    Reads env o v n (Btree.insert env fuel key row) (fun _ => False) (· = e) := by
  rw [Btree.insert_locate]
  refine Reads.rootPageId ?_
  rw [if_neg (wellFormed.root_ne root), root]
  refine Reads.bind (wellFormed.locate (Or.inl deep)) ?_
  rintro ⟨path, leafId, leafBuf, result⟩ ⟨-, -, -, cut⟩
  obtain ⟨left, right, -, rfl⟩ := wellFormed.ordered.cut_absent absent cut
  rw [Btree.insertFound, buildRowCell_error refused]
  exact Reads.throw rfl

theorem Tree.WellFormed.update_unencodable {old row : Row} {e : Stop}
    (wellFormed : t.WellFormed nested o.start.pager.pageSize v n)
    (root : o.start.pager.rootPageId = t.id) (deep : h < fuel) (present : (key, old) ∈ t.rows)
    (refused : row.encode key = .error e) :
    Reads env o v n (Btree.update env fuel key row) (fun _ => False) (· = e) := by
  rw [Btree.update_locate]
  refine Reads.rootPageId ?_
  rw [if_neg (wellFormed.root_ne root), root]
  refine Reads.bind (wellFormed.locate (Or.inl deep)) ?_
  rintro ⟨path, leafId, leafBuf, result⟩ ⟨-, -, -, cut⟩
  obtain ⟨left, old, right, -, -, rfl⟩ := wellFormed.ordered.cut_present present cut
  rw [Btree.updateFound, buildRowCell_error refused]
  exact Reads.throw rfl

/-- The cell of a row fits an empty leaf. -/
theorem first_fits {cell : LeafCell} (fits : cell.Fits ps.maxLocal) :
    5 + 2 * (0 + 1) + cell.size ≤ ps.contentEnd := by
  have size := LeafCell.size_le fits
  have sizes := ps.bounds
  simp only [PageSize.contentEnd]
  omega

theorem Leaf.fresh_pages (ps : PageSize) (id : Nat) (e : Entry) :
    (Leaf.fresh ps id [e]).pages = id :: e.ids := by
  simp [Leaf.fresh, Leaf.pages]

/-- The pages hold the content with the row put. -/
def Content.Puts (ps : PageSize) (c : Content) (key : I64) (row : Row) (encoded : Bytes)
    (n root : Nat) (v : Pages) (n' : Nat) : Prop :=
  ∃ t', c.put ps key row encoded n = (t', n') ∧ t'.2.rows = bindRow key row c.rows ∧
    Content.Planted ps v n' root (some t')

theorem Content.planted_some {root : Nat} (same : t.id = root) (wellFormed : t.WellFormed true ps v n) :
    Content.Planted ps v n root (some ⟨h, t⟩) := by
  refine ⟨same, fun t' member => ?_⟩
  cases member
  exact wellFormed

/-- The first row makes a leaf of its own. -/
theorem insertFirst_finishes (fresh : ∀ id, o.start.nextPageId ≤ id → o.writable id)
    (two : firstDataPageId ≤ n) {row : Row} {encoded : Bytes} (encodes : row.encode key = .ok encoded)
    (small : encoded.length ≤ u32Max) :
    Finishes env o v n (Btree.insertFirst env key row)
      (fun _ => Content.Puts o.start.pager.pageSize none key row encoded n) E := by
  rw [Btree.insertFirst]
  refine Finishes.bind (newEntry_runs fresh encodes small (Nat.lt_of_lt_of_le (by decide) two)) ?_
  -- the chain is written first, then the leaf, which is the root
  rintro bytes v' n' grown ⟨rfl, rfl, entry⟩
  obtain ⟨buf, init, page⟩ := initLeaf_ok env.profile o.start.pager.pageSize
  obtain ⟨buf', inserted, page'⟩ :=
    page.insertCellAt_ok env.profile (Nat.le_refl 0) entry.fits (first_fits entry.fits)
  refine Finishes.pageSize (Finishes.ok init
    (Finishes.ok inserted (Finishes.put fresh page'.len fun small' => ?_)))
  have positive : 0 < n := Nat.lt_of_lt_of_le (by decide) two
  simp only [u32Max] at small'
  refine Finishes.commit ⟨_, rfl, rfl,
    Content.planted_some rfl ⟨⟨⟨buf', withPage_same, ?_⟩, fun e member => ?_⟩, trivial, ?_, ?_, ?_⟩⟩
  · show LeafPage _ buf' (_ - cellsLen [_]) [_]
    rw [cellsLen, List.map_singleton, List.sum_singleton]
    exact page'
  · obtain rfl := List.mem_singleton.mp member
    refine entry.stored.mono fun id inIds content known => (withPage_other ?_).trans known
    have := (entry.range id inIds).2
    omega
  · refine ⟨by decide, List.pairwise_singleton _ _, fun e member => ?_⟩
    obtain rfl := List.mem_singleton.mp member
    exact key.between
  · show (Leaf.fresh _ _ [_]).pages.Nodup
    rw [Leaf.fresh_pages]
    refine List.nodup_cons.mpr ⟨fun inIds => ?_, entry.distinct⟩
    have := (entry.range _ inIds).2
    omega
  · show ∀ id ∈ (Leaf.fresh _ _ [_]).pages, _
    rw [Leaf.fresh_pages]
    intro id member
    rcases List.mem_cons.mp member with rfl | inIds
    · omega
    · have := entry.range id inIds
      omega

theorem run_insert (env : Env) (fuel : Nat) (key : I64) (row : Row) :
    (Call.insert key row).run env fuel = (Btree.insert env fuel key row >>= fun _ => pure .done) := by
  simp only [Call.run, Database.insert, bind_assoc, pure_bind]

theorem run_update (env : Env) (fuel : Nat) (key : I64) (row : Row) :
    (Call.update key row).run env fuel = (Btree.update env fuel key row >>= fun _ => pure .done) := by
  simp only [Call.run, Database.update, bind_assoc, pure_bind]

theorem run_delete (env : Env) (fuel : Nat) (key : I64) :
    (Call.delete key).run env fuel =
      (Btree.delete env fuel key >>= fun removed => pure (.removed removed.2)) := by
  simp only [Call.run, Database.delete, bind_assoc, pure_bind]

/-- What no tree answers. -/
theorem empty_reads {α : Type} {x : PoolM α} {y : Nat → PoolM α} {Q : α → Prop}
    (root : o.start.pager.rootPageId = emptyTreeRoot) (empty : Reads env o v n x Q E) :
    Reads env o v n (BufferPool.rootPageId >>= fun root => if root = emptyTreeRoot then x
      else y root) Q E := by
  refine Reads.rootPageId ?_
  rw [if_pos root]
  exact empty

theorem map_error {α β : Type} {r : Res α} {f : α → β} {e : Stop} (error : r.map f = .error e) :
    r = .error e := by
  cases r with
  | ok a => cases error
  | error e' => injection error with same; rw [same]

theorem map_ok {α β : Type} {r : Res α} {f : α → β} {b : β} (ok : r.map f = .ok b) :
    ∃ a, r = .ok a ∧ f a = b := by
  cases r with
  | ok a => injection ok with same; exact ⟨a, rfl, same⟩
  | error e => cases ok

/-- What follows a program that never returns. -/
theorem Reads.never {α β : Type} {x : PoolM α} {f : α → PoolM β}
    (h : Reads env o v n x (fun _ => False) E) :
    Reads env o v n (x >>= f) (fun _ => False) E := Reads.bind h fun _ none => none.elim

theorem Reads.finishes {α : Type} {x : PoolM α} {R : α → Nat → Pages → Nat → Prop}
    (h : Reads env o v n x (fun _ => False) E) : Finishes env o v n x R E := by
  have whole : Finishes env o v n (x >>= Pure.pure) R E := Finishes.bind_reads h fun _ none => none.elim
  rwa [bind_pure] at whole

/-- A call that is refused changes nothing. -/
theorem Content.Planted.refused {call : Call} {e : Stop}
    (planted : c.Planted o.start.pager.pageSize v n o.start.pager.rootPageId) (deep : c.height < fuel)
    (refused : c.answer call = .error e) :
    Reads env o v n (call.run env fuel) (fun _ => False) (· = e) := by
  -- in an empty tree only a row without an encoding, or a key that is not bound, is refused
  cases c with
  | none =>
    have root : o.start.pager.rootPageId = emptyTreeRoot := planted.root.symm
    cases call with
    | insert key row =>
      rw [run_insert, Btree.insert_eq]
      refine Reads.never (empty_reads root ?_)
      rw [Btree.insertFirst, buildRowCell_error (map_error refused)]
      exact Reads.throw rfl
    | get key => cases refused
    | update key row =>
      obtain rfl : Stop.permanent (.keyNotFound key) = e := Except.error.inj refused
      rw [run_update, Btree.update_eq]
      exact Reads.never (empty_reads root (Reads.throw rfl))
    | delete key =>
      obtain rfl : Stop.permanent (.keyNotFound key) = e := Except.error.inj refused
      rw [run_delete, Btree.delete_eq]
      exact Reads.never (empty_reads root (Reads.throw rfl))
    | scan => cases refused
  | some t =>
    obtain ⟨h, t⟩ := t
    have wellFormed : t.WellFormed true o.start.pager.pageSize v n := planted.wellFormed _ rfl
    have root : o.start.pager.rootPageId = t.id := planted.root.symm
    -- the rows of the content are those of the tree
    have bound : ∀ key, (t.rows.lookup key).isSome → ∃ row, (key, row) ∈ t.rows := fun key isSome => by
      obtain ⟨row, found⟩ := Option.isSome_iff_exists.mp isSome
      exact ⟨row, wellFormed.ordered.lookup.mp found⟩
    have free : ∀ key, ¬ (t.rows.lookup key).isSome → ∀ row, (key, row) ∉ t.rows := fun key isNone =>
      wellFormed.ordered.lookup_none.mp (Option.not_isSome_iff_eq_none.mp isNone)
    cases call with
    | insert key row =>
      rw [run_insert]
      refine Reads.never ?_
      by_cases present : (t.rows.lookup key).isSome
      · obtain rfl : Stop.permanent (.keyAlreadyExists key) = e :=
          Except.error.inj ((if_pos present).symm.trans refused)
        obtain ⟨old, member⟩ := bound key present
        exact wellFormed.insert_present root deep member
      · exact wellFormed.insert_unencodable root deep (free key present)
          (map_error ((if_neg present).symm.trans refused))
    | get key => cases refused
    | update key row =>
      rw [run_update]
      refine Reads.never ?_
      by_cases present : (t.rows.lookup key).isSome
      · obtain ⟨old, member⟩ := bound key present
        exact wellFormed.update_unencodable root deep member
          (map_error ((if_pos present).symm.trans refused))
      · obtain rfl : Stop.permanent (.keyNotFound key) = e :=
          Except.error.inj ((if_neg present).symm.trans refused)
        exact wellFormed.update_absent root deep (free key present)
    | delete key =>
      rw [run_delete]
      refine Reads.never ?_
      cases found : t.rows.lookup key with
      | some row =>
        have same : Content.answer (some ⟨h, t⟩) (.delete key) = .ok (.removed row) := by
          rw [Content.answer, show Content.rows (some ⟨h, t⟩) = t.rows from rfl, found]
        cases same.symm.trans refused
      | none =>
        have same : Content.answer (some ⟨h, t⟩) (.delete key) =
          .error (.permanent (.keyNotFound key)) := by
          rw [Content.answer, show Content.rows (some ⟨h, t⟩) = t.rows from rfl, found]
        obtain rfl : Stop.permanent (.keyNotFound key) = e := Except.error.inj (same.symm.trans refused)
        exact wellFormed.delete_absent root deep (wellFormed.ordered.lookup_none.mp found)
    | scan => cases refused

/-- A lookup or a scan. -/
theorem Content.Planted.looked {call : Call}
    (planted : c.Planted o.start.pager.pageSize v n o.start.pager.rootPageId) (deep : c.height < fuel)
    (looks : ¬ call.Mutates) :
    Reads env o v n (call.run env fuel) (fun reply => c.answer call = .ok reply) E := by
  cases c with
  | none =>
    have root : o.start.pager.rootPageId = emptyTreeRoot := planted.root.symm
    cases call with
    | get key =>
      exact Reads.map (Q := (· = none)) (empty_reads root (Reads.pure rfl)) fun _ same => by
        rw [same]; rfl
    | scan =>
      exact Reads.map (Q := (· = [])) (empty_reads root (Reads.pure rfl)) fun _ same => by rw [same]; rfl
    | insert key row => exact absurd trivial looks
    | update key row => exact absurd trivial looks
    | delete key => exact absurd trivial looks
  | some t =>
    obtain ⟨h, t⟩ := t
    have wellFormed : t.WellFormed true o.start.pager.pageSize v n := planted.wellFormed _ rfl
    have root : o.start.pager.rootPageId = t.id := planted.root.symm
    cases call with
    | get key => exact Reads.map (wellFormed.get_reads root key deep) fun _ same => by rw [same]; rfl
    | scan => exact Reads.map (wellFormed.scan_reads root deep) fun _ same => by rw [same]; rfl
    | insert key row => exact absurd trivial looks
    | update key row => exact absurd trivial looks
    | delete key => exact absurd trivial looks

theorem Content.after_insert {row : Row} {encoded : Bytes} (encodes : row.encode key = .ok encoded) :
    c.after ps n (.insert key row) = some (c.put ps key row encoded n).1 := by
  simp only [Content.after, encodes]

theorem Content.after_update {row : Row} {encoded : Bytes} (encodes : row.encode key = .ok encoded) :
    c.after ps n (.update key row) = some (c.put ps key row encoded n).1 := by
  simp only [Content.after, encodes]

/-- An insertion that is not refused. -/
theorem Content.Planted.inserted {row : Row} {encoded : Bytes}
    (fresh : ∀ id, o.start.nextPageId ≤ id → o.writable id) (two : firstDataPageId ≤ n)
    (planted : c.Planted o.start.pager.pageSize v n o.start.pager.rootPageId) (deep : c.height < fuel)
    (encodes : row.encode key = .ok encoded) (small : encoded.length ≤ u32Max)
    (absent : c.rows.lookup key = none) (fits : c.SplitsFit o.start.pager.pageSize (.insert key row)) :
    Finishes env o v n (Btree.insert env fuel key row)
      (fun _ => c.Puts o.start.pager.pageSize key row encoded n) E := by
  cases c with
  | none =>
    have root : o.start.pager.rootPageId = emptyTreeRoot := planted.root.symm
    rw [Btree.insert_eq]
    refine Finishes.rootPageId ?_
    rw [if_pos root]
    exact insertFirst_finishes fresh two encodes small
  | some t =>
    obtain ⟨h, t⟩ := t
    have wellFormed : t.WellFormed true o.start.pager.pageSize v n := planted.wellFormed _ rfl
    have room := fits ⟨h, t⟩ rfl absent encoded encodes
    refine (wellFormed.insert_finishes fresh planted.root.symm (Or.inl deep)
      (wellFormed.ordered.lookup_none.mp absent) encodes small
      room (Or.inl rfl)).imp ?_
    rintro result root v' n' ⟨-, h', t', made, same, wellFormed', rows, -⟩
    exact ⟨⟨h', t'⟩, made, rows, Content.planted_some same wellFormed'⟩

/-- An update that is not refused. -/
theorem Content.Planted.updated {row : Row} {encoded : Bytes}
    (fresh : ∀ id, o.start.nextPageId ≤ id → o.writable id)
    (planted : c.Planted o.start.pager.pageSize v n o.start.pager.rootPageId) (deep : c.height < fuel)
    (encodes : row.encode key = .ok encoded) (small : encoded.length ≤ u32Max)
    (present : (c.rows.lookup key).isSome) (fits : c.SplitsFit o.start.pager.pageSize (.update key row)) :
    Finishes env o v n (Btree.update env fuel key row)
      (fun _ => c.Puts o.start.pager.pageSize key row encoded n) E := by
  obtain ⟨old, found⟩ := Option.isSome_iff_exists.mp present
  cases c with
  | none => cases found
  | some t =>
    obtain ⟨h, t⟩ := t
    have wellFormed : t.WellFormed true o.start.pager.pageSize v n := planted.wellFormed _ rfl
    have room := fits ⟨h, t⟩ rfl (fun none => by cases found.symm.trans none) encoded encodes
    refine (wellFormed.update_finishes fresh planted.root.symm (Or.inl deep)
      ⟨old, wellFormed.ordered.lookup.mp found⟩ encodes small
      room (Or.inl rfl)).imp ?_
    rintro result root v' n' ⟨-, h', t', made, same, wellFormed', rows, -⟩
    exact ⟨⟨h', t'⟩, made, rows, Content.planted_some same wellFormed'⟩

/-- A deletion that is not refused. -/
theorem Content.Planted.deleted {row : Row} (fresh : ∀ id, o.start.nextPageId ≤ id → o.writable id)
    (planted : c.Planted o.start.pager.pageSize v n o.start.pager.rootPageId) (deep : c.height < fuel)
    (present : c.rows.lookup key = some row) :
    Finishes env o v n (Btree.delete env fuel key) (fun result root v' n' => result.2 = row ∧ n < n' ∧
      (c.after o.start.pager.pageSize n (.delete key)).rows = unbindRow key c.rows ∧
      (c.after o.start.pager.pageSize n (.delete key)).Planted o.start.pager.pageSize v' n' root) E := by
  cases c with
  | none => cases present
  | some t =>
    obtain ⟨h, t⟩ := t
    have wellFormed : t.WellFormed true o.start.pager.pageSize v n := planted.wellFormed _ rfl
    refine (wellFormed.delete_finishes fresh planted.root.symm (Or.inl deep)
      (wellFormed.ordered.lookup.mp present)).imp ?_
    rintro result root v' n' ⟨rfl, t', made, same, wellFormed', rows, -⟩
    have next := t.dropRow_next o.start.pager.pageSize key n
    have after : Content.after o.start.pager.pageSize n (some ⟨h, t⟩) (.delete key) =
      some (t.dropRow o.start.pager.pageSize key n).1 := rfl
    rw [made] at next after
    rw [after]
    exact ⟨rfl, next, rows, Content.planted_some same wellFormed'⟩

/-- A mutation is refused, or commits the content that is to follow. -/
theorem Content.Planted.changed {call : Call} (fresh : ∀ id, o.start.nextPageId ≤ id → o.writable id)
    (two : firstDataPageId ≤ n) (planted : c.Planted o.start.pager.pageSize v n
      o.start.pager.rootPageId) (deep : c.height < fuel) (mutates : call.Mutates)
    (sized : call.Sized) (fits : c.SplitsFit o.start.pager.pageSize call) :
    Finishes env o v n (call.run env fuel) (fun reply root v' n' => c.answer call = .ok reply ∧ n < n' ∧
      (c.after o.start.pager.pageSize n call).rows = call.rowsAfter c.rows ∧
      (c.after o.start.pager.pageSize n call).Planted o.start.pager.pageSize v' n' root)
        (fun e => c.answer call = .error e) := by
  -- what the content refuses the tree refuses; what it answers the tree does
  cases answer : c.answer call with
  | error e => exact (Reads.errors (planted.refused deep answer) fun _ same => by rw [same]).finishes
  | ok reply =>
    cases call with
    | insert key row =>
      by_cases present : (c.rows.lookup key).isSome
      · cases (if_pos present).symm.trans answer
      · obtain ⟨encoded, encodes, rfl⟩ := map_ok ((if_neg present).symm.trans answer)
        rw [run_insert, Content.after_insert encodes]
        refine (planted.inserted fresh two deep encodes (sized encoded encodes)
          (Option.not_isSome_iff_eq_none.mp present) fits).map _ ?_
        rintro result root v' n' ⟨t', made, rows, planted'⟩
        have next := c.put_next o.start.pager.pageSize key row encoded n
        rw [made] at next ⊢
        exact ⟨rfl, next, rows, planted'⟩
    | update key row =>
      by_cases present : (c.rows.lookup key).isSome
      · obtain ⟨encoded, encodes, rfl⟩ := map_ok ((if_pos present).symm.trans answer)
        rw [run_update, Content.after_update encodes]
        refine (planted.updated fresh deep encodes (sized encoded encodes) present fits).map _ ?_
        rintro result root v' n' ⟨t', made, rows, planted'⟩
        have next := c.put_next o.start.pager.pageSize key row encoded n
        rw [made] at next ⊢
        exact ⟨rfl, next, rows, planted'⟩
      · cases (if_neg present).symm.trans answer
    | delete key =>
      rw [run_delete]
      rw [Content.answer] at answer
      cases found : c.rows.lookup key with
      | none =>
        rw [found] at answer
        cases answer
      | some row =>
        rw [found] at answer
        obtain rfl := Except.ok.inj answer
        refine (planted.deleted fresh deep found).map _ ?_
        rintro result root v' n' ⟨rfl, holds⟩
        exact ⟨rfl, holds⟩
    | get key => exact absurd mutates id
    | scan => exact absurd mutates id

end programs

end Pinax
