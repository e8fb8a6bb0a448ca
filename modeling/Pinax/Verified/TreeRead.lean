import Pinax.Verified.Tree

/-! # Reading a stored tree

`Stored ps v t` says that the known pages `v` hold the tree `t`.  Whatever they hold besides, `get`,
`descend_path` and `scan` then find what `t` says.
-/

namespace Pinax

open SearchNode (Node Within)

variable {ps : PageSize} {v v' : Pages}

/-- The cell's payload can be reassembled and decodes to the row. -/
def Entry.Stored (ps : PageSize) (v : Pages) (e : Entry) : Prop :=
  ∃ payload, Reassembles ps v e.cell e.ids payload ∧ Row.decode payload = .ok e.row

structure Leaf.Stored (ps : PageSize) (v : Pages) (leaf : Leaf) : Prop where
  page : ∃ buf, v leaf.id = some (body buf) ∧ LeafPage ps buf leaf.start leaf.cells
  entries : ∀ e ∈ leaf.entries, e.Stored ps v

def Tree.Stored (ps : PageSize) (v : Pages) : {h : Nat} → Tree h → Prop
  | 0, t => Leaf.Stored ps v t
  | _ + 1, t => (∃ buf, v (Inner.id t) = some (body buf) ∧ InteriorPage ps buf (t.node.map Tree.id)) ∧
      ∀ c ∈ t.node.children, Stored ps v c

theorem Entry.Stored.mono {e : Entry} (stored : e.Stored ps v)
    (more : ∀ id ∈ e.ids, ∀ content, v id = some content → v' id = some content) : e.Stored ps v' := by
  obtain ⟨payload, whole, decodes⟩ := stored
  exact ⟨payload, whole.mono more, decodes⟩

theorem Leaf.Stored.mono {leaf : Leaf} (stored : leaf.Stored ps v)
    (more : ∀ id ∈ leaf.pages, ∀ content, v id = some content → v' id = some content) :
    leaf.Stored ps v' := by
  obtain ⟨buf, known, page⟩ := stored.page
  refine ⟨⟨buf, more _ List.mem_cons_self _ known, page⟩,
    fun e member => (stored.entries e member).mono fun id inside => ?_⟩
  exact more id (List.mem_cons_of_mem _ (List.mem_flatMap.mpr ⟨e, member, inside⟩))

/-- Only the pages of a tree matter. -/
theorem Tree.Stored.mono {h : Nat} {t : Tree h} (stored : t.Stored ps v)
    (more : ∀ id ∈ t.pages, ∀ content, v id = some content → v' id = some content) : t.Stored ps v' := by
  induction h with
  | zero => exact Leaf.Stored.mono stored more
  | succ h ih =>
    obtain ⟨⟨buf, known, page⟩, children⟩ := stored
    exact ⟨⟨buf, more _ List.mem_cons_self _ known, page⟩,
      fun c child => ih (children c child) fun id member => more id (pages_child child member)⟩

/-! ## The leaf of a key -/

/-- A leaf cut where `leaf_search` ends: at the key's cell, or between the smaller and the greater
keys. -/
inductive Leaf.Cut (leaf : Leaf) (key : I64) : SearchResult → Prop
  | found {left right : List Entry} {e : Entry} (split : leaf.entries = left ++ e :: right)
      (same : e.cell.key = key) :
      leaf.Cut key (.found left.length)
  | insertAt {left right : List Entry} (split : leaf.entries = left ++ right)
      (below : ∀ e ∈ left, e.key < key.val)
      (above : ∀ e ∈ right, key.val < e.key) : leaf.Cut key (.insertAt left.length)

theorem Leaf.keys_eq (leaf : Leaf) :
    leaf.cells.map LeafCell.key = leaf.entries.map fun e => e.cell.key := by
  rw [Leaf.cells, List.map_map]
  rfl

theorem Leaf.search {leaf : Leaf} {buf : Bytes} {lo hi : Int}
    (page : LeafPage ps buf leaf.start leaf.cells)
    (within : Within Entry.key leaf.entries lo hi) (key : I64) :
    ∃ result, leafSearch buf key = .ok result ∧ leaf.Cut key result := by
  let index := LeafPage.position key (leaf.cells.map LeafCell.key)
  have sorted : (leaf.cells.map LeafCell.key).Pairwise fun a b => a.val < b.val := by
    rw [leaf.keys_eq, List.pairwise_map]
    exact within.sorted
  have search : leafSearch buf key = _ := page.leafSearch_eq key sorted
  have keyAt : ∀ {i : Nat} {e : Entry}, leaf.entries[i]? = some e →
    (leaf.cells.map LeafCell.key)[i]? = some e.cell.key :=
    fun found => by rw [leaf.keys_eq, List.getElem?_map, found]; rfl
  have le : index ≤ leaf.entries.length := by
    have := LeafPage.position_le key (leaf.cells.map LeafCell.key)
    rwa [leaf.keys_eq, List.length_map, ← leaf.keys_eq] at this
  have split : leaf.entries = leaf.entries.take index ++ leaf.entries.drop index :=
    (List.take_append_drop _ _).symm
  have len : (leaf.entries.take index).length = index := by rw [List.length_take]; omega
  -- the entries before the position have smaller keys, as the search looked at each of them
  have below : ∀ e ∈ leaf.entries.take index, e.key < key.val := by
    intro e member
    obtain ⟨i, found⟩ := List.mem_iff_getElem?.mp member
    have before : i < index := by
      have := (List.getElem?_eq_some_iff.mp found).1
      omega
    rw [List.getElem?_take_of_lt before] at found
    exact LeafPage.lt_of_lt_position before (keyAt found)
  refine ⟨_, search, ?_⟩
  cases rest : leaf.entries.drop index with
  | nil =>
    rw [rest] at split
    have absent : leaf.cells[index]? = none := by
      rw [Leaf.cells, List.getElem?_eq_none (by rw [List.length_map]; exact List.drop_eq_nil_iff.mp rest)]
    rw [show LeafPage.position key (leaf.cells.map LeafCell.key) = index from rfl, absent,
      if_neg (by simp), ← len]
    exact .insertAt split below fun e member => absurd member List.not_mem_nil
  | cons e right =>
    rw [rest] at split
    have found : leaf.entries[index]? = some e := by
      have := congrArg List.head? rest
      rwa [List.head?_drop] at this
    have high := LeafPage.le_at_position (keyAt found)
    have cell : leaf.cells[index]?.map LeafCell.key = some e.cell.key := by
      rw [Leaf.cells, List.getElem?_map, found]
      rfl
    rw [show LeafPage.position key (leaf.cells.map LeafCell.key) = index from rfl, cell]
    -- the entry at the position has the key, or a greater one
    by_cases same : e.cell.key = key
    · rw [if_pos (congrArg some same), ← len]
      exact .found split same
    · rw [if_neg fun equal => same (Option.some.inj equal), ← len]
      have more : key.val < e.key := lt_of_le_of_ne high fun equal => same (I64.ext equal.symm)
      refine .insertAt split below fun x member => ?_
      rcases List.mem_cons.mp member with rfl | later
      · exact more
      · have sorted := within.sorted
        rw [split] at sorted
        exact lt_trans more (List.rel_of_pairwise_cons (List.pairwise_append.mp sorted).2.1 later)

section programs

variable {env : Env} {o : Origin} {n : Nat} {E : Stop → Prop}

/-- Reassembling and decoding the cell of an entry. -/
theorem Entry.Stored.reads {α : Type} {e : Entry} {Q : α → Prop} {f : Row → PoolM α}
    (stored : e.Stored o.start.pager.pageSize v) (rest : Reads env o v n (f e.row) Q E) :
    Reads env o v n (reassemble env e.cell >>= fun full =>
      (liftM (Row.decode full) : PoolM Row) >>= f) Q E := by
  obtain ⟨payload, whole, decodes⟩ := stored
  refine Reads.bind (reassemble_reads whole) ?_
  rintro full rfl
  exact Reads.ok decodes rest

/-- Reading a leaf's page. -/
theorem Leaf.Stored.get {α : Type} {leaf : Leaf} {f : Bytes → PoolM α} {Q : α → Prop}
    (stored : leaf.Stored o.start.pager.pageSize v)
    (rest : ∀ buf, LeafPage o.start.pager.pageSize buf leaf.start leaf.cells →
      Reads env o v n (f buf) Q E) :
    Reads env o v n (BufferPool.get env leaf.id >>= f) Q E := by
  obtain ⟨buf, known, page⟩ := stored.page
  exact Reads.get known fun buf' len same => rest buf' (page.congr same len)

/-- Reading an interior page. -/
theorem Tree.Stored.get {h : Nat} {α : Type} {t : Tree (h + 1)} {f : Bytes → PoolM α} {Q : α → Prop}
    (stored : t.Stored o.start.pager.pageSize v)
    (rest : ∀ buf, InteriorPage o.start.pager.pageSize buf (t.node.map Tree.id) →
      Reads env o v n (f buf) Q E) :
    Reads env o v n (BufferPool.get env t.id >>= f) Q E := by
  obtain ⟨⟨buf, known, page⟩, -⟩ := stored
  exact Reads.get known fun buf' len same => rest buf' (page.congr same len)

theorem Tree.Stored.child {h : Nat} {t : Tree (h + 1)} (stored : t.Stored ps v) (key : I64) :
    (t.child key).Stored ps v :=
  stored.2 _ (Tree.child_mem key t)

/-- The child id an interior page routes a key to. -/
theorem Tree.route_id {h : Nat} {t : Tree (h + 1)} {buf : Bytes}
    (page : InteriorPage ps buf (t.node.map Tree.id)) (key : I64) :
    interiorFindChildForKey buf key = .ok (t.child key).id := by
  rw [page.findChildForKey_eq key, Node.route_map]
  rfl

theorem Tree.Stored.leaf {h : Nat} {t : Tree h} (stored : t.Stored ps v) (key : I64) :
    (t.leafFor key).Stored ps v := by
  induction h with
  | zero => exact stored
  | succ h ih => exact ih (stored.child key)

/-- `descend_path` follows the tree down to the key's leaf. -/
theorem Tree.Stored.descend {h : Nat} {t : Tree h} (stored : t.Stored o.start.pager.pageSize v)
    (key : I64) {fuel : Nat} (deep : h < fuel ∨ E .running) (path : List Nat) :
    Reads env o v n (descendPathFrom env fuel t.id key path) (· = path ++ t.path key) E := by
  induction h generalizing fuel path with
  | zero =>
    cases fuel with
    | zero => exact Reads.throw (deep.resolve_left (Nat.not_lt_zero _))
    | succ fuel =>
      rw [descendPathFrom]
      refine Leaf.Stored.get stored fun buf page => Reads.ok page.readType ?_
      rw [if_pos rfl]
      exact Reads.pure (List.append_nil path).symm
  | succ h ih =>
    cases fuel with
    | zero => exact Reads.throw (deep.resolve_left (Nat.not_lt_zero _))
    | succ fuel =>
      rw [descendPathFrom]
      refine stored.get fun buf page => Reads.ok page.readType ?_
      rw [if_neg (by decide)]
      refine Reads.ok (page.expectPageType t.id) (Reads.ok (Tree.route_id page key) ?_)
      refine (ih (stored.child key) (deep.imp_left Nat.lt_of_succ_lt_succ)
        (path ++ [(t.child key).id])).imp ?_
      rintro found rfl
      rw [List.append_assoc]
      rfl

theorem Tree.getLast?_path {h : Nat} (t : Tree h) (key : I64) :
    (t.id :: t.path key).getLast? = some (t.leafFor key).id := by
  induction h with
  | zero => rfl
  | succ h ih => rw [path, List.getLast?_cons_cons, ih]; rfl

/-- `get` finds the row the tree holds under the key. -/
theorem Tree.Stored.getFrom {h : Nat} {t : Tree h}
    (stored : t.Stored o.start.pager.pageSize v) (key : I64) {lo hi : Int}
    (within : Within Entry.key (t.leafFor key).entries lo hi) {fuel : Nat} (deep : h < fuel) :
    Reads env o v n (Btree.getFrom env fuel t.id key)
      (fun found => ∀ row, found = some row ↔ ∃ e ∈ (t.leafFor key).entries, e.cell.key = key ∧
        e.row = row) E := by
  induction h generalizing fuel with
  | zero =>
    obtain ⟨fuel, rfl⟩ : ∃ k, fuel = k + 1 := ⟨fuel - 1, by omega⟩
    have here : (t.leafFor key).Stored o.start.pager.pageSize v := stored
    show Reads env o v n (Btree.getFrom env (fuel + 1) (t.leafFor key).id key) _ E
    generalize t.leafFor key = leaf at here within ⊢
    rw [Btree.getFrom_succ]
    refine Reads.pageSize (here.get fun buf page => Reads.ok page.readType ?_)
    rw [if_pos rfl]
    obtain ⟨result, search, cut⟩ := Leaf.search page within key
    refine Reads.ok search ?_
    cases cut with
    | @found left right e split same =>
      -- the search names the cell, and the entry there has the key
      have cell : leaf.cells[left.length]? = some e.cell := by
        rw [Leaf.cells, split]
        simp
      have member : e ∈ leaf.entries := by rw [split]; simp
      refine Reads.ok (page.cellAt_eq cell) ((here.entries e member).reads (Reads.pure fun row => ?_))
      rw [Option.some.injEq]
      refine ⟨fun equal => ⟨e, member, same, equal⟩, ?_⟩
      rintro ⟨e', member', same', rfl⟩
      rw [within.unique member member' (congrArg I64.val (same.trans same'.symm))]
    | @insertAt left right split below above =>
      -- no entry has the key: those to the left have smaller ones, those to the right greater
      refine Reads.pure fun row => ⟨fun found => (by cases found), ?_⟩
      rintro ⟨e, member, same, -⟩
      have equal : e.key = key.val := congrArg I64.val same
      rw [split] at member
      rcases List.mem_append.mp member with inLeft | inRight
      · exact absurd (below e inLeft) (by omega)
      · exact absurd (above e inRight) (by omega)
  | succ h ih =>
    obtain ⟨fuel, rfl⟩ : ∃ k, fuel = k + 1 := ⟨fuel - 1, by omega⟩
    rw [Btree.getFrom_succ]
    refine Reads.pageSize (stored.get fun buf page => Reads.ok page.readType ?_)
    rw [if_neg (by decide)]
    refine Reads.ok (page.expectPageType t.id) (Reads.ok (Tree.route_id page key) ?_)
    -- the page routes the key to the child the tree does
    exact ih (stored.child key) within (by omega)

/-! ## Scanning -/

theorem Leaf.Stored.scan {leaf : Leaf} (stored : leaf.Stored o.start.pager.pageSize v) {buf : Bytes}
    (page : LeafPage o.start.pager.pageSize buf leaf.start leaf.cells) {i count : Nat}
    (inside : i + count = leaf.entries.length) (out : List (I64 × Row)) :
    Reads env o v n (Btree.scanLeaf env buf o.start.pager.pageSize.maxLocal i count out)
      (· = out ++ (leaf.entries.drop i).map fun e => (e.cell.key, e.row)) E := by
  induction count generalizing i out with
  | zero =>
    rw [Btree.scanLeaf, List.drop_eq_nil_of_le (by omega)]
    exact Reads.pure (List.append_nil out).symm
  | succ count ih =>
    have lt : i < leaf.entries.length := by omega
    have here : leaf.cells[i]? = some leaf.entries[i].cell := by
      rw [Leaf.cells, List.getElem?_map, List.getElem?_eq_getElem lt]
      rfl
    rw [Btree.scanLeaf, List.drop_eq_getElem_cons lt, List.map_cons]
    refine Reads.ok (page.cellAt_eq here) ((stored.entries _ (List.getElem_mem lt)).reads ?_)
    refine (ih (by omega) _).imp ?_
    rintro rows rfl
    rw [List.append_assoc]
    rfl

theorem Reads.foldlM {α β γ : Type} {f : List γ → β → PoolM (List γ)} {g : α → β}
    (part : α → List γ) {l : List α}
    (step : ∀ a ∈ l, ∀ out, Reads env o v n (f out (g a)) (· = out ++ part a) E) (out : List γ) :
    Reads env o v n ((l.map g).foldlM f out) (· = out ++ l.flatMap part) E := by
  induction l generalizing out with
  | nil => exact Reads.pure (List.append_nil out).symm
  | cons a l ih =>
    rw [List.map_cons, List.foldlM_cons]
    refine Reads.bind (step a List.mem_cons_self out) ?_
    rintro out' rfl
    refine (ih (fun a' member => step a' (List.mem_cons_of_mem _ member)) (out ++ part a)).imp ?_
    rintro rows rfl
    rw [List.append_assoc, List.flatMap_cons]

/-- `scan` lists the contents from left to right. -/
theorem Tree.Stored.scanNode {h : Nat} {t : Tree h} (stored : t.Stored o.start.pager.pageSize v)
    {fuel : Nat} (deep : h < fuel) (out : List (I64 × Row)) :
    Reads env o v n (Btree.scanNode env fuel out t.id) (· = out ++ t.rows) E := by
  induction h generalizing fuel out with
  | zero =>
    obtain ⟨fuel, rfl⟩ : ∃ k, fuel = k + 1 := ⟨fuel - 1, by omega⟩
    rw [Btree.scanNode]
    refine Leaf.Stored.get stored fun buf page => Reads.ok page.readType ?_
    rw [if_pos rfl]
    refine Reads.pageSize (Reads.ok page.numCells_eq ?_)
    exact Leaf.Stored.scan stored page (by rw [Nat.zero_add]; exact List.length_map _) out
  | succ h ih =>
    obtain ⟨fuel, rfl⟩ : ∃ k, fuel = k + 1 := ⟨fuel - 1, by omega⟩
    rw [Btree.scanNode]
    refine stored.get fun buf page => Reads.ok page.readType ?_
    rw [if_neg (by decide)]
    refine Reads.ok (page.expectPageType t.id) (Reads.ok page.entries_eq ?_)
    rw [Node.children_map]
    refine (Reads.foldlM rows (fun c child out => ih (stored.2 c child) (by omega) out) out).imp ?_
    rintro found rfl
    rw [rows, entries, Node.flat, List.map_flatMap]
    rfl

end programs

end Pinax
