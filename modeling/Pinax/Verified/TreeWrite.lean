import Pinax.Verified.TreeRead

/-! # Copying the path above a replaced leaf

`propagate` applies what became of a child to its parent, level by level.  On a stored tree it puts the
pages that `Tree.graft` describes.
-/

namespace Pinax

open SearchNode (Node Hole Part)
open BufferPool (allocatePageId putNew)

/-- The result that stands for a part. -/
def resultOf {h : Nat} : Part I64 (Tree h) → NodeResult
  | .one t => .replaced t.id
  | .two a separator b => .split a.id b.id separator

/-- The page of an interior node is known. -/
def Tree.Known (ps : PageSize) (v : Pages) {h : Nat} (t : Tree (h + 1)) : Prop :=
  ∃ buf, v t.id = some (body buf) ∧ InteriorPage ps buf (t.node.map Tree.id)

theorem maxInteriorEntries_bound (ps : PageSize) : 2 ≤ maxInteriorEntries ps.bytes := by
  have sizes := ps.bounds
  have least : 28 / 14 ≤ (ps.bytes - 8 - 9) / 14 := Nat.div_le_div_right (by omega)
  exact least

section programs

variable {env : Env} {o : Origin} {v : Pages} {n h : Nat} {E : Stop → Prop} {key : I64}

/-- Cutting a node's keys and children where `split_interior_entries` does. -/
theorem halves_of_split {node left right : Node I64 Nat} {separator : I64}
    (cut : node.split (node.cells.length / 2) = some (left, separator, right)) :
    promotedKey node.keys (node.keys.length / 2) = .ok separator ∧
      (node.keys.take (node.keys.length / 2) = left.keys ∧
        node.children.take (node.keys.length / 2 + 1) = left.children) ∧
      node.keys.drop (node.keys.length / 2 + 1) = right.keys ∧
        node.children.drop (node.keys.length / 2 + 1) = right.children := by
  obtain ⟨cells, last, len⟩ := Node.cells_of_split cut
  have keys : node.keys = left.keys ++ separator :: right.keys := by simp [Node.keys, cells]
  have children : node.children = left.children ++ right.children := by simp [Node.children, cells, last]
  have mid : node.keys.length / 2 = left.keys.length := by
    rw [Node.keys, List.length_map, ← len, Node.keys, List.length_map]
  have count : left.children.length = left.keys.length + 1 := by simp [Node.children, Node.keys]
  rw [mid, ← count, children, List.take_left, List.drop_left, keys, List.take_left, count]
  refine ⟨?_, ⟨rfl, rfl⟩, ?_, rfl⟩
  · rw [promotedKey, List.getElem?_append_right (Nat.le_refl _), Nat.sub_self]
    rfl
  · rw [← List.drop_drop, List.drop_left]
    rfl

theorem splitInteriorEntries_runs (fresh : ∀ id, o.start.nextPageId ≤ id → o.writable id)
    {node left right : Node I64 Nat} {separator : I64}
    (cut : node.split (node.cells.length / 2) = some (left, separator, right))
    (few : left.cells.length ≤ maxInteriorEntries o.start.pager.pageSize.bytes ∧
      right.cells.length ≤ maxInteriorEntries o.start.pager.pageSize.bytes)
    (fits : ∀ id ∈ node.children, id < 4294967296) :
    Runs env o v n (splitInteriorEntries env o.start.pager.pageSize.bytes node.keys node.children)
      (fun r v' n' => r = .split n (n + 1) separator ∧ n' = n + 2 ∧ n + 1 < u32Max ∧
        ∃ leftBuf rightBuf, v' = withPage (withPage v n (body leftBuf)) (n + 1) (body rightBuf) ∧
          InteriorPage o.start.pager.pageSize leftBuf left ∧
            InteriorPage o.start.pager.pageSize rightBuf right) E := by
  have children := Node.children_split cut
  obtain ⟨leftBuf, leftBuilt, leftPage⟩ := InteriorPage.buildInteriorPage_ok env.profile _ left few.1
    fun id member => fits id (children ▸ List.mem_append_left _ member)
  obtain ⟨rightBuf, rightBuilt, rightPage⟩ := InteriorPage.buildInteriorPage_ok env.profile _ right few.2
    fun id member => fits id (children ▸ List.mem_append_right _ member)
  obtain ⟨promoted, ⟨leftKeys, leftChildren⟩, rightKeys, rightChildren⟩ := halves_of_split cut
  rw [splitInteriorEntries]
  simp only [leftKeys, leftChildren, rightKeys, rightChildren]
  refine Runs.ok promoted (Runs.ok leftBuilt (Runs.ok rightBuilt ?_))
  refine Runs.put fresh leftPage.len fun _ => Runs.put fresh rightPage.len fun small => Runs.pure ?_
  exact ⟨rfl, rfl, small, leftBuf, rightBuf, rfl, leftPage, rightPage⟩

/-- The parent's page after its child became `q`. -/
theorem applyResult_runs (env : Env) (fresh : ∀ id, o.start.nextPageId ≤ id → o.writable id)
    {t : Tree (h + 1)} {q : Part I64 (Tree h)} (known : t.Known o.start.pager.pageSize v)
    (few : t.node.cells.length ≤ maxInteriorEntries o.start.pager.pageSize.bytes)
    (once : (t.child key).id ∉ (t.hole key).others.map Tree.id)
    (small : ∀ c ∈ q.nodes, c.id < 4294967296) :
    Runs env o v n (applyResultToInterior env t.id (t.child key).id (resultOf q)) (fun r v' n' =>
      let p := Tree.number (((t.hole key).graft q).cut
        (maxInteriorEntries o.start.pager.pageSize.bytes)) n
      r = resultOf p.1 ∧ n' = p.2 ∧ ∀ m ∈ p.1.nodes, m.Known o.start.pager.pageSize v' ∧
        m.id < 4294967296) E := by
  obtain ⟨buf, content, page⟩ := known
  have filled : t.node.map Tree.id = ((t.hole key).map Tree.id).fill (t.child key).id := by
    rw [← Hole.fill_map, Tree.fill_child]
  have grafted : ((t.hole key).graft q).map Tree.id =
    ((t.hole key).map Tree.id).graft (q.map Tree.id) := Hole.graft_map _ _ _
  have once' : (t.child key).id ∉ ((t.hole key).map Tree.id).others := by rw [Hole.others_map]; exact once
  have fits : ∀ id ∈ (((t.hole key).graft q).map Tree.id).children, id < 4294967296 := by
    intro id member
    rw [Node.children_map] at member
    obtain ⟨c, listed, rfl⟩ := List.mem_map.mp member
    rcases List.mem_append.mp ((Hole.children_graft _ q).mem_iff.mp listed) with new | old
    · exact small c new
    · refine page.fits c.id ?_
      rw [Node.children_map]
      exact List.mem_map_of_mem (Tree.mem_others old)
  have size := (t.hole key).length_graft_le q (t.child key)
  rw [Tree.fill_child] at size
  rw [applyResultToInterior]
  refine Runs.pageSize ?_
  cases q with
  -- the child is one page: its id is put in the slot of the old one
  | one c =>
    refine Runs.get content fun buf' len same => ?_
    have page' := page.congr same len
    rw [filled] at page'
    obtain ⟨buf'', written, page''⟩ := page'.setChildSlot_ok (small c List.mem_cons_self)
    have length := (t.hole key).length_fill c (t.child key)
    rw [Tree.fill_child] at length
    refine Runs.ok (page'.findChildSlot_eq once')
      (Runs.ok written (Runs.put fresh page''.len fun fresh' => Runs.pure ?_))
    rw [Hole.graft, Node.cut_of_le (by omega)]
    refine ⟨rfl, rfl, fun m member => ?_⟩
    obtain rfl := List.mem_singleton.mp member
    refine ⟨⟨buf'', withPage_same, ?_⟩, by show n < _; simp only [u32Max] at fresh'; omega⟩
    rw [Tree.node_inner, Hole.fill_map]
    exact page''
  -- the child was split: its halves are spliced in, and the node is split in turn when they do
  -- not fit
  | two a separator b =>
    refine Runs.get content fun buf' len same => ?_
    have page' := page.congr same len
    rw [filled] at page'
    refine Runs.ok page'.entries_eq ?_
    have spliced := InteriorPage.splice_eq once' separator a.id b.id
    have whole : ((t.hole key).map Tree.id).fill₂ a.id separator b.id =
      ((t.hole key).fill₂ a separator b).map Tree.id :=
      (Hole.fill₂_map _ _ _ _ _).symm
    rw [whole] at spliced
    simp only [Hole.graft] at grafted fits size ⊢
    simp only [spliced]
    have count : (((t.hole key).fill₂ a separator b).map Tree.id).keys.length =
      ((t.hole key).fill₂ a separator b).cells.length := by
      rw [Node.keys, List.length_map, Node.length_map]
    rw [count]
    refine Runs.ite (fun le => ?_) fun more => ?_
    · obtain ⟨rebuilt, built, page''⟩ :=
        InteriorPage.buildInteriorPage_ok env.profile o.start.pager.pageSize
        (((t.hole key).fill₂ a separator b).map Tree.id) (by rw [Node.length_map]; exact le) fits
      refine Runs.ok built (Runs.put fresh page''.len fun fresh' => Runs.pure ?_)
      rw [Node.cut_of_le le]
      refine ⟨rfl, rfl, fun m member => ?_⟩
      obtain rfl := List.mem_singleton.mp member
      exact ⟨⟨rebuilt, withPage_same, page''⟩, by show n < _; simp only [u32Max] at fresh'; omega⟩
    -- the middle key goes up, and the halves have at most as many cells as a node may
    · obtain ⟨l, k, r, split, cut⟩ := Node.cut_of_lt (Nat.not_le.mp more)
      obtain ⟨cells, -, len'⟩ := Node.cells_of_split split
      have total := congrArg List.length cells
      rw [List.length_append, List.length_cons] at total
      have split' := Node.split_map split Tree.id
      have middle : (((t.hole key).fill₂ a separator b).map Tree.id).cells.length =
        ((t.hole key).fill₂ a separator b).cells.length :=
        Node.length_map _ _
      rw [← middle] at split'
      have halves : (l.map Tree.id).cells.length ≤ maxInteriorEntries o.start.pager.pageSize.bytes ∧
          (r.map Tree.id).cells.length ≤ maxInteriorEntries o.start.pager.pageSize.bytes := by
        rw [Node.length_map, Node.length_map]
        omega
      rw [cut]
      refine (splitInteriorEntries_runs fresh split' halves fits).imp ?_
      rintro result v' n' - ⟨rfl, rfl, fresh', leftBuf, rightBuf, rfl, leftPage, rightPage⟩
      simp only [u32Max] at fresh'
      refine ⟨rfl, rfl, fun m member => ?_⟩
      rcases List.mem_cons.mp member with rfl | second
      · have other : n ≠ n + 1 := Nat.ne_of_lt (Nat.lt_succ_self n)
        exact ⟨⟨leftBuf, (withPage_other other).trans withPage_same, leftPage⟩, by show n < _; omega⟩
      · obtain rfl := List.mem_singleton.mp second
        exact ⟨⟨rightBuf, withPage_same, rightPage⟩, by show n + 1 < _; omega⟩

/-! ## The whole path -/

theorem propagate_append (as : List Nat) (a old : Nat) (result : NodeResult) :
    propagate env (as ++ [a]) old result = (propagate env as old result >>= fun result =>
      applyResultToInterior env a (as.getLast?.getD old) result) := by
  induction as generalizing old result with
  | nil =>
    rw [List.nil_append, propagate]
    exact bind_pure _
  | cons b as ih =>
    rw [List.cons_append, propagate, propagate, bind_assoc]
    refine congrArg _ (funext fun r => ?_)
    rw [ih, List.getLast?_cons, Option.getD_some]

namespace Tree

/-- The ancestors of a leaf are the path to it without its end. -/
theorem dropLast_path (t : Tree h) (key : I64) : (t.id :: t.path key).dropLast = t.spine key := by
  induction h with
  | zero => rfl
  | succ h ih =>
    rw [path, List.dropLast_cons_of_ne_nil (List.cons_ne_nil _ _), ih]
    rfl

/-- The child below the deepest interior page that was handled. -/
theorem child_id (t : Tree h) (key : I64) :
    (t.spine key).reverse.getLast?.getD (t.leafFor key).id = t.id := by
  cases h with
  | zero => rfl
  | succ h =>
    rw [List.getLast?_reverse]
    rfl

theorem Stored.node_known {t : Tree (h + 1)} {ps : PageSize} (stored : t.Stored ps v) :
    t.Known ps v := stored.1

theorem Stored.of_known {t : Tree (h + 1)} {ps : PageSize} (known : t.Known ps v)
    (children : ∀ c ∈ t.node.children, c.Stored ps v) : t.Stored ps v := ⟨known, children⟩

/-- The ids of a tree's children differ. -/
theorem once_of_nodup {t : Tree (h + 1)} (distinct : t.pages.Nodup) (key : I64) :
    (t.child key).id ∉ (t.hole key).others.map Tree.id := by
  intro member
  obtain ⟨c, other, same⟩ := List.mem_map.mp member
  have all := (List.nodup_cons.mp distinct).2
  have perm : (t.node.flat pages).Perm ((t.child key).pages ++ (t.hole key).others.flatMap pages) :=
    (children_perm key t).flatMap_right pages
  have apart := List.disjoint_of_nodup_append (perm.nodup_iff.mp all)
  exact apart (t.child key).id_mem_pages (List.mem_flatMap.mpr ⟨c, other, same ▸ c.id_mem_pages⟩)

theorem nodup_child {t : Tree (h + 1)} (distinct : t.pages.Nodup) (key : I64) :
    (t.child key).pages.Nodup := by
  have all := (List.nodup_cons.mp distinct).2
  have perm : (t.node.flat pages).Perm ((t.child key).pages ++ (t.hole key).others.flatMap pages) :=
    (children_perm key t).flatMap_right pages
  exact (List.nodup_append.mp (perm.nodup_iff.mp all)).1

end Tree

/-- Grafting takes no pages beyond those that are there and the new ones. -/
theorem Tree.graft_below (key : I64) (cap : Nat) {t : Tree h} {p : Part I64 Leaf}
    (below : ∀ id ∈ t.pages, id < n) (parts : ∀ leaf ∈ p.nodes, ∀ id ∈ leaf.pages, id < n) :
    n ≤ (t.graft key cap p n).2 ∧ ∀ t' ∈ (t.graft key cap p n).1.nodes, ∀ id ∈ t'.pages,
      id < (t.graft key cap p n).2 := by
  obtain ⟨grown, perm⟩ := pages_graft key cap p t n
  refine ⟨grown, fun t' member id inside => ?_⟩
  have listed : id ∈ (t.graft key cap p n).1.flat pages := List.mem_flatMap.mpr ⟨t', member, inside⟩
  rcases List.mem_append.mp (perm.mem_iff.mp listed) with new | old
  · have := List.mem_range'_1.mp new
    omega
  · rcases List.mem_append.mp old with inPart | inRest
    · obtain ⟨leaf, isPart, inLeaf⟩ := List.mem_flatMap.mp inPart
      exact Nat.lt_of_lt_of_le (parts leaf isPart id inLeaf) grown
    · have inTree :=
        (pages_perm key t).mem_iff.mpr (List.mem_append_right _ (List.mem_append_right _ inRest))
      exact Nat.lt_of_lt_of_le (below id inTree) grown

/-- The path copy puts the nodes of the grafted tree. -/
theorem propagate_runs (env : Env) (key : I64) (fresh : ∀ id, o.start.nextPageId ≤ id → o.writable id)
    {t : Tree h} {p : Part I64 Leaf} (stored : t.Stored o.start.pager.pageSize v)
    (sized : t.Sized (maxInteriorEntries o.start.pager.pageSize.bytes)) (distinct : t.pages.Nodup)
    (below : ∀ id ∈ t.pages, id < n) (parts : ∀ leaf ∈ p.nodes, leaf.Stored o.start.pager.pageSize v ∧
      leaf.id < 4294967296 ∧ ∀ id ∈ leaf.pages, id < n) :
    Runs env o v n (propagate env (t.spine key).reverse (t.leafFor key).id (resultOf (h := 0) p))
      (fun r v' n' =>
      let q := t.graft key (maxInteriorEntries o.start.pager.pageSize.bytes) p n
      r = resultOf q.1 ∧ n' = q.2 ∧ ∀ t' ∈ q.1.nodes, t'.Stored o.start.pager.pageSize v' ∧
        t'.id < 4294967296) E := by
  induction h with
  | zero => exact Runs.pure ⟨rfl, rfl, fun t' member => ⟨(parts t' member).1, (parts t' member).2.1⟩⟩
  | succ h ih =>
    obtain ⟨some, few, children⟩ := sized
    have childBelow : ∀ id ∈ (t.child key).pages, id < n :=
      fun id member => below id (Tree.pages_child (Tree.child_mem key t) member)
    -- the copy of the child comes first: the path is walked from the leaf to the root
    have first :=
      ih (stored.child key) (children _ (Tree.child_mem key t)) (Tree.nodup_child distinct key) childBelow
    rw [Tree.spine, List.reverse_cons, propagate_append, Tree.leafFor, Tree.child_id]
    refine Runs.bind first ?_
    rintro r v' n' grown ⟨rfl, rfl, putAlready⟩
    rw [Tree.graft]
    obtain ⟨-, newBelow⟩ :=
      Tree.graft_below key (maxInteriorEntries o.start.pager.pageSize.bytes) childBelow
      fun leaf member => (parts leaf member).2.2
    generalize (t.child key).graft key (maxInteriorEntries o.start.pager.pageSize.bytes) p n =
      q at putAlready grown newBelow ⊢
    -- the pages below `n` are as they were, so the old tree is still stored
    have stored' : t.Stored o.start.pager.pageSize v' := stored.mono fun id member content known =>
      (grown.same id (below id member)).trans known
    have apply := applyResult_runs env (n := q.2) (E := E) fresh stored'.node_known few
      (Tree.once_of_nodup distinct key) fun c member => (putAlready c member).2
    refine apply.imp ?_
    rintro r v'' n'' grown' ⟨rfl, rfl, known⟩
    refine ⟨rfl, rfl, fun t' member => ⟨Tree.Stored.of_known (known t' member).1 fun c child => ?_,
      (known t' member).2⟩⟩
    -- a child of the new node is a new one, or a sibling that was there before
    rcases List.mem_append.mp ((Hole.children_graft _ q.1).mem_iff.mp
      (Tree.mem_children_number member child)) with new | old
    · exact (putAlready c new).1.mono fun id inside content found =>
        (grown'.same id (newBelow c new id inside)).trans found
    · refine (stored'.2 c (Tree.mem_others old)).mono fun id inside content found =>
        (grown'.same id ?_).trans found
      exact Nat.lt_of_lt_of_le (below id (Tree.pages_child (Tree.mem_others old) inside)) grown.le

end programs

end Pinax
