import Pinax.Verified.Contents

/-! # Pages hold one tree

The pages decide what is stored behind an id, so that a database holds one content.
-/

namespace Pinax

open SearchNode (Node)

variable {ps : PageSize} {v : Pages} {buf : Bytes}

/-! ## Pages -/

theorem LeafPage.unique {start start' : Nat} {cells cells' : List LeafCell}
    (page : LeafPage ps buf start cells) (page' : LeafPage ps buf start' cells') :
    start = start' ∧ cells = cells' := by
  obtain ⟨slots, slotted, -⟩ := page.slotted
  obtain ⟨slots', slotted', -⟩ := page'.slotted
  have count : cells.length = cells'.length :=
    Except.ok.inj (page.numCells_eq.symm.trans page'.numCells_eq)
  refine ⟨Except.ok.inj (slotted.contentStart_eq.symm.trans slotted'.contentStart_eq), ?_⟩
  apply List.ext_getElem count
  intro i inside inside'
  have cell := page.cellAt_eq (List.getElem?_eq_getElem inside)
  have cell' := page'.cellAt_eq (List.getElem?_eq_getElem inside')
  exact Except.ok.inj (cell.symm.trans cell')

theorem InteriorPage.unique {node node' : Node I64 Nat} (page : InteriorPage ps buf node)
    (page' : InteriorPage ps buf node') :
    node = node' := by
  have count : node.cells.length = node'.cells.length :=
    Except.ok.inj (page.numCells_eq.symm.trans page'.numCells_eq)
  have last : node.last = node'.last := Except.ok.inj (page.rightmost_eq.symm.trans page'.rightmost_eq)
  have cells : node.cells = node'.cells := by
    apply List.ext_getElem count
    intro i inside inside'
    have found : node.cells[i]? = some (node.cells[i].1, node.cells[i].2) :=
      List.getElem?_eq_getElem inside
    have found' : node'.cells[i]? = some (node'.cells[i].1, node'.cells[i].2) :=
      List.getElem?_eq_getElem inside'
    have key := Except.ok.inj ((page.keyAt_eq found).symm.trans (page'.keyAt_eq found'))
    have child := Except.ok.inj ((page.childAt_eq found).symm.trans (page'.childAt_eq found'))
    exact Prod.ext key child
  obtain ⟨cells₀, last₀⟩ := node
  obtain ⟨cells₁, last₁⟩ := node'
  exact congrArg₂ Node.mk cells last

/-- A leaf is no interior page. -/
theorem LeafPage.not_interior {start : Nat} {cells : List LeafCell} {node : Node I64 Nat}
    (page : LeafPage ps buf start cells) :
    ¬ InteriorPage ps buf node := by
  intro interior
  have types := page.pageType.symm.trans interior.pageType
  exact absurd types (by decide)

theorem OverflowPage.unique {next next' : Nat} {data data' : Bytes} (page : OverflowPage ps buf next data)
    (page' : OverflowPage ps buf next' data') (len : data.length = data'.length) :
    next = next' ∧ data = data' := by
  have sizes := ps.bounds
  have here := page.len
  have link : readU32 buf 1 = .ok next := readU32_of_slice (by omega) page.link page.linkFits
  have link' : readU32 buf 1 = .ok next' := readU32_of_slice (by omega) page'.link page'.linkFits
  refine ⟨Except.ok.inj (link.symm.trans link'), ?_⟩
  rw [← page.data, ← page'.data, len]

/-! ## Trees -/

theorem Chain.unique {first need : Nat} {ids ids' : List Nat} {data data' : Bytes}
    (chain : Chain ps v first need ids data) (chain' : Chain ps v first need ids' data') :
    ids = ids' ∧ data = data' := by
  induction chain generalizing ids' data' with
  | stop done =>
    cases chain' with
    | stop => exact ⟨rfl, rfl⟩
    | link nonzero more => omega
  | @link first need next ids buf chunk tail nonzero more known page amount rest ih =>
    cases chain' with
    | stop done => omega
    | @link _ _ next' ids' buf' chunk' tail' _ _ known' page' amount' rest' =>
      have same : body buf = body buf' := Option.some.inj (known.symm.trans known')
      obtain ⟨rfl, rfl⟩ := page.unique (page'.congr same page.len) (amount.trans amount'.symm)
      obtain ⟨rfl, rfl⟩ := ih rest'
      exact ⟨rfl, rfl⟩

theorem Entry.Stored.unique {e e' : Entry} (stored : e.Stored ps v) (stored' : e'.Stored ps v)
    (same : e.cell = e'.cell) :
    e = e' := by
  obtain ⟨cell, ids, row⟩ := e
  obtain ⟨cell', ids', row'⟩ := e'
  obtain rfl : cell = cell' := same
  obtain ⟨payload, ⟨tail, chain, split⟩, decodes⟩ := stored
  obtain ⟨payload', ⟨tail', chain', split'⟩, decodes'⟩ := stored'
  obtain ⟨sameIds, sameTail⟩ := chain.unique chain'
  have samePayload : payload = payload' := by rw [split, split', sameTail]
  have sameRow : row = row' := by
    rw [samePayload] at decodes
    exact Except.ok.inj (decodes.symm.trans decodes')
  exact congrArg₂ (Entry.mk cell) sameIds sameRow

theorem Leaf.Stored.unique {leaf leaf' : Leaf} (stored : leaf.Stored ps v)
    (stored' : leaf'.Stored ps v) (same : leaf.id = leaf'.id) :
    leaf = leaf' := by
  obtain ⟨id, start, entries⟩ := leaf
  obtain ⟨id', start', entries'⟩ := leaf'
  obtain rfl : id = id' := same
  obtain ⟨buf, known, page⟩ := stored.page
  obtain ⟨buf', known', page'⟩ := stored'.page
  have sameBody : body buf = body buf' := Option.some.inj (known.symm.trans known')
  obtain ⟨sameStart, cells⟩ := page.unique (page'.congr sameBody page.len)
  have count := congrArg List.length cells
  rw [Leaf.cells, Leaf.cells, List.length_map, List.length_map] at count
  have sameEntries : entries = entries' := by
    apply List.ext_getElem count
    intro i inside inside'
    apply (stored.entries _ (List.getElem_mem inside)).unique
      (stored'.entries _ (List.getElem_mem inside'))
    have cell := congrArg (fun cells => cells[i]?) cells
    simpa [Leaf.cells, inside, inside'] using cell
  exact congrArg₂ (Leaf.mk id) sameStart sameEntries

/-- The pages hold one tree behind an id. -/
theorem Tree.Stored.unique {h h' : Nat} {t : Tree h} {t' : Tree h'} (stored : t.Stored ps v)
    (stored' : t'.Stored ps v) (same : t.id = t'.id) : (⟨h, t⟩ : AnyTree) = ⟨h', t'⟩ := by
  induction h generalizing h' with
  | zero =>
    cases h' with
    | zero => rw [show t = t' from Leaf.Stored.unique stored stored' same]
    | succ h' =>
      -- the page is of one type
      obtain ⟨buf, known, page⟩ := Leaf.Stored.page stored
      obtain ⟨⟨buf', known', page'⟩, -⟩ := stored'
      have root : Leaf.id t = Inner.id t' := same
      rw [root, known'] at known
      exact absurd page' (page.congr (Option.some.inj known) page'.len).not_interior
  | succ h ih =>
    cases h' with
    | zero =>
      obtain ⟨buf, known, page⟩ := Leaf.Stored.page stored'
      obtain ⟨⟨buf', known', page'⟩, -⟩ := stored
      have root : Inner.id t = Leaf.id t' := same
      rw [← root, known'] at known
      exact absurd page' (page.congr (Option.some.inj known) page'.len).not_interior
    | succ h' =>
      obtain ⟨⟨buf, known, page⟩, children⟩ := stored
      obtain ⟨⟨buf', known', page'⟩, children'⟩ := stored'
      have root : Inner.id t = Inner.id t' := same
      rw [root, known'] at known
      have ids : t.node.map Tree.id = t'.node.map Tree.id :=
        page.unique (page'.congr (Option.some.inj known).symm page.len)
      have last : (⟨h, t.node.last⟩ : AnyTree) = ⟨h', t'.node.last⟩ :=
        ih (children _ (List.mem_append_right _ List.mem_cons_self))
          (children' _ (List.mem_append_right _ List.mem_cons_self))
          (congrArg Node.last ids)
      obtain rfl : h = h' := congrArg Sigma.fst last
      have lastTree : t.node.last = t'.node.last := eq_of_heq (Sigma.mk.inj last).2
      have cells := congrArg Node.cells ids
      have count := congrArg List.length cells
      have cells : t.node.cells = t'.node.cells := by
        simp only [Node.map, List.length_map] at count
        apply List.ext_getElem count
        intro i inside inside'
        have cell := congrArg (fun cells => cells[i]?) cells
        simp only [Node.map, List.getElem?_map, List.getElem?_eq_getElem inside,
          List.getElem?_eq_getElem inside',
          Option.map_some, Option.some.injEq, Prod.map, Prod.mk.injEq] at cell
        have child :=
          ih (children _ (List.mem_append_left _ (List.mem_map.mpr ⟨_, List.getElem_mem inside, rfl⟩)))
          (children' _ (List.mem_append_left _
            (List.mem_map.mpr ⟨_, List.getElem_mem inside', rfl⟩))) cell.2
        exact Prod.ext cell.1 (eq_of_heq (Sigma.mk.inj child).2)
      have node : t.node = t'.node := congrArg₂ Node.mk cells lastTree
      exact congrArg (Sigma.mk (h + 1)) (congrArg₂ Inner.mk root node)

/-- The id of no page is the root of an empty tree. -/
theorem Content.Planted.eq_none {n root : Nat} {c : Content} (planted : c.Planted ps v n root)
    (empty : root = emptyTreeRoot) :
    c = none := by
  cases c with
  | none => rfl
  | some t =>
    have low := ((planted.wellFormed t rfl).range _ t.2.id_mem_pages).1
    have root : t.2.id = root := planted.root
    rw [root, empty] at low
    exact absurd low (by decide)

/-- A database holds one content. -/
theorem Content.Planted.unique {n root : Nat} {c c' : Content} (planted : c.Planted ps v n root)
    (planted' : c'.Planted ps v n root) :
    c = c' := by
  cases c with
  | none => exact (planted'.eq_none planted.root.symm).symm
  | some t =>
    cases c' with
    | none => exact planted.eq_none planted'.root.symm
    | some t' =>
      have root := planted.root.trans planted'.root.symm
      exact congrArg some ((planted.wellFormed t rfl).stored.unique
        (planted'.wellFormed t' rfl).stored root)

end Pinax
