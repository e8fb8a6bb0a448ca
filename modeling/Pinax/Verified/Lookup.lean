import Pinax.Verified.LeafSplit
import Pinax.Verified.TreeRead
import Pinax.Verified.WriteBack

/-! # Point lookup and scan agree

`get` and `descend_path` route a key by comparing it with separators, `scan` walks all children.  On a
well-formed tree of any height both see the same contents.
-/

namespace Pinax

open Hoare (Ends)
open SearchNode (Within)

/-- The pool holds the tree `t`, whose leaves and separators are in order. -/
structure Readable (env : Env) (nested : Bool) (s : BufferPool) {h : Nat} (t : Tree h) : Prop where
  sound : Sound env s
  dirty : ∀ id ∈ s.dirty, firstDataPageId ≤ id
  root : s.pager.rootPageId = t.id
  stored : t.Stored s.pager.pageSize (s.page env)
  ordered : t.Ordered nested minKey endKey
  low : ∀ id ∈ t.pages, firstDataPageId ≤ id

/-- A well-formed root: its pages are distinct ids that were handed out, and its interior pages have
between 1 and `max_interior_entries` keys. -/
structure Stands (env : Env) (nested : Bool) (s : BufferPool) {h : Nat} (t : Tree h) :
    Prop extends Readable env nested s t where
  sized : t.Sized (maxInteriorEntries s.pager.pageSize.bytes)
  distinct : t.pages.Nodup
  below : ∀ id ∈ t.pages, id < s.nextPageId

/-- The pages an operation can read. -/
def BufferPool.known (env : Env) (s : BufferPool) : Pages :=
  fun id => if firstDataPageId ≤ id then s.page env id else none

/-- Nothing that can be read is lost, and no page id is handed out. -/
def BufferPool.Unchanged (env : Env) (s s' : BufferPool) : Prop :=
  During env (anyPage s) (s.known env) s.nextPageId s'

variable {env : Env} {nested : Bool} {s s' : BufferPool} {h : Nat} {t : Tree h} {key : I64}

theorem known_of_low {id : Nat} (low : firstDataPageId ≤ id) :
    s.known env id = s.page env id := if_pos low

/-- A row is in the tree when it is in its key's leaf. -/
theorem Tree.Ordered.mem_rows (ordered : t.Ordered nested minKey endKey) {row : Row} :
    (key, row) ∈ t.rows ↔ ∃ e ∈ (t.leafFor key).entries, e.cell.key = key ∧ e.row = row := by
  rw [Tree.rows, List.mem_map]
  constructor
  · rintro ⟨e, member, same⟩
    obtain ⟨sameKey, sameRow⟩ := Prod.mk.inj same
    exact ⟨e, ordered.mem_leaf key.between.1 key.between.2 member sameKey, sameKey, sameRow⟩
  · rintro ⟨e, member, rfl, rfl⟩
    exact ⟨e, Tree.mem_of_mem_leaf member, rfl⟩

namespace Readable

theorem unchanged (readable : Readable env nested s t) : s.Unchanged env s := by
  refine During.init readable.sound rfl readable.dirty (fun id _ known => ?_) fun _ _ none => by
    cases none
  rw [BufferPool.known] at known
  split at known
  next low => exact ⟨low, known⟩
  next => cases known

theorem known (readable : Readable env nested s t) : t.Stored s.pager.pageSize (s.known env) :=
  readable.stored.mono fun id member _ found => (known_of_low (readable.low id member)).trans found

theorem root_ne (readable : Readable env nested s t) : s.pager.rootPageId ≠ emptyTreeRoot := by
  have low := readable.low _ t.id_mem_pages
  rw [readable.root]
  simp only [firstDataPageId, emptyTreeRoot] at *
  omega

/-- A program that only reads ends with the tree still there. -/
theorem of_during (readable : Readable env nested s t) (during : s.Unchanged env s') :
    Readable env nested s' t where
  sound := during.sound
  dirty := during.dirty
  root := (congrArg Pager.rootPageId during.pager).trans readable.root
  stored := by
    rw [during.pager]
    exact readable.known.mono fun id _ content known => (during.agree id content known).2
  ordered := readable.ordered
  low := readable.low

theorem reads {α : Type} {x : PoolM α} {Q : α → Prop} (readable : Readable env nested s t)
    (works : ∀ k, s.disk.clock ≤ k → env.fault k = none)
    (read : Reads env (anyPage s) (s.known env) s.nextPageId x Q fun _ => False) :
    ∃ a s', x s = .ok a s' ∧ Q a ∧ s.Unchanged env s' := by
  have ends := read.works readable.unchanged works
  cases run : x s with
  | ok a s' =>
    rw [run] at ends
    exact ⟨a, s', rfl, ends⟩
  | error e s' =>
    rw [run] at ends
    exact ends.1.elim

theorem scan (readable : Readable env nested s t)
    (works : ∀ k, s.disk.clock ≤ k → env.fault k = none) {fuel : Nat} (deep : h < fuel) :
    ∃ s', Btree.scan env fuel s = .ok t.rows s' ∧ s.Unchanged env s' := by
  have read : Reads env (anyPage s) (s.known env) s.nextPageId (Btree.scan env fuel) (· = t.rows)
    fun _ => False := by
    rw [Btree.scan]
    refine Reads.rootPageId ?_
    rw [if_neg (show (anyPage s).start.pager.rootPageId ≠ _ from readable.root_ne)]
    have walk : Reads env (anyPage s) (s.known env) s.nextPageId (Btree.scanNode env fuel [] t.id)
      (· = [] ++ t.rows)
      fun _ => False := Tree.Stored.scanNode readable.known deep []
    rw [← readable.root] at walk
    exact walk
  obtain ⟨rows, s', run, rfl, after⟩ := readable.reads works read
  exact ⟨s', run, after⟩

theorem mem_rows (readable : Readable env nested s t) {row : Row} :
    (key, row) ∈ t.rows ↔ ∃ e ∈ (t.leafFor key).entries, e.cell.key = key ∧ e.row = row :=
      readable.ordered.mem_rows

theorem get (readable : Readable env nested s t) (works : ∀ k, s.disk.clock ≤ k → env.fault k = none)
    (key : I64) {fuel : Nat} (deep : h < fuel) : ∃ found s', Btree.get env fuel key s = .ok found s' ∧
      (∀ row, found = some row ↔ (key, row) ∈ t.rows) ∧ s.Unchanged env s' := by
  obtain ⟨b, e, within, -⟩ := readable.ordered.leaf key.between.1 key.between.2
  refine readable.reads works ?_
  rw [Btree.get]
  refine Reads.rootPageId ?_
  rw [if_neg (show (anyPage s).start.pager.rootPageId ≠ _ from readable.root_ne)]
  have walk : Reads env (anyPage s) (s.known env) s.nextPageId (Btree.getFrom env fuel t.id key) _
    fun _ => False :=
    Tree.Stored.getFrom readable.known key within deep
  rw [← readable.root] at walk
  exact walk.imp fun found exact row => (exact row).trans readable.mem_rows.symm

theorem descend (readable : Readable env nested s t)
    (works : ∀ k, s.disk.clock ≤ k → env.fault k = none) (key : I64) {fuel : Nat} (deep : h < fuel) :
    ∃ s', descendPath env fuel s.pager.rootPageId key s = .ok (t.id :: t.path key) s' ∧
      s.Unchanged env s' := by
  have walk : Reads env (anyPage s) (s.known env) s.nextPageId (descendPath env fuel t.id key)
    (· = [t.id] ++ t.path key)
    fun _ => False := Tree.Stored.descend readable.known key (Or.inl deep) [t.id]
  rw [← readable.root] at walk
  obtain ⟨path, s', run, rfl, after⟩ := readable.reads works walk
  exact ⟨s', by rw [run, readable.root]; rfl, after⟩

/-- Reading and searching the key's leaf. -/
theorem searchLeaf (readable : Readable env nested s t)
    (works : ∀ k, s.disk.clock ≤ k → env.fault k = none) (key : I64) :
    ∃ buf s' result, BufferPool.get env (t.leafFor key).id s = .ok buf s' ∧
      leafSearch buf key = .ok result ∧
      (t.leafFor key).Cut key result := by
  obtain ⟨b, e, within, -⟩ := readable.ordered.leaf key.between.1 key.between.2
  have leaf : (t.leafFor key).Stored s.pager.pageSize (s.known env) := readable.known.leaf key
  have walk : Reads env (anyPage s) (s.known env) s.nextPageId
    (BufferPool.get env (t.leafFor key).id >>= pure)
      (fun buf => LeafPage s.pager.pageSize buf (t.leafFor key).start (t.leafFor key).cells)
        fun _ => False :=
    leaf.get fun buf page => Reads.pure page
  rw [bind_pure] at walk
  obtain ⟨buf, s', run, page, -⟩ := readable.reads works walk
  obtain ⟨result, search, cut⟩ := Leaf.search page within key
  exact ⟨buf, s', result, run, search, cut⟩

end Readable

/-- Where a search for `key` in the leaf ends: at its row, or at the place that keeps the rows of
the whole tree in order. -/
def Tree.Admits (t : Tree h) (key : I64) (leaf : Leaf) : SearchResult → Prop
  | .found index => ∃ e, leaf.entries[index]? = some e ∧ e.cell.key = key ∧ (key, e.row) ∈ t.rows
  | .insertAt index =>
    (∀ row, (key, row) ∉ t.rows) ∧ ∃ left right, t.entries = left ++ leaf.entries ++ right ∧
      index ≤ leaf.entries.length ∧
      ∀ e : Entry, e.cell.key = key →
        Within Entry.key (left ++ leaf.entries.insertIdx index e ++ right) minKey endKey

theorem insertIdx_at {α : Type} {l l' xs : List α} (split : xs = l ++ l') (a : α) :
    xs.insertIdx l.length a = l ++ a :: l' := by
  rw [split]
  exact InteriorPage.insertIdx_append l l' a

theorem Readable.admits (readable : Readable env nested s t) {result : SearchResult}
    (cut : (t.leafFor key).Cut key result) :
    t.Admits key (t.leafFor key) result := by
  have within := readable.ordered.within
  have around := readable.ordered.around key.between.1 key.between.2
  have entries := t.entries_eq key
  rw [← List.append_assoc] at entries
  cases cut with
  | @found left right e split same =>
    refine ⟨e, by rw [split]; simp, same, readable.mem_rows.mpr ⟨e, by rw [split]; simp, same, rfl⟩⟩
  | @insertAt left right split below above =>
    refine ⟨fun row member => ?_, t.left key, t.right key, entries, by rw [split]; simp, fun e same => ?_⟩
    · obtain ⟨e, inside, same, -⟩ := readable.mem_rows.mp member
      have equal : e.key = key.val := congrArg I64.val same
      rw [split] at inside
      rcases List.mem_append.mp inside with inLeft | inRight
      · exact absurd (below e inLeft) (by omega)
      · exact absurd (above e inRight) (by omega)
    · have equal : e.key = key.val := congrArg I64.val same
      -- the entry comes between the smaller and the greater keys of the whole tree
      have regroup : t.left key ++ (left ++ right) ++ t.right key =
        (t.left key ++ left) ++ (right ++ t.right key) := by
        simp only [List.append_assoc]
      have regroup' : t.left key ++ (left ++ e :: right) ++ t.right key =
        (t.left key ++ left) ++ e :: (right ++ t.right key) := by
        simp only [List.append_assoc, List.cons_append]
      rw [entries, split, regroup] at within
      rw [insertIdx_at split, regroup']
      refine within.insert (fun x member => ?_) (fun x member => ?_) (by rw [equal]; exact key.between)
      · rw [equal]
        rcases List.mem_append.mp member with outside | inside
        · exact around.1 x outside
        · exact below x inside
      · rw [equal]
        rcases List.mem_append.mp member with inside | outside
        · exact above x inside
        · exact around.2 x outside

/-! ## A tree of two leaves -/

/-- A pool that holds `pages` and nothing else. -/
def pooled (capacity root next : Nat) (pages : List (Nat × Bytes)) : BufferPool :=
  pages.foldr (fun page s => s.cached page.1 page.2 true)
    { emptyPool ⟨true, File.empty, 0, []⟩ capacity with
      pager := ⟨PageSize.default, 0, 0, root, next⟩
      nextPageId := next }

structure Pooled (env : Env) (capacity root next : Nat) (pages : List (Nat × Bytes))
    (s : BufferPool) : Prop where
  sound : Sound env s
  dirty : ∀ id ∈ s.dirty, id ∈ pages.map Prod.fst
  fields : s.pager = ⟨PageSize.default, 0, 0, root, next⟩ ∧ s.nextPageId = next ∧ s.capacity = capacity ∧
    s.disk = ⟨true, File.empty, 0, []⟩
  keys : ∀ id, id ∈ s.entries ↔ id ∈ pages.map Prod.fst
  count : s.entries.keys.length = pages.length
  held : ∀ page ∈ pages, s.page env page.1 = some (body page.2)

theorem pooled_holds (env : Env) (capacity root next : Nat) (pages : List (Nat × Bytes))
    (positive : 1 ≤ capacity) (room : pages.length ≤ capacity) (distinct : (pages.map Prod.fst).Nodup)
    (sized : ∀ page ∈ pages, page.2.length = 4096) :
    Pooled env capacity root next pages (pooled capacity root next pages) := by
  induction pages with
  | nil =>
    refine ⟨{ emptyPool_sound env ⟨true, File.empty, 0, []⟩ positive with },
      fun id member => absurd member (Finset.notMem_empty id),
      ⟨rfl, rfl, rfl, rfl⟩, fun id => ⟨fun member => absurd member (AList.notMem_empty id),
        fun none => absurd none List.not_mem_nil⟩,
      rfl, fun page none => absurd none List.not_mem_nil⟩
  | cons page pages ih =>
    obtain ⟨id, buf⟩ := page
    rw [List.map_cons, List.nodup_cons] at distinct
    obtain ⟨sound, dirty, fields, keys, count, held⟩ := ih (Nat.le_of_succ_le room) distinct.2
      fun page member => sized page (List.mem_cons_of_mem _ member)
    -- the ids are distinct, so the page takes a place of its own, and there is one left
    have absent : id ∉ (pooled capacity root next pages).entries :=
      fun member => distinct.1 ((keys id).mp member)
    have none := AList.lookup_eq_none.mpr absent
    have len : buf.length = (pooled capacity root next pages).pager.pageSize.bytes := by
      rw [fields.1]
      exact sized _ List.mem_cons_self
    have small : (pooled capacity root next pages).entries.keys.length <
      (pooled capacity root next pages).capacity := by
      rw [count, fields.2.2.1]
      exact room
    refine ⟨sound.cached none small len (by simp), fun id' member => ?_, fields, fun id' => ?_, ?_,
      fun page' member => ?_⟩
    · rcases Finset.mem_insert.mp member with rfl | old
      · exact List.mem_cons_self
      · exact List.mem_cons_of_mem _ (dirty id' old)
    · rw [List.map_cons, List.mem_cons, ← keys id']
      exact AList.mem_insert _
    · have fresh : id ∉ (pooled capacity root next pages).entries.keys := AList.mem_keys.not.mp absent
      show (AList.insert id buf (pooled capacity root next pages).entries).keys.length = pages.length + 1
      rw [AList.keys_insert, List.erase_of_not_mem fresh, List.length_cons, count]
    · rcases List.mem_cons.mp member with rfl | old
      · exact page_cached_same
      · have listed : page'.1 ∈ pages.map Prod.fst := List.mem_map_of_mem old
        have other : page'.1 ≠ id := fun same => distinct.1 (same ▸ listed)
        exact (page_cached_other other).trans (held page' old)

/-- The cell of a row without values. -/
def emptyRowEntry (key : I64) : Entry := ⟨⟨key, 4, 0, [0, 0, 0, 0]⟩, [], ⟨[]⟩⟩

theorem emptyRowEntry_fits (key : I64) : (emptyRowEntry key).cell.Fits PageSize.default.maxLocal := by
  have amount : leafLocalLen 4 PageSize.default.maxLocal = 4 := by decide
  exact ⟨show 4 < 4294967296 by decide, show 0 < 4294967296 by decide, amount.symm⟩

theorem emptyRowEntry_stored (ps : PageSize) (v : Pages) (key : I64) :
    (emptyRowEntry key).Stored ps v := by
  have decodes : Row.decode [0, 0, 0, 0] = .ok ⟨[]⟩ := by decide
  exact ⟨[0, 0, 0, 0], ⟨[], .stop (Or.inl rfl), rfl⟩, decodes⟩

/-- A leaf of rows without values. -/
def emptyRowLeaf (id : Nat) (keys : List I64) : Leaf :=
  let entries := keys.map emptyRowEntry
  ⟨id, PageSize.default.contentEnd - cellsLen (entries.map Entry.cell), entries⟩

theorem emptyRowLeaf_page (profile : Profile) (id : Nat) (keys : List I64) (few : keys.length ≤ 100) :
    ∃ buf, LeafPage PageSize.default buf (emptyRowLeaf id keys).start (emptyRowLeaf id keys).cells := by
  have fits : ∀ c ∈ (emptyRowLeaf id keys).cells, c.Fits PageSize.default.maxLocal := fun c member => by
    obtain ⟨e, inside, rfl⟩ := List.mem_map.mp member
    obtain ⟨key, -, rfl⟩ := List.mem_map.mp inside
    exact emptyRowEntry_fits key
  refine leafPage_of_fits profile fits ?_
  have size : ∀ keys : List I64, cellsLen ((keys.map emptyRowEntry).map Entry.cell) =
    20 * keys.length := by
    intro keys
    induction keys with
    | nil => rfl
    | cons key keys ih =>
      simp only [cellsLen, List.map_cons, List.sum_cons, List.length_cons] at ih ⊢
      rw [ih]
      show 16 + 4 + _ = _
      omega
  show 5 + 2 * ((keys.map emptyRowEntry).map Entry.cell).length + cellsLen
    ((keys.map emptyRowEntry).map Entry.cell) ≤ 4088
  rw [size, List.length_map, List.length_map]
  omega

theorem emptyRowLeaf_stored {ps : PageSize} {v : Pages} {id : Nat} {keys : List I64} {buf : Bytes}
    (known : v id = some (body buf)) (page : LeafPage ps buf (emptyRowLeaf id keys).start
      (emptyRowLeaf id keys).cells) : (emptyRowLeaf id keys).Stored ps v := by
  refine ⟨⟨buf, known, page⟩, fun e member => ?_⟩
  obtain ⟨key, -, rfl⟩ := List.mem_map.mp member
  exact emptyRowEntry_stored ps v key

theorem emptyRowLeaf_within {key : I64} {id : Nat} {lo hi : Int} (inside : lo ≤ key.val ∧ key.val < hi) :
    Within Entry.key (emptyRowLeaf id [key]).entries lo hi := by
  refine ⟨le_of_lt (lt_of_le_of_lt inside.1 inside.2), List.pairwise_singleton _ _, fun e member => ?_⟩
  obtain rfl := List.mem_singleton.mp member
  exact inside

/-- A root with the keys 1 and 7 on both sides of the separator 5. -/
def twoLeaves : Tree 1 :=
  Tree.inner 4 ⟨[(⟨5, by decide, by decide⟩, emptyRowLeaf 2 [⟨1, by decide, by decide⟩])],
    emptyRowLeaf 3 [⟨7, by decide, by decide⟩]⟩

theorem twoLeaves_stands (env : Env) (nested : Bool) :
    ∃ s, Stands env nested s twoLeaves ∧ s.disk.clock = 0 ∧
    s.pager = ⟨PageSize.default, 0, 0, 4, 5⟩ ∧ s.nextPageId = 5 ∧ s.disk.trace = [] := by
  -- pages 2 and 3 are the leaves, page 4 is the root above them; all three are in the pool
  obtain ⟨first, firstPage⟩ := emptyRowLeaf_page env.profile 2 [⟨1, by decide, by decide⟩] (by decide)
  obtain ⟨second, secondPage⟩ := emptyRowLeaf_page env.profile 3 [⟨7, by decide, by decide⟩] (by decide)
  obtain ⟨root, -, rootPage⟩ := InteriorPage.buildInteriorPage_ok env.profile PageSize.default
    ⟨[(⟨5, by decide, by decide⟩, 2)], 3⟩ (by decide) (by decide)
  obtain ⟨sound, dirty, fields, -, -, held⟩ := pooled_holds env 3 4 5 [(2, first), (3, second),
    (4, root)] (by decide) (Nat.le_refl 3) (show [2, 3, 4].Nodup by decide) (by
      intro page member
      simp only [List.mem_cons, List.not_mem_nil, or_false] at member
      rcases member with rfl | rfl | rfl
      · exact firstPage.len
      · exact secondPage.len
      · exact rootPage.len)
  generalize pooled 3 4 5 [(2, first), (3, second), (4, root)] = s at sound dirty fields held
  obtain ⟨pager, next, -, disk⟩ := fields
  have size : s.pager.pageSize = PageSize.default := by rw [pager]
  refine ⟨s, ⟨⟨sound, fun id member => ?_, by rw [pager]; rfl, ?_, ?_, ?_⟩, ?_, ?_, ?_⟩, by rw [disk],
    pager, next, by rw [disk]⟩
  · have listed : id ∈ [2, 3, 4] := dirty id member
    simp only [List.mem_cons, List.not_mem_nil, or_false] at listed
    simp only [firstDataPageId]
    omega
  · rw [size]
    refine ⟨⟨root, held (4, root) (by simp), rootPage⟩, fun c child => ?_⟩
    rcases List.mem_cons.mp child with rfl | last
    · exact emptyRowLeaf_stored (held (2, first) (by simp)) firstPage
    · obtain rfl := List.mem_singleton.mp last
      exact emptyRowLeaf_stored (held (3, second) (by simp)) secondPage
  -- the keys 1 and 7 are on either side of the separator 5
  · have between : ∀ {key : I64} {id : Nat} {b e : Int}, b ≤ key.val ∧ key.val < e →
        @Tree.Between 0 nested (Tree.Ordered nested) (emptyRowLeaf id [key]) b e :=
      fun inside => ⟨emptyRowLeaf_within inside, emptyRowLeaf_within (Tree.bounds_of nested inside)⟩
    exact ⟨5, ⟨between (by decide), rfl⟩, between (by decide)⟩
  · show ∀ id ∈ [4, 2, 3], _
    decide
  · rw [size]
    exact ⟨by decide, by decide, fun _ _ => trivial⟩
  · show [4, 2, 3].Nodup
    decide
  · rw [next]
    show ∀ id ∈ [4, 2, 3], _
    decide

/-! ## Agreement -/

/-- On a well-formed tree of any height, `get`, `descend_path` and `scan` end without an error and
agree: `scan` lists the contents in strictly ascending order, `get` finds what is among them, and
`descend_path` ends at the only leaf between whose separators the key lies, where `leaf_search`
finds it or its place. -/
theorem lookup_agrees_with_scan (readable : Readable env false s t)
    (works : ∀ k, s.disk.clock ≤ k → env.fault k = none) (key : I64) {fuel : Nat} (deep : h < fuel) :
    ∃ rows s₁ found s₂ path s₃, Btree.scan env fuel s = .ok rows s₁ ∧
      Btree.get env fuel key s = .ok found s₂ ∧
      descendPath env fuel s.pager.rootPageId key s = .ok path s₃ ∧
      rows = t.rows ∧ rows.Pairwise (fun a b => a.1.val < b.1.val) ∧
        (∀ row, found = some row ↔ (key, row) ∈ rows) ∧
      ∃ leaf, t.leavesFor key = [leaf] ∧ path.getLast? = some leaf.id ∧
        ∃ buf s₄ result, BufferPool.get env leaf.id s₃ = .ok buf s₄ ∧ leafSearch buf key = .ok result ∧
          t.Admits key leaf result := by
  obtain ⟨s₁, scan, -⟩ := readable.scan works deep
  obtain ⟨found, s₂, get, exact, -⟩ := readable.get works key deep
  obtain ⟨s₃, descend, after⟩ := readable.descend works key deep
  obtain ⟨buf, s₄, result, read, search, cut⟩ :=
    (readable.of_during after).searchLeaf (fun k late => works k (Nat.le_trans after.clock late)) key
  refine ⟨t.rows, s₁, found, s₂, t.id :: t.path key, s₃, scan, get, descend, rfl, ?_,
    exact, t.leafFor key, readable.ordered.leavesFor_eq key, t.getLast?_path key, ?_⟩
  · rw [Tree.rows, List.pairwise_map]
    exact readable.ordered.within.sorted
  · exact ⟨buf, s₄, result, read, search, readable.admits cut⟩

theorem lookup_agrees_with_scan_twoLeaves :
    let env := Env.faultless .dev fun _ => 0
    ∃ s, Readable env false s twoLeaves ∧
      ∃ rows s₁ found s₂ path s₃, Btree.scan env 2 s = .ok rows s₁ ∧
        Btree.get env 2 ⟨6, by decide, by decide⟩ s = .ok found s₂ ∧
        descendPath env 2 s.pager.rootPageId ⟨6, by decide, by decide⟩ s = .ok path s₃ ∧
          rows = twoLeaves.rows := by
  intro env
  obtain ⟨s, stands, -⟩ := twoLeaves_stands env false
  obtain ⟨rows, s₁, found, s₂, path, s₃, scan, get, descend, same, -⟩ :=
    lookup_agrees_with_scan stands.toReadable (fun _ _ => rfl) ⟨6, by decide, by decide⟩
      (show 1 < 2 by decide)
  exact ⟨s, stands.toReadable, rows, s₁, found, s₂, path, s₃, scan, get, descend, same⟩

end Pinax
