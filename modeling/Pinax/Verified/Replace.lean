import Pinax.Verified.Lookup
import Pinax.Verified.TreeWrite

/-! # Replacing a leaf of a well-formed tree

Whatever part takes the leaf's place, the path copy and the new root make a well-formed tree of it,
whose contents differ in that leaf only.
-/

namespace Pinax

open SearchNode (Node Hole Part Within)

/-- The tree is well-formed over the pages `v`, and `n` is the next id. -/
structure Tree.WellFormed (nested : Bool) (ps : PageSize) (v : Pages) (n : Nat) {h : Nat}
    (t : Tree h) : Prop where
  stored : t.Stored ps v
  sized : t.Sized (maxInteriorEntries ps.bytes)
  ordered : t.Ordered nested minKey endKey
  distinct : t.pages.Nodup
  range : ∀ id ∈ t.pages, firstDataPageId ≤ id ∧ id < n

/-- What takes the place of a leaf whose tree is well-formed over the pages below `n₀`: leaves that
are stored, in order, and made of new pages and of some of the old leaf's. -/
structure Fits (ps : PageSize) (v : Pages) (n₀ n : Nat) (key : I64) (leaf : Leaf)
    (p : Part I64 Leaf) : Prop where
  stored : ∀ l ∈ p.nodes, l.Stored ps v ∧ l.id < 4294967296
  replaces : Tree.Replaces key leaf p
  pages : ∃ new kept, (p.flat Leaf.pages).Perm (new ++ kept) ∧ new.Nodup ∧
    (∀ id ∈ new, n₀ ≤ id ∧ id < n) ∧ kept.Sublist leaf.pages

variable {env : Env} {nested : Bool} {s s' : BufferPool} {h : Nat} {t : Tree h} {key : I64}
  {ps : PageSize} {v v' : Pages} {n n₀ : Nat}

theorem Stands.wellFormed (stands : Stands env nested s t) :
    t.WellFormed nested s.pager.pageSize (s.known env) s.nextPageId where
  stored := stands.known
  sized := stands.sized
  ordered := stands.ordered
  distinct := stands.distinct
  range := fun id member => ⟨stands.low id member, stands.below id member⟩

/-- The state after a commit of a well-formed tree. -/
theorem Tree.WellFormed.stands {root : Nat} (wellFormed : t.WellFormed nested s.pager.pageSize v n)
    (committed : Committed env (anyPage s) v n root s') (id : t.id = root) : Stands env nested s' t := by
  have pager : s'.pager = s.pager.committed root n := committed.pager
  have size : s'.pager.pageSize = s.pager.pageSize := by rw [pager]; rfl
  refine ⟨⟨committed.sound, fun id member => ?_, ?_, ?_, wellFormed.ordered,
    fun id member => (wellFormed.range id member).1⟩, ?_, wellFormed.distinct, fun id member => ?_⟩
  · rw [committed.dirty] at member
    exact absurd member (Finset.notMem_empty id)
  · rw [pager, id]
    rfl
  · rw [size]
    exact wellFormed.stored.mono fun id _ content known => (committed.agree id content known).2
  · rw [size]
    exact wellFormed.sized
  · rw [committed.next]
    exact (wellFormed.range id member).2

namespace Tree

/-- The pages of a grafted tree are still distinct. -/
theorem WellFormed.nodup_graft (cap : Nat) {p : Part I64 Leaf} (wellFormed : t.WellFormed nested ps v n₀)
    (le : n₀ ≤ n) {v' : Pages} (fits : Fits ps v' n₀ n key (t.leafFor key) p) :
    ((t.graft key cap p n).1.flat pages).Nodup ∧
      ∀ id ∈ (t.graft key cap p n).1.flat pages, id < (t.graft key cap p n).2 ∧
        (id ∈ t.pages ∨ n₀ ≤ id) := by
  obtain ⟨grown, perm⟩ := pages_graft key cap p t n
  obtain ⟨new, kept, parts, newNodup, newRange, sub⟩ := fits.pages
  have old := (pages_perm key t).nodup_iff.mp wellFormed.distinct
  have oldRest := (List.nodup_append.mp old).2.1
  have keptNodup : (kept ++ t.rest key).Nodup := (sub.append (List.Sublist.refl _)).nodup oldRest
  have inTree : ∀ id ∈ kept ++ t.rest key, id ∈ t.pages := fun id member =>
    (pages_perm key t).mem_iff.mpr
      (List.mem_append_right _ ((sub.append (List.Sublist.refl _)).mem member))
  -- ids handed out by the path, by the leaf and its chains, and those that stay
  have whole : ((t.graft key cap p n).1.flat pages).Perm
      (List.range' n ((t.graft key cap p n).2 - n) ++ (new ++ (kept ++ t.rest key))) := by
    refine perm.trans (List.Perm.append_left _ ?_)
    rw [← List.append_assoc]
    exact parts.append_right _
  refine ⟨whole.nodup_iff.mpr ?_, fun id member => ?_⟩
  · refine List.nodup_append.mpr ⟨List.nodup_range', List.nodup_append.mpr ⟨newNodup, keptNodup, ?_⟩, ?_⟩
    · rintro id inNew id' inOld rfl
      have := (newRange id inNew).1
      have := (wellFormed.range id (inTree id inOld)).2
      omega
    · rintro id inRange id' inRest rfl
      have high := (List.mem_range'_1.mp inRange).1
      rcases List.mem_append.mp inRest with inNew | inOld
      · have := (newRange id inNew).2
        omega
      · have := (wellFormed.range id (inTree id inOld)).2
        omega
  · rcases List.mem_append.mp (whole.mem_iff.mp member) with inRange | inRest
    · have := List.mem_range'_1.mp inRange
      exact ⟨by omega, Or.inr (by omega)⟩
    · rcases List.mem_append.mp inRest with inNew | inOld
      · have := newRange id inNew
        exact ⟨by omega, Or.inr this.1⟩
      · have := (wellFormed.range id (inTree id inOld)).2
        exact ⟨by omega, Or.inl (inTree id inOld)⟩

end Tree

/-- A tree of any height. -/
abbrev AnyTree := (h : Nat) × Tree h

/-- What the path copy made of a tree, below a new root where it split the old one; with the next
free id. -/
def Tree.rooted : Part I64 (Tree h) × Nat → AnyTree × Nat
  | (.one t, n) => (⟨h, t⟩, n)
  | (.two a separator b, n) => (⟨h + 1, inner n ⟨[(separator, a)], b⟩⟩, n + 1)

/-- The tree with a part in the place of the key's leaf, under the ids from the next free one on. -/
def Tree.replaceLeaf (ps : PageSize) (key : I64) (t : Tree h) (part : Part I64 Leaf × Nat) :
    AnyTree × Nat :=
  rooted (t.graft key (maxInteriorEntries ps.bytes) part.1 part.2)

section programs

variable {o : Origin} {E : Stop → Prop}

/-- The page of a root with one separator. -/
theorem rootPage_built {profile : Profile} {separator : I64} {left right : Nat} {buf : Bytes}
    (built : buildInteriorPage profile ps.bytes [separator] [left, right] = .ok buf) :
    ∃ buf₁, initInterior profile (List.replicate ps.bytes 0) right = .ok buf₁ ∧
      insertCellAt profile buf₁ interiorHeaderLen 0 (buildInteriorCell separator left) = .ok buf := by
  rw [buildInteriorPage] at built
  obtain ⟨buf₁, init, built⟩ := Res.bind_ok built
  rw [insertInteriorCells] at built
  obtain ⟨buf₂, inserted, built⟩ := Res.bind_ok built
  injection built with same
  subst same
  exact ⟨buf₁, init, inserted⟩

theorem finalizeRoot_runs (fresh : ∀ id, o.start.nextPageId ≤ id → o.writable id) {a b : Tree h}
    {separator : I64} (small : a.id < 4294967296 ∧ b.id < 4294967296) :
    Runs env o v n (finalizeRoot env (.split a.id b.id separator)) (fun root v' n' => root = n ∧
      n' = n + 1 ∧ n < u32Max ∧
      (Tree.inner n ⟨[(separator, a)], b⟩).Known o.start.pager.pageSize v') E := by
  have fits : ∀ id ∈ ([a.id] ++ [b.id] : List Nat), id < 4294967296 := by
    intro id member
    rcases List.mem_append.mp member with first | second
    · rw [List.mem_singleton.mp first]; exact small.1
    · rw [List.mem_singleton.mp second]; exact small.2
  have few := Nat.le_trans (Nat.le_succ 1) (maxInteriorEntries_bound o.start.pager.pageSize)
  obtain ⟨buf, built, page⟩ := InteriorPage.buildInteriorPage_ok env.profile o.start.pager.pageSize
    ⟨[(separator, a.id)], b.id⟩ few fits
  obtain ⟨buf₁, init, inserted⟩ := rootPage_built built
  rw [finalizeRoot]
  refine Runs.pageSize (Runs.ok init
    (Runs.ok inserted (Runs.put fresh page.len fun fresh' => Runs.pure ?_)))
  exact ⟨rfl, rfl, fresh', buf, withPage_same, page⟩

/-- The leaves of the part are made of pages that are known. -/
theorem Fits.below {leaf : Leaf} {p : Part I64 Leaf} (fits : Fits ps v n₀ n key leaf p) (le : n₀ ≤ n)
    (old : ∀ id ∈ leaf.pages, id < n₀) : ∀ l ∈ p.nodes, ∀ id ∈ l.pages, id < n := by
  intro l member id inside
  obtain ⟨new, kept, perm, -, newRange, sub⟩ := fits.pages
  have listed : id ∈ p.flat Leaf.pages := List.mem_flatMap.mpr ⟨l, member, inside⟩
  rcases List.mem_append.mp (perm.mem_iff.mp listed) with isNew | isKept
  · exact (newRange id isNew).2
  · exact Nat.lt_of_lt_of_le (old id (sub.mem isKept)) le

theorem Tree.leaf_pages {id : Nat} (member : id ∈ (t.leafFor key).pages) : id ∈ t.pages :=
  (pages_perm key t).mem_iff.mpr (List.mem_append_right _ (List.mem_append_left _ member))

/-- Everything between the new leaf and the commit. -/
theorem replaceLeaf_runs (fresh : ∀ id, o.start.nextPageId ≤ id → o.writable id) {p : Part I64 Leaf}
    (wellFormed : t.WellFormed nested o.start.pager.pageSize v n₀) (two : firstDataPageId ≤ n₀)
    (grown : Grown v n₀ v' n) (fits : Fits o.start.pager.pageSize v' n₀ n key (t.leafFor key) p)
    (splits : nested = true ∨ ∃ leaf, p = .one leaf) :
    Runs env o v' n (propagate env (t.spine key).reverse (t.leafFor key).id (resultOf (h := 0) p) >>=
      finalizeRoot env)
      (fun root v'' n'' => root < 4294967296 ∧ ∃ (h' : Nat) (t' : Tree h'),
        t.replaceLeaf o.start.pager.pageSize key (p, n) = (⟨h', t'⟩, n'') ∧ t'.id = root ∧
        t'.WellFormed nested o.start.pager.pageSize v'' n'' ∧
        t'.entries = t.left key ++ (p.flat Leaf.entries ++ t.right key) ∧
        ∀ leaf, p = .one leaf → h' = h ∧ t'.separators = t.separators ∧ t'.leafFor key = leaf) E := by
  let cap := maxInteriorEntries o.start.pager.pageSize.bytes
  have parts := fits.below grown.le fun id member => (wellFormed.range id (Tree.leaf_pages member)).2
  have stored : t.Stored o.start.pager.pageSize v' :=
    wellFormed.stored.mono fun id member content known =>
    (grown.same id (wellFormed.range id member).2).trans known
  have below : ∀ id ∈ t.pages, id < n :=
    fun id member => Nat.lt_of_lt_of_le (wellFormed.range id member).2 grown.le
  have copy := propagate_runs env key (E := E) fresh stored wellFormed.sized wellFormed.distinct below
    fun l member => ⟨(fits.stored l member).1, (fits.stored l member).2, parts l member⟩
  obtain ⟨nodup, range⟩ := wellFormed.nodup_graft cap grown.le fits
  have sized :=
    Tree.sized_graft key (maxInteriorEntries_bound o.start.pager.pageSize) p wellFormed.sized n
  have entries := Tree.entries_graft key cap p t n
  have inRange : ∀ id ∈ (t.graft key cap p n).1.flat Tree.pages, firstDataPageId ≤ id ∧
    id < (t.graft key cap p n).2 := by
    intro id member
    obtain ⟨high, old | new⟩ := range id member
    · exact ⟨(wellFormed.range id old).1, high⟩
    · exact ⟨Nat.le_trans two new, high⟩
  -- the path is copied; `finalize_root` then does what the copy of the root asks for
  refine Runs.bind copy ?_
  rintro r v'' n'' - ⟨rfl, rfl, putAlready⟩
  show Runs env o v'' _ (finalizeRoot env (resultOf (t.graft key cap p n).1)) _ E
  cases grafted : (t.graft key cap p n).1 with
  | one t' =>
    rw [grafted] at putAlready sized entries nodup inRange
    rw [Part.flat_one] at entries nodup inRange
    -- the copy of the root is the new root
    have here := putAlready t' List.mem_cons_self
    have ordered : t'.Ordered nested minKey endKey := by
      -- where trees need not nest, no leaf was split, and the order is that of the old tree
      rcases splits with rfl | ⟨leaf, rfl⟩
      · have fenced :=
          Tree.Ordered.graft cap wellFormed.ordered key.between.1 key.between.2 fits.replaces n
        rw [grafted] at fenced
        exact fenced
      · have same : t.graft key cap (.one leaf) n = (.one t', (t.graft key cap (.one leaf) n).2) := by
          rw [← grafted]
        exact (Tree.Ordered.graft_one wellFormed.sized same fits.replaces
          wellFormed.ordered.within key.between
          wellFormed.ordered key.between.1 key.between.2).1
    have whole : t.graft key cap p n = (.one t', (t.graft key cap p n).2) := by rw [← grafted]
    refine Runs.pure ⟨here.2, h, t', congrArg Tree.rooted whole, rfl,
      ⟨here.1, sized t' List.mem_cons_self, ordered, nodup, inRange⟩, entries, ?_⟩
    rintro leaf rfl
    obtain ⟨t'', same, separators, found⟩ := Tree.graft_one key wellFormed.sized leaf n
    have equal : t.graft key cap (.one leaf) n = (.one t'', n + h) := same
    rw [equal] at grafted
    obtain rfl := Part.one.inj grafted
    exact ⟨rfl, separators, found⟩
  | two a separator b =>
    -- the root was split, so its leaf was
    have nestedTree : nested = true := by
      rcases splits with nested | ⟨leaf, rfl⟩
      · exact nested
      · obtain ⟨t'', same, -⟩ := Tree.graft_one key wellFormed.sized leaf n
        have equal : t.graft key cap (.one leaf) n = (.one t'', n + h) := same
        rw [equal] at grafted
        cases grafted
    subst nestedTree
    have fenced := Tree.Ordered.graft cap wellFormed.ordered key.between.1 key.between.2 fits.replaces n
    rw [grafted] at putAlready sized entries nodup inRange fenced
    rw [Part.flat_two] at entries nodup inRange
    have left := putAlready a List.mem_cons_self
    have right := putAlready b (List.mem_cons_of_mem _ List.mem_cons_self)
    -- the halves get a root above them, under the next id
    refine (finalizeRoot_runs (n := (t.graft key cap p n).2) fresh ⟨left.2, right.2⟩).imp ?_
    rintro root v₃ n₃ grown₃ ⟨rfl, rfl, fresh₃, known⟩
    simp only [u32Max] at fresh₃
    have rootPages : (Tree.inner (t.graft key cap p n).2 ⟨[(separator, a)], b⟩).pages
        = (t.graft key cap p n).2 :: (a.pages ++ b.pages) := by
      show (t.graft key cap p n).2 :: (a.pages ++ (b.pages ++ [])) = _
      rw [List.append_nil]
    have whole : t.graft key cap p n = (.two a separator b, (t.graft key cap p n).2) := by rw [← grafted]
    refine ⟨by omega, h + 1, Tree.inner (t.graft key cap p n).2 ⟨[(separator, a)], b⟩,
      congrArg Tree.rooted whole, rfl, ⟨⟨known, fun c child => ?_⟩, ?_, ?_, ?_, ?_⟩, ?_, ?_⟩
    · have inTree : ∀ id ∈ c.pages, id ∈ a.pages ++ b.pages := by
        intro id member
        rcases List.mem_cons.mp child with rfl | second
        · exact List.mem_append_left _ member
        · obtain rfl := List.mem_singleton.mp second
          exact List.mem_append_right _ member
      exact (putAlready c child).1.mono fun id member content found =>
        (grown₃.same id (inRange id (inTree id member)).2).trans found
    · exact ⟨Nat.le_refl 1, Nat.le_trans (Nat.le_succ 1) (maxInteriorEntries_bound _), sized⟩
    · exact ⟨separator.val, ⟨⟨fenced.1.within, fenced.1⟩, rfl⟩, fenced.2.within, fenced.2⟩
    · rw [rootPages]
      refine List.nodup_cons.mpr ⟨fun member => ?_, nodup⟩
      exact absurd (inRange _ member).2 (Nat.lt_irrefl _)
    · rw [rootPages]
      intro id member
      rcases List.mem_cons.mp member with rfl | old
      · exact ⟨Nat.le_trans two (Nat.le_trans grown.le (Tree.pages_graft key cap p t n).1),
          Nat.lt_succ_self _⟩
      · exact ⟨(inRange id old).1, Nat.lt_succ_of_lt (inRange id old).2⟩
    · show a.entries ++ (b.entries ++ []) = _
      rw [List.append_nil, entries]
    · rintro leaf rfl
      obtain ⟨t'', same, -⟩ := Tree.graft_one key wellFormed.sized leaf n
      have equal : t.graft key cap (.one leaf) n = (.one t'', n + h) := same
      rw [equal] at grafted
      cases grafted

end programs

end Pinax
