import Pinax.Verified.Faultless

/-! # The first insertions

An insertion into an empty tree makes one page, takes an id for it, puts it and commits.  Where the
write of that page fails, the page stays dirty, its id is gone, and the insertion can be tried
again.  Short rows are then inserted one after the other without a split.
-/

namespace Pinax

open Hoare (final Ends)
open BufferPool (allocatePageId putNew commit)

variable {env : Env} {id : Nat} {s s' : BufferPool} {cur : Snapshot} {past lineage : List Snapshot}
  {half : Option File} {floor fuel since k n : Nat} {key : I64} {call : Call} {guard : CallGuard}
  {log : List Call} {ps : PageSize} {c : Content} {row : Row} {encoded : Bytes}

/-! ## Inserting into an empty tree -/

theorem allocatePageId_room (env : Env) (fits : s.nextPageId < u32Max) :
    allocatePageId env s = .ok s.nextPageId s.handedOut := by
  rcases allocatePageId_apply env s with ⟨-, taken⟩ | ⟨full, -⟩
  · exact taken
  · simp only [u32Max] at fits
    omega

/-- The first insertion of a row that is not spilled makes its page, takes an id for it, puts it and
commits. -/
theorem insert_first_eq (env : Env) (root : s.pager.rootPageId = emptyTreeRoot)
    (encodes : row.encode key = .ok encoded) (short : encoded.length ≤ s.pager.pageSize.maxLocal)
    (fuel : Nat) :
    ∃ buf : Bytes, buf.length = s.pager.pageSize.bytes ∧ Btree.insert env fuel key row s
      = (allocatePageId env >>= fun id => putNew env id buf >>= fun _ => commit env id >>= fun _ =>
        pure id : PoolM Nat) s := by
  have sizes := s.pager.pageSize.bounds
  have small : encoded.length < 2 ^ 32 := by
    simp only [PageSize.maxLocal, PageSize.usableSpace] at short
    omega
  obtain ⟨buf, init, page⟩ := initLeaf_ok env.profile s.pager.pageSize
  let cell := payloadCell s.pager.pageSize key encoded 0
  have fits : cell.Fits s.pager.pageSize.maxLocal :=
    payloadCell_fits (Nat.le_of_lt_succ small) (by decide)
  obtain ⟨buf', inserted, page'⟩ :=
    page.insertCellAt_ok env.profile (Nat.le_refl 0) fits (first_fits fits)
  have size : BufferPool.pageSize s = .ok s.pager.pageSize s := rfl
  have built : buildRowCell env key row s = .ok cell.bytes s := by
    have local' : spillIfNeeded env encoded s = .ok (encoded, 0) s := by
      rw [spillIfNeeded, Hoare.bind_ok size, if_pos short]
      rfl
    have bytes : cell.bytes = buildLeafCell key (tryFromOr 32 encoded.length u32Max) 0 encoded := by
      rw [tryFromOr_of_lt small, LeafCell.bytes,
        show cell.localBytes = encoded from List.take_of_length_le short]
      rfl
    rw [buildRowCell, encodes, liftM_ok, pure_bind, Hoare.bind_ok local', bytes]
    rfl
  have read : BufferPool.rootPageId s = .ok emptyTreeRoot s := by
    rw [← root]
    rfl
  refine ⟨buf', page'.len, ?_⟩
  rw [Btree.insert_eq, Hoare.bind_ok read, if_pos rfl, Btree.insertFirst, Hoare.bind_ok built,
    Hoare.bind_ok size, init, liftM_ok, pure_bind, inserted, liftM_ok, pure_bind]

/-- The first insertion takes one id. -/
theorem insert_first_ids {t : BufferPool} (root : s.pager.rootPageId = emptyTreeRoot)
    (encodes : row.encode key = .ok encoded) (short : encoded.length ≤ s.pager.pageSize.maxLocal)
    (taken : allocatePageId env s = .ok id t) (fuel : Nat) :
    SameIds t (final ((Call.insert key row).run env fuel s)) := by
  obtain ⟨buf, -, run⟩ := insert_first_eq env root encodes short fuel
  rw [Hoare.bind_ok taken] at run
  have quiet : Quiet (putNew env id buf >>= fun _ => commit env id >>= fun _ =>
    pure id : PoolM Nat) := inferInstance
  have same := quiet.moves t
  rw [← run] at same
  rw [run_insert]
  cases inserted : Btree.insert env fuel key row s with
  | ok root' s' =>
    rw [inserted] at same
    rw [Hoare.bind_ok inserted]
    exact same
  | error e s' =>
    rw [inserted] at same
    rw [Hoare.bind_error inserted]
    exact same

theorem insert_first_allocates (root : s.pager.rootPageId = emptyTreeRoot)
    (encodes : row.encode key = .ok encoded) (short : encoded.length ≤ s.pager.pageSize.maxLocal)
    (fits : s.nextPageId < u32Max) (fuel : Nat) :
    allocated ((final ((Call.insert key row).run env fuel s)).disk.trace.drop s.disk.trace.length) =
      [s.nextPageId] := by
  obtain ⟨-, -, ext, trace, none⟩ :=
    insert_first_ids root encodes short (allocatePageId_room env fits) fuel
  have handed : s.handedOut.disk.trace = s.disk.trace ++ [.alloc s.nextPageId] := rfl
  rw [trace, handed, List.append_assoc, List.drop_left, allocated_append, none]
  rfl

/-! ## A write that fails -/

/-- The write of its page fails. -/
theorem insert_first_fails (settled : Settled env cur past half floor s)
    (root : s.pager.rootPageId = emptyTreeRoot) (encodes : row.encode key = .ok encoded)
    (short : encoded.length ≤ s.pager.pageSize.maxLocal) (empty : s.entries = ∅)
    (fits : s.nextPageId < u32Max) (fails : (env.fault s.disk.clock).isSome = true) (fuel : Nat) :
    ∃ s', (Call.insert key row).run env fuel s = .error .io s' ∧ Faulted env (callFrom env s floor) s' ∧
      Failed env (callFrom env s floor) s' := by
  obtain ⟨n, -, during⟩ := settled.start
  obtain rfl : s.nextPageId = n := during.next
  have taken := allocatePageId_room env fits
  obtain ⟨buf, len, run⟩ := insert_first_eq env root encodes short fuel
  -- the pool is empty, so that putting the page evicts none
  have room : s.handedOut.entries.keys.length < s.handedOut.capacity := by
    show s.entries.keys.length < s.capacity
    rw [empty]
    exact settled.sound.positive
  have absent : s.nextPageId ∉ s.handedOut.entries := by
    show s.nextPageId ∉ s.entries
    rw [empty]
    exact AList.notMem_empty _
  have put : putNew env s.nextPageId buf s.handedOut =
    .ok ⟨⟩ (s.handedOut.cached s.nextPageId buf true) :=
    insertCached_room during.handedOut.sound absent room buf true
  have ends := putNew_ends during.handedOut (settled.fresh s.nextPageId (Nat.le_refl _)) len
  rw [put] at ends
  have during : During env (callFrom env s floor) _ _ (s.handedOut.cached s.nextPageId buf true) := ends
  obtain ⟨s', flush⟩ :=
    flushAllDirty_fails during.sound (show (env.fault s.disk.clock).isSome = true from fails)
  have flushed := flushAllDirty_ends during
  rw [flush] at flushed
  have failed : commit env s.nextPageId (s.handedOut.cached s.nextPageId buf true) = .error .io s' :=
    Hoare.bind_error flush
  rw [Hoare.bind_ok taken, Hoare.bind_ok put, Hoare.bind_error failed] at run
  obtain ⟨-, faulted, during'⟩ := flushed
  refine ⟨s', ?_, faulted, during'.failed⟩
  rw [run_insert]
  exact Hoare.bind_error run

/-- A new database whose first I/O call after the creation fails, and with it the first insertion. -/
theorem first_insert_fails (profile : Profile) (xxh3 : Bytes → UInt64) (ps : PageSize)
    {capacity : Nat} (positive : 1 ≤ capacity) (encodes : row.encode key = .ok encoded)
    (short : encoded.length ≤ ps.maxLocal) (fuel : Nat) :
    let env := Env.failingAt profile xxh3 4
    ∃ s s', Database.createWithCapacity env ps capacity ⟨false, File.empty, 0, []⟩ = .ok s s.disk ∧
      Stays env ps [⟨s.pager.content, s.disk.file⟩] s none (.insert key row) fuel (.error .io) s' ∧
      s.pager = (MetaContent.initial ps).pager 0 ∧ s.nextPageId = 2 ∧ s'.nextPageId = 3 := by
  intro env
  obtain ⟨s, create, created, holds, fresh, size, clock⟩ :
    ∃ s, Database.createWithCapacity env ps capacity _ = _ ∧ _ :=
    created_empty (fun n early => if_neg (by omega)) positive
  have root : s.pager.rootPageId = emptyTreeRoot := by
    rw [created.pager]
    rfl
  have two : s.nextPageId = 2 := created.next
  have room : s.nextPageId < u32Max := by
    rw [two]
    decide
  have fault : (env.fault s.disk.clock).isSome = true := by
    rw [clock]
    rfl
  have short : encoded.length ≤ s.pager.pageSize.maxLocal := by rw [size]; exact short
  have settled := Settled.of_created created
  obtain ⟨s', run, ⟨k, late, before, fails⟩, failed⟩ :=
    insert_first_fails settled root encodes short created.empty room fault fuel
  have settled' := settled.of_failed failed
  obtain ⟨m, during⟩ := failed
  -- call 4 was the one that fails, and the only id that was handed out is 2
  have four : k = 4 := by
    by_contra other
    have works : env.fault k = none := if_neg other
    rw [works] at fails
    cases fails
  have later : ∀ k, s'.disk.clock ≤ k → env.fault k = none := fun k' after => if_neg (by omega)
  have ids := insert_first_ids root encodes short (allocatePageId_room env room) fuel
  rw [run, Hoare.final_error] at ids
  have next : s'.nextPageId = 3 := ids.1.trans (congrArg (· + 1) two)
  have unexhausted : ¬ Exhausted s' := ids.exhausted.not.mpr (handedOut_fresh room fresh)
  have pager : s'.pager = s.pager := during.pager
  have steady : Steady env ps _ s' none :=
    ⟨⟨_, [], _, rfl, settled', holds⟩, unexhausted, by rw [pager, size], later⟩
  exact ⟨s, s', create, ⟨by rw [run]; rfl, by rw [run]; rfl, steady, pager, during.framed.slot⟩,
    created.pager, two, next⟩

/-! ## Short rows -/

/-- At most `k` rows of at most 24 bytes, on one leaf of the default size without dead space. -/
def Content.Short (k : Nat) (c : Content) : Prop :=
  ∀ t ∈ c, ∃ leaf : Leaf, t = ⟨0, leaf⟩ ∧ leaf.entries.length ≤ k ∧ 4088 ≤ leaf.start + 40 * k

namespace Content.Short

theorem empty (k : Nat) : Content.Short k none := fun _ member => absurd member (Option.not_mem_none _)

theorem height (short : c.Short k) : c.height = 0 := by
  cases c with
  | none => rfl
  | some t =>
    obtain ⟨leaf, rfl, -⟩ := short t rfl
    rfl

theorem size (brief : encoded.length ≤ 24) (first : Nat) :
    (payloadCell PageSize.default key encoded first).size ≤ 40 := by
  rw [LeafCell.size, payloadCell, List.length_take]
  omega

theorem roomy {leaf : Leaf} {cell : LeafCell} (few : leaf.entries.length ≤ k)
    (high : 4088 ≤ leaf.start + 40 * k) (small : k ≤ 90) (size : cell.size ≤ 40) :
    (leaf.without key).Roomy cell := by
  have fewer : (leaf.without key).entries.length ≤ leaf.entries.length := List.length_filter_le _ _
  have start : (leaf.without key).start = leaf.start := rfl
  rw [Leaf.Roomy, start]
  omega

theorem fits (short : c.Short k) (small : k ≤ 90) (encodes : row.encode key = .ok encoded)
    (brief : encoded.length ≤ 24) :
    c.SplitsFit PageSize.default (.insert key row) := by
  intro t member _ encoded' same
  obtain ⟨leaf, rfl, few, high⟩ := short t member
  obtain rfl := Except.ok.inj (encodes.symm.trans same)
  exact Or.inl (roomy few high small (size brief 0))

theorem insert (short : c.Short k) (small : k ≤ 90) (encodes : row.encode key = .ok encoded)
    (brief : encoded.length ≤ 24) (n : Nat) :
    (c.after PageSize.default n (.insert key row)).Short (k + 1) := by
  rw [Content.after_insert encodes]
  intro t member
  obtain rfl := Option.some.inj member
  let e := rowEntry PageSize.default key row encoded n
  have cell : e.cell.size ≤ 40 := size brief _
  cases c with
  | none =>
    refine ⟨Leaf.fresh PageSize.default (n + e.ids.length) [e], rfl, Nat.succ_le_succ (Nat.zero_le k), ?_⟩
    have total : cellsLen ([e].map Entry.cell) = e.cell.size := Nat.add_zero _
    have amount : PageSize.default.contentEnd = 4088 := by decide
    rw [Leaf.fresh, total, amount]
    show 4088 ≤ 4088 - e.cell.size + 40 * (k + 1)
    omega
  | some t =>
    obtain ⟨leaf, rfl, few, high⟩ := short t rfl
    -- 91 cells of 40 bytes and their pointers fit a page
    have room : (leaf.without key).Roomy e.cell := roomy few high small cell
    have fewer : (leaf.without key).entries.length ≤ leaf.entries.length := List.length_filter_le _ _
    let grown : Leaf :=
      ⟨n + e.ids.length, leaf.start - e.cell.size, (leaf.without key).entries.insertIdx (leaf.rank key) e⟩
    have put : (leaf.without key).insertPart PageSize.default (leaf.rank key) e (n + e.ids.length) =
      (.one grown, n + e.ids.length + 1) :=
      if_pos room
    have len : grown.entries.length ≤ (leaf.without key).entries.length + 1 := by
      rw [List.length_insertIdx]
      split
      · exact Nat.le_refl _
      · exact Nat.le_succ _
    refine ⟨grown, ?_, by omega, ?_⟩
    · show (Tree.replaceLeaf (h := 0) PageSize.default key leaf
        ((leaf.without key).insertPart PageSize.default (leaf.rank key) e (n + e.ids.length))).1 = _
      rw [put]
      rfl
    · show 4088 ≤ leaf.start - e.cell.size + 40 * (k + 1)
      omega

end Content.Short

/-- Such a row is inserted. -/
theorem Steady.insert_short (steady : Steady env PageSize.default lineage s c) (short : c.Short k)
    (small : k ≤ 90) (deep : u32Max ≤ fuel) (encodes : row.encode key = .ok encoded)
    (brief : encoded.length ≤ 24) (absent : c.rows.lookup key = none) (room : s.nextPageId + 3 ≤ u32Max) :
    ∃ s', Advances env PageSize.default lineage s c (.insert key row) fuel .done s' ∧
      (c.after PageSize.default s.nextPageId (.insert key row)).Short (k + 1) ∧
        s'.nextPageId ≤ s.nextPageId + 3 := by
  have cell : encoded.length ≤ PageSize.default.maxLocal := Nat.le_trans brief (by decide)
  have small' : encoded.length ≤ u32Max := Nat.le_trans brief (by decide)
  have pages : (overflowChunks PageSize.default encoded).length + (2 + (2 * c.height + 1)) = 3 := by
    rw [overflowChunks_nil cell, short.height]
    rfl
  obtain ⟨s', step, next⟩ :=
    steady.insert deep encodes small' (short.fits small encodes brief) absent (by omega)
  exact ⟨s', step, short.insert small encodes brief _, by omega⟩

/-- The first row. -/
theorem Steady.first_short (steady : Steady env PageSize.default lineage s none) (deep : u32Max ≤ fuel)
    (encodes : row.encode key = .ok encoded) (brief : encoded.length ≤ 24)
    (room : s.nextPageId + 3 ≤ u32Max) :
    ∃ s', Advances env PageSize.default lineage s none (.insert key row) fuel .done s' ∧
      (Content.after PageSize.default s.nextPageId none (.insert key row)).Short 1 ∧
        s'.nextPageId ≤ s.nextPageId + 3 :=
  steady.insert_short (.empty 0) (Nat.zero_le _) deep encodes brief rfl room

end Pinax
