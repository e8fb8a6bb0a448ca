import Pinax.Verified.Budget
import Pinax.Verified.Chain
import Pinax.Verified.WriteBack

/-! # A payload survives the pool

A payload that was spilled and put into a leaf is read back whatever the pool does to its pages in
between.
-/

namespace Pinax

open Hoare (Ends final)

variable (env : Env)

/-- Pools that calls lead to which put none of the pages `ids`. -/
inductive Later (ids : List Nat) (s : BufferPool) : BufferPool → Prop
  | refl : Later ids s s
  | call {s' : BufferPool} (before : Later ids s s') (call : PoolCall)
      (sized : call.Sized s'.pager.pageSize)
      (other : ∀ id buf, call = .put id buf → id ∉ ids) : Later ids s (final (call.run env s'))

/-- The chain of a payload that was spilled from `s`: one page for each chunk, with ids of its own,
in byte order and ending in `0`.  Without an overflow nothing is done. -/
structure ChainWritten (s : BufferPool) (payload : Bytes) (first : Nat) (s₁ : BufferPool) : Prop where
  count : (overflowIds s.pager.pageSize s.nextPageId payload).length
    = (payload.length - s.pager.pageSize.maxLocal + overflowChunkCap s.pager.pageSize.bytes - 1)
      / overflowChunkCap s.pager.pageSize.bytes
  distinct : (overflowIds s.pager.pageSize s.nextPageId payload).Nodup
  fresh : ∀ id ∈ overflowIds s.pager.pageSize s.nextPageId payload, s.nextPageId ≤ id ∧ id < s₁.nextPageId
  full : FullChunks (overflowChunkCap s.pager.pageSize.bytes) (overflowChunks s.pager.pageSize payload)
  all : (overflowChunks s.pager.pageSize payload).flatten = payload.drop s.pager.pageSize.maxLocal
  linked : Linked s.pager.pageSize (s₁.page env) first
    ((overflowIds s.pager.pageSize s.nextPageId payload).zip (overflowChunks s.pager.pageSize payload))
  short : payload.length ≤ s.pager.pageSize.maxLocal → first = 0 ∧ s₁ = s

variable {env} {s s₁ : BufferPool} {ps : PageSize} {puts v : Pages} {ids : List Nat}

theorem not_loses (works : ∀ k, env.fault k = none) (s : BufferPool) (call : PoolCall) :
    ¬ call.Loses env s := by
  have victim : ∀ s : BufferPool, ¬ s.LosesVictim env := by
    rintro s ⟨-, id, rest, buf, torn, -, -, -, fails, -⟩
    rw [works] at fails
    cases fails
  cases call with
  | put id buf => exact fun loses => victim _ loses.2
  | get id => exact fun loses => victim _ loses.2.2.2
  | allocate | flush | commit root => exact id

theorem Later.keeping (works : ∀ k, env.fault k = none) {s' : BufferPool} (h : Later env ids s s')
    (start : Keeping env ps v s) :
    ∃ v', Keeping env ps v' s' ∧ ∀ id ∈ ids, v' id = v id := by
  induction h with
  | refl => exact ⟨v, start, fun _ _ => rfl⟩
  | @call s' _ call sized other ih =>
    obtain ⟨v', keeping, same⟩ := ih
    refine ⟨_, keeping.call call sized (not_loses works s' call), fun id member => ?_⟩
    rw [← same id member]
    cases call with
    | put id' buf =>
      cases answerOf ((PoolCall.put id' buf).run env s') with
      | error e => rfl
      | ok answer =>
        rw [PoolCall.putBy, withPage_other]
        rintro rfl
        exact other _ buf rfl member
    | allocate | get id' | flush | commit root => rfl

/-- Without an I/O failure a payload is spilled. -/
theorem Keeping.spill (works : ∀ k, env.fault k = none) (keeping : Keeping env ps puts s)
    (two : firstDataPageId ≤ s.nextPageId) {payload : Bytes}
    (within : ¬ Exhausted (final (spillIfNeeded env payload s))) :
    ∃ localBytes first s₁ v₁ n₁, spillIfNeeded env payload s = .ok (localBytes, first) s₁ ∧
      Spilled s.pager.pageSize payload s.nextPageId (localBytes, first) v₁ n₁ ∧
        During env (anyPage s) v₁ n₁ s₁ := by
  have fresh : ∀ id, (anyPage s).start.nextPageId ≤ id → (anyPage s).writable id :=
    fun id high => Nat.le_trans two high
  have spills : Runs env (anyPage s) puts s.nextPageId (spillIfNeeded env payload)
      (Spilled s.pager.pageSize payload s.nextPageId) (fun _ => False) := spillIfNeeded_runs fresh payload
  have ends := spills.works keeping.during (fun k _ => works k) within
  cases spill : spillIfNeeded env payload s with
  | error e s₁ =>
    rw [spill] at ends
    exact ends.1.elim
  | ok spilled s₁ =>
    rw [spill] at ends
    obtain ⟨v₁, n₁, -, written, during⟩ := ends
    exact ⟨spilled.1, spilled.2, s₁, v₁, n₁, rfl, written, during⟩

/-- Spilling a payload, putting its cell into a leaf and reading it again, after any calls that put
other pages, gives the payload back. -/
theorem spill_round_trip (works : ∀ k, env.fault k = none) (run : KeepingRun env s puts)
    (two : firstDataPageId ≤ s.nextPageId) {payload : Bytes} (small : payload.length ≤ u32Max)
    (within : ¬ Exhausted (final (spillIfNeeded env payload s))) :
    ∃ localBytes first s₁, spillIfNeeded env payload s = .ok (localBytes, first) s₁ ∧
      ChainWritten env s payload first s₁ ∧
      ∀ leafBuf start cells index key, LeafPage s.pager.pageSize leafBuf start cells →
        index ≤ cells.length →
        (∀ free, freeSpace env.profile leafBuf leafHeaderLen = .ok free →
          (buildLeafCell key payload.length first localBytes).length + pointerLen ≤ free) →
        ∃ buf' cell, insertCellAt env.profile leafBuf leafHeaderLen index
          (buildLeafCell key payload.length first localBytes)
            = .ok buf' ∧
          (∀ buf, buf.length = buf'.length → body buf = body buf' →
            leafCellAt buf index s.pager.pageSize.maxLocal = .ok cell) ∧ cell.key = key ∧
          ∀ s₂, Later env (overflowIds s.pager.pageSize s.nextPageId payload) s₁ s₂ →
            ∃ s₃, reassemble env cell s₂ = .ok payload s₃ := by
  obtain ⟨localBytes, first, s₁, v₁, n₁, spill, written, during⟩ := run.keeping.spill works two within
  have local' : localBytes = payload.take s.pager.pageSize.maxLocal := written.local'
  refine ⟨localBytes, first, s₁, spill, ⟨?_, nodup_overflowIds _ _ _, ?_, ?_, ?_, ?_, ?_⟩, ?_⟩
  · rw [length_overflowIds, overflowChunks, length_chunksOf (overflowChunkCap_pos _) (Nat.le_refl _),
      List.length_drop]
  · intro id member
    rw [during.next, written.next]
    exact mem_overflowIds.mp member
  · exact chunksOf_full (overflowChunkCap_pos _) _ _
  · exact chunksOf_flatten (overflowChunkCap_pos _) (Nat.le_refl _)
  · exact written.linked.mono fun page _ content known => (during.agree page.1 content known).2
  -- a short payload is not spilled, and no page is put
  · intro short
    have done : spillIfNeeded env payload s = .ok (payload, 0) s := by
      have size : BufferPool.pageSize s = .ok s.pager.pageSize s := rfl
      rw [spillIfNeeded, Hoare.bind_ok size, if_pos short]
      rfl
    have same := spill.symm.trans done
    injection same with same same'
    injection same with _ zero
    exact ⟨zero, same'⟩
  -- the cell goes into any leaf that has room for it, and is read back from there
  · intro leafBuf start cells index key leaf inside room
    let cell := payloadCell s.pager.pageSize key payload first
    have fits : cell.Fits s.pager.pageSize.maxLocal := payloadCell_fits small written.linkFits
    have bytes : buildLeafCell key payload.length first localBytes = cell.bytes := by rw [local']; rfl
    rw [bytes] at room ⊢
    have enough := room _ (leaf.freeSpace_eq env.profile)
    have bounds := leaf.bounds
    rw [LeafCell.length_bytes, pointerLen] at enough
    obtain ⟨buf', inserted, page⟩ := leaf.insertCellAt_ok env.profile inside fits (by omega)
    have found : (cells.insertIdx index cell)[index]? = some cell :=
      List.getElem?_insertIdx_self.trans (if_pos inside)
    refine ⟨buf', cell, inserted, fun buf len same =>
      (page.congr same (len.trans page.len)).cellAt_eq found, rfl, ?_⟩
    intro s₂ later
    -- what the pool did later has left the pages of the chain as they were
    obtain ⟨v₂, keeping₂, same⟩ := later.keeping works (.of_during rfl during)
    have positive : 0 < s.nextPageId := Nat.lt_of_lt_of_le (by decide) two
    have whole :=
      (written.reassembles positive key).mono fun id member content known => (same id member).trans known
    have size : (anyPage s₂).start.pager.pageSize = s.pager.pageSize := keeping₂.pageSize
    have whole' : Reassembles (anyPage s₂).start.pager.pageSize v₂ cell
        (overflowIds s.pager.pageSize s.nextPageId payload) payload := by
      rw [size]
      exact whole
    have reads : Reads env (anyPage s₂) v₂ s₂.nextPageId (reassemble env cell) (· = payload)
      (fun _ => False) :=
      reassemble_reads whole'
    have ends := reads.works keeping₂.during (fun k _ => works k)
    cases read : reassemble env cell s₂ with
    | error e s₃ =>
      rw [read] at ends
      exact ends.1.elim
    | ok bytes s₃ =>
      rw [read] at ends
      exact ⟨s₃, by rw [ends.1]⟩

/-- A payload of 10000 bytes has a chain of two pages.  Putting another page into a pool of one page
evicts them, and reading the cell from its leaf gives the payload back. -/
theorem spill_round_trip_chain :
    let env := Env.faultless .dev fun _ => 0
    let s := emptyPool ⟨true, File.empty, 0, []⟩ 1
    let payload : Bytes := List.replicate 10000 7
    let key : I64 := ⟨1, by decide, by decide⟩
    ∃ localBytes first s₁ leafBuf buf' cell s₂ s₃, spillIfNeeded env payload s =
      .ok (localBytes, first) s₁ ∧
      (overflowIds PageSize.default 2 payload).length = 2 ∧ ChainWritten env s payload first s₁ ∧
      insertCellAt .dev leafBuf leafHeaderLen 0
        (buildLeafCell key payload.length first localBytes) = .ok buf' ∧
      leafCellAt buf' 0 PageSize.default.maxLocal = .ok cell ∧
      (PoolCall.put 9 (List.replicate 4096 0)).run env s₁ = .ok .done s₂ ∧
        reassemble env cell s₂ = .ok payload s₃ := by
  intro env s payload key
  have len : payload.length = 10000 := List.length_replicate
  have page : (List.replicate 4096 (0 : UInt8)).length = PageSize.default.bytes := List.length_replicate
  clear_value payload
  generalize List.replicate 4096 (0 : UInt8) = other at page
  have works : ∀ k, env.fault k = none := fun _ => rfl
  have start : KeepingRun env s fun _ => none :=
    .new (if_pos (Nat.le_refl 1) : BufferPool.new _
      ((MetaContent.initial PageSize.default).pager 0) 1 = _)
  have chunks : (overflowChunks PageSize.default payload).length = 2 := by
    rw [overflowChunks, length_chunksOf (overflowChunkCap_pos _) (Nat.le_refl _), List.length_drop, len]
    decide
  have within : ¬ Exhausted (final (spillIfNeeded env payload s)) := by
    have room : s.nextPageId + (overflowChunks PageSize.default payload).length ≤ u32Max := by
      rw [chunks]
      decide
    have fresh : ¬ Exhausted s := by
      intro exhausted
      obtain ⟨id, member, -⟩ := exhausted
      exact absurd member List.not_mem_nil
    exact ((spillIfNeeded_takes payload).spends rfl room fresh).within
  obtain ⟨localBytes, first, s₁, v₁, n₁, spill, spilled, during⟩ :=
    start.keeping.spill works (Nat.le_refl 2) within
  obtain ⟨localBytes', first', s', spill', written, reads⟩ :=
    spill_round_trip works start (Nat.le_refl 2) (by rw [len]; decide) within
  obtain ⟨same, rfl⟩ := EStateM.Result.ok.inj (spill.symm.trans spill')
  obtain ⟨rfl, rfl⟩ := Prod.mk.inj same
  have two : (overflowIds PageSize.default 2 payload).length = 2 :=
    (length_overflowIds _ _ _).trans chunks
  -- an empty leaf has room for the cell
  obtain ⟨leafBuf, -, leaf⟩ := initLeaf_ok .dev PageSize.default
  have kept : localBytes.length = 4053 := by
    have local' : localBytes = payload.take PageSize.default.maxLocal := spilled.local'
    rw [local', List.length_take, len]
    decide
  have room : ∀ free, freeSpace env.profile leafBuf leafHeaderLen = .ok free →
      (buildLeafCell key payload.length first localBytes).length + pointerLen ≤ free := by
    intro free same
    obtain rfl := Except.ok.inj ((leaf.freeSpace_eq .dev).symm.trans same)
    have size : (buildLeafCell key payload.length first localBytes).length = 4069 := by
      simp [buildLeafCell, kept]
    rw [size]
    decide
  obtain ⟨buf', cell, inserted, found, -, again⟩ := reads leafBuf _ [] 0 key leaf (Nat.le_refl 0) room
  -- the other page is none of the chain
  have apart : 9 ∉ overflowIds PageSize.default 2 payload := by
    intro member
    rw [mem_overflowIds, ← length_overflowIds PageSize.default 2, two] at member
    omega
  have keeping : Keeping env PageSize.default v₁ s₁ := .of_during rfl during
  have size : s₁.pager.pageSize = PageSize.default := keeping.pageSize
  rw [← size] at page
  have put : ∃ s₂, (PoolCall.put 9 other).run env s₁ = .ok .done s₂ := by
    have ends := putNew_ends keeping.during (show firstDataPageId ≤ 9 by decide) page
    cases run : BufferPool.putNew env 9 other s₁ with
    | ok u s₂ => exact ⟨s₂, Hoare.bind_ok run⟩
    | error e s₂ =>
      rw [run] at ends
      obtain ⟨-, ⟨k, -, -, fails⟩, -⟩ := ends
      cases fails
  obtain ⟨s₂, put⟩ := put
  have unchanged : Later env (overflowIds PageSize.default 2 payload) s₁ s₁ := Later.refl
  have later := unchanged.call (.put 9 other) ⟨by decide, page⟩ fun id buf same => by
    obtain ⟨rfl, -⟩ := PoolCall.put.inj same
    exact apart
  rw [put] at later
  obtain ⟨s₃, reassembled⟩ := again s₂ later
  exact ⟨localBytes, first, s₁, leafBuf, buf', cell, s₂, s₃, spill, two, written, inserted,
    found buf' rfl rfl, put, reassembled⟩

end Pinax
