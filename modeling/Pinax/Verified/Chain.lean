import Pinax.Verified.LeafPage
import Pinax.Verified.Runs

/-! # Overflow chains

`Chain ps v first need ids data` says that reading `need` bytes from page `first` on goes through
the pages `ids` and yields `data`.  `Linked` is the shape of the chain that `write_overflow_chain`
makes.
-/

namespace Pinax

open BufferPool (allocatePageId putNew)

/-- An overflow page that holds `data` and links to page `next`. -/
structure OverflowPage (ps : PageSize) (buf : Bytes) (next : Nat) (data : Bytes) : Prop where
  len : buf.length = ps.bytes
  pageType : slice buf 0 1 = toBe 1 pageTypeOverflow
  link : slice buf 1 4 = toBe 4 next
  linkFits : next < 4294967296
  short : data.length ≤ overflowChunkCap ps.bytes
  data : slice buf overflowHeaderLen data.length = data

inductive Chain (ps : PageSize) (v : Pages) : Nat → Nat → List Nat → Bytes → Prop
  /-- the reader stops at the end of the chain, or when it has what it needs -/
  | stop {first need : Nat} (done : first = 0 ∨ need = 0) : Chain ps v first need [] []
  | link {first need next : Nat} {ids : List Nat} {buf data tail : Bytes} (nonzero : first ≠ 0)
      (more : 0 < need)
      (known : v first = some (body buf)) (page : OverflowPage ps buf next data)
      (amount : data.length = min need (overflowChunkCap ps.bytes))
      (rest : Chain ps v next (need - data.length) ids tail) :
      Chain ps v first need (first :: ids) (data ++ tail)

/-- A chain of pages with their data, in byte order, that ends in `0`. -/
def Linked (ps : PageSize) (v : Pages) : Nat → List (Nat × Bytes) → Prop
  | first, [] => first = 0
  | first, (id, chunk) :: rest =>
    first = id ∧ ∃ buf next, v id = some (body buf) ∧ OverflowPage ps buf next chunk ∧
      Linked ps v next rest

/-- Chunks that are full but for the last one. -/
def FullChunks (cap : Nat) : List Bytes → Prop
  | [] => True
  | chunk :: rest =>
    0 < chunk.length ∧ chunk.length ≤ cap ∧ (rest ≠ [] → chunk.length = cap) ∧ FullChunks cap rest

/-- The cell's payload: its local bytes and those of its overflow pages `ids`. -/
def Reassembles (ps : PageSize) (v : Pages) (cell : LeafCell) (ids : List Nat) (payload : Bytes) : Prop :=
  ∃ tail, Chain ps v cell.overflowFirst (cell.payloadLen - ps.maxLocal) ids tail ∧
    payload = cell.localBytes ++ tail

variable {ps : PageSize} {v v' : Pages} {n : Nat} {buf : Bytes} {first next need : Nat}
  {ids : List Nat} {data : Bytes}

theorem overflowChunkCap_pos (ps : PageSize) : 0 < overflowChunkCap ps.bytes := by
  have := ps.bounds
  simp only [overflowChunkCap, checksumLen, overflowHeaderLen]
  omega

theorem OverflowPage.congr {buf' : Bytes} (h : OverflowPage ps buf next data)
    (same : body buf' = body buf) (len : buf'.length = ps.bytes) : OverflowPage ps buf' next data := by
  have sizes := ps.bounds
  have here := h.len
  have short := h.short
  simp only [overflowChunkCap, checksumLen, overflowHeaderLen] at short
  refine ⟨len, ?_, ?_, h.linkFits, h.short, ?_⟩
  · rw [slice_congr same (by omega) (by omega)]; exact h.pageType
  · rw [slice_congr same (by omega) (by omega)]; exact h.link
  · rw [slice_congr same (by omega) (by simp only [overflowHeaderLen]; omega)]; exact h.data

/-! ## Reading -/

theorem Chain.mono (h : Chain ps v first need ids data)
    (more : ∀ id ∈ ids, ∀ content, v id = some content → v' id = some content) :
    Chain ps v' first need ids data := by
  induction h with
  | stop done => exact .stop done
  | link nonzero some known page amount _ ih =>
    exact .link nonzero some (more _ List.mem_cons_self _ known) page amount
      (ih fun id member => more id (List.mem_cons_of_mem _ member))

theorem Reassembles.mono {cell : LeafCell} {payload : Bytes} (h : Reassembles ps v cell ids payload)
    (more : ∀ id ∈ ids, ∀ content, v id = some content → v' id = some content) :
    Reassembles ps v' cell ids payload := by
  obtain ⟨tail, chain, split⟩ := h
  exact ⟨tail, chain.mono more, split⟩

section programs

variable {env : Env} {o : Origin} {E : Stop → Prop}

theorem OverflowPage.expectPageType (h : OverflowPage ps buf next data) (id : Nat) :
    Pager.expectPageType id buf pageTypeOverflow "overflow" = .ok ⟨⟩ := by
  have := ps.bounds
  have := h.len
  have byte : readU8 buf 0 = .ok pageTypeOverflow := readU8_of_slice (by omega) h.pageType (by decide)
  rw [Pager.expectPageType, byte]
  rfl

/-- The reader returns the data of the chain. -/
theorem readChain_reads (chain : Chain o.start.pager.pageSize v first need ids data) {bound : Nat}
    (enough : need < bound) (out : Bytes) :
    Reads env o v n (readChain env bound first need out) (· = out ++ data) E := by
  induction chain generalizing bound out with
  | @stop first need done =>
    obtain ⟨bound, rfl⟩ : ∃ k, bound = k + 1 := ⟨bound - 1, by omega⟩
    rw [readChain, if_neg (by omega), List.append_nil]
    exact Reads.pure rfl
  | @link first need next ids buf data tail nonzero more known page amount rest ih =>
    obtain ⟨bound, rfl⟩ : ∃ k, bound = k + 1 := ⟨bound - 1, by omega⟩
    have cap := overflowChunkCap_pos o.start.pager.pageSize
    rw [readChain, if_pos ⟨nonzero, more⟩]
    refine Reads.get known fun buf' len' same => ?_
    have page' := page.congr same len'
    have short := page'.short
    simp only [overflowChunkCap, checksumLen, overflowHeaderLen] at short
    have sizes := o.start.pager.pageSize.bounds
    have link : readU32 buf' 1 = .ok next := readU32_of_slice (by omega) page'.link page'.linkFits
    have chunk : readVec buf' overflowHeaderLen
      (min need (overflowChunkCap o.start.pager.pageSize.bytes)) = .ok data := by
      rw [readVec, ← amount, readBytes_of_le (by simp only [overflowHeaderLen]; omega), page'.data]
    refine Reads.ok (page'.expectPageType first) (Reads.ok link (Reads.pageSize (Reads.ok chunk ?_)))
    have left : need - data.length < bound := by omega
    have tail' := ih left (out ++ data)
    rw [amount] at tail'
    rwa [List.append_assoc] at tail'

theorem reassemble_reads {cell : LeafCell} {payload : Bytes}
    (h : Reassembles o.start.pager.pageSize v cell ids payload) :
    Reads env o v n (reassemble env cell) (· = payload) E := by
  obtain ⟨tail, chain, rfl⟩ := h
  rw [reassemble]
  by_cases none : cell.overflowFirst = 0
  · rw [if_pos none]
    cases chain with
    | stop => exact Reads.pure (List.append_nil _).symm
    | link nonzero => exact absurd none nonzero
  · rw [if_neg none]
    refine Reads.pageSize (Reads.bind (readChain_reads chain (Nat.lt_succ_self _) []) ?_)
    rintro out rfl
    exact Reads.pure rfl

/-! ## Writing -/

/-- The page `write_overflow_chain` makes of a chunk. -/
theorem overflowPage_ok (ps : PageSize) {next : Nat} {chunk : Bytes} (linkFits : next < 4294967296)
    (short : chunk.length ≤ overflowChunkCap ps.bytes) :
    ∃ buf₁ buf₂ buf, writeU8 (List.replicate ps.bytes 0) 0 pageTypeOverflow = .ok buf₁ ∧
      writeU32 buf₁ 1 next = .ok buf₂ ∧
      writeBytes buf₂ overflowHeaderLen chunk = .ok buf ∧ OverflowPage ps buf next chunk := by
  have sizes := ps.bounds
  have room := short
  simp only [overflowChunkCap, checksumLen, overflowHeaderLen] at room
  have len₀ : (List.replicate ps.bytes (0 : UInt8)).length = ps.bytes := List.length_replicate
  obtain ⟨buf₁, write₁, len₁, at₁, -⟩ :=
    writeBe_ok (List.replicate ps.bytes 0) 0 1 pageTypeOverflow (by omega)
  obtain ⟨buf₂, write₂, len₂, at₂, apart₂⟩ := writeBe_ok buf₁ 1 4 next (by omega)
  obtain ⟨buf, write₃, len₃, at₃, apart₃⟩ := writeBytes_ok buf₂ 5 chunk (by omega)
  refine ⟨buf₁, buf₂, buf, write₁, write₂, write₃, ⟨by omega, ?_, ?_, linkFits, short, ?_⟩⟩
  · rw [apart₃ 0 1 (by omega), apart₂ 0 1 (by omega), at₁]
  · rw [apart₃ 1 4 (by omega), at₂]
  · rw [overflowHeaderLen, at₃ 5 chunk.length (by omega) (by omega), Nat.sub_self, Slice.slice_full]

theorem Linked.mono {pages : List (Nat × Bytes)} (h : Linked ps v first pages)
    (more : ∀ page ∈ pages, ∀ content, v page.1 = some content → v' page.1 = some content) :
    Linked ps v' first pages := by
  induction pages generalizing first with
  | nil => exact h
  | cons page pages ih =>
    obtain ⟨id, chunk⟩ := page
    obtain ⟨here, buf, next, known, page, rest⟩ := h
    exact ⟨here, buf, next, more _ List.mem_cons_self _ known, page,
      ih rest fun page member => more page (List.mem_cons_of_mem _ member)⟩

/-- The loop puts one page for each chunk in front of the chain it was given. -/
theorem writeChunks_runs (fresh : ∀ id, o.start.nextPageId ≤ id → o.writable id) (chunks : List Bytes)
    (short : ∀ chunk ∈ chunks, chunk.length ≤ overflowChunkCap o.start.pager.pageSize.bytes)
    {nextId : Nat} {written : List (Nat × Bytes)}
    (linked : Linked o.start.pager.pageSize v nextId written) (below : ∀ page ∈ written, page.1 < n)
    (linkFits : nextId < 4294967296) :
    Runs env o v n (writeChunks env chunks nextId) (fun id v' n' => n' = n + chunks.length ∧
      id < 4294967296 ∧
      Linked o.start.pager.pageSize v' id
        (((List.range' n chunks.length).zip chunks).reverse ++ written)) E := by
  induction chunks generalizing v n nextId written with
  | nil => exact Runs.pure ⟨rfl, linkFits, linked⟩
  | cons chunk chunks ih =>
    obtain ⟨buf₁, buf₂, buf, write₁, write₂, write₃, page⟩ :=
      overflowPage_ok o.start.pager.pageSize linkFits (short chunk List.mem_cons_self)
    rw [writeChunks]
    refine Runs.pageSize (Runs.ok write₁ (Runs.ok write₂ (Runs.ok write₃ ?_)))
    refine Runs.put fresh page.len fun small => ?_
    have linked' : Linked o.start.pager.pageSize (withPage v n (body buf)) n ((n, chunk) :: written) :=
      ⟨rfl, buf, nextId, withPage_same, page, linked.mono fun p member content known =>
        (withPage_other (Nat.ne_of_lt (below p member))).trans known⟩
    have below' : ∀ p ∈ (n, chunk) :: written, p.1 < n + 1 := by
      intro p member
      rcases List.mem_cons.mp member with rfl | old
      · exact Nat.lt_succ_self n
      · exact Nat.lt_succ_of_lt (below p old)
    refine (ih (fun c member => short c (List.mem_cons_of_mem _ member)) linked' below'
      (by simp only [u32Max] at small; omega)).imp ?_
    rintro id v' n' - ⟨rfl, fits, done⟩
    refine ⟨by rw [List.length_cons]; omega, fits, ?_⟩
    rw [List.length_cons, List.range'_succ, List.zip_cons_cons, List.reverse_cons, List.append_assoc]
    exact done

/-! ## Chunks -/

theorem chunksOf_full {cap : Nat} (positive : 0 < cap) (bound : Nat) (tail : Bytes) :
    FullChunks cap (chunksOf cap bound tail) := by
  induction bound generalizing tail with
  | zero => trivial
  | succ bound ih =>
    rw [chunksOf]
    split
    next => trivial
    next some =>
      have := List.length_pos_iff.mpr some
      refine ⟨by rw [List.length_take]; omega, by rw [List.length_take]; omega, fun more => ?_, ih _⟩
      rw [List.length_take]
      by_contra short
      have done : tail.drop cap = [] := List.drop_eq_nil_of_le (by omega)
      rw [done] at more
      cases bound with
      | zero => exact more rfl
      | succ bound => exact more (by rw [chunksOf, if_pos rfl])

theorem chunksOf_flatten {cap : Nat} (positive : 0 < cap) {bound : Nat} {tail : Bytes}
    (enough : tail.length ≤ bound) :
    (chunksOf cap bound tail).flatten = tail := by
  induction bound generalizing tail with
  | zero => rw [List.length_eq_zero_iff.mp (Nat.le_zero.mp enough)]; rfl
  | succ bound ih =>
    rw [chunksOf]
    split
    next none => rw [none]; rfl
    next some =>
      have := List.length_pos_iff.mpr some
      rw [List.flatten_cons, ih (by rw [List.length_drop]; omega), List.take_append_drop]

theorem length_chunksOf {cap : Nat} (positive : 0 < cap) {bound : Nat} {tail : Bytes}
    (enough : tail.length ≤ bound) :
    (chunksOf cap bound tail).length = (tail.length + cap - 1) / cap := by
  induction bound generalizing tail with
  | zero =>
    rw [List.length_eq_zero_iff.mp (Nat.le_zero.mp enough), chunksOf, List.length_nil, List.length_nil,
      Nat.div_eq_of_lt (by omega)]
  | succ bound ih =>
    rw [chunksOf]
    split
    next none =>
      rw [none, List.length_nil, List.length_nil, Nat.div_eq_of_lt (by omega)]
    next some =>
      have len := List.length_pos_iff.mpr some
      rw [List.length_cons, ih (by rw [List.length_drop]; omega), List.length_drop]
      by_cases last : tail.length ≤ cap
      · rw [show tail.length - cap = 0 by omega, Nat.div_eq_of_lt (show 0 + cap - 1 < cap by omega),
          show tail.length + cap - 1 = cap + (tail.length - 1) by omega, Nat.add_div_left _ positive,
          Nat.div_eq_of_lt (by omega)]
      · rw [show tail.length + cap - 1 = cap + (tail.length - cap + cap - 1) by omega,
          Nat.add_div_left _ positive]

theorem FullChunks.length_le {cap : Nat} {chunks : List Bytes} (h : FullChunks cap chunks) :
    ∀ chunk ∈ chunks, chunk.length ≤ cap := by
  induction chunks with
  | nil => exact fun _ member => absurd member List.not_mem_nil
  | cons chunk chunks ih =>
    intro c member
    rcases List.mem_cons.mp member with rfl | rest
    · exact h.2.1
    · exact ih h.2.2.2 c rest

theorem FullChunks.length_le_flatten {cap : Nat} {chunks : List Bytes} (h : FullChunks cap chunks) :
    chunks.length ≤ chunks.flatten.length := by
  induction chunks with
  | nil => exact Nat.le_refl 0
  | cons chunk chunks ih =>
    have := ih h.2.2.2
    have := h.1
    rw [List.flatten_cons, List.length_append, List.length_cons]
    omega

/-- The reader finds in a linked chain what was written. -/
theorem Linked.chain {pages : List (Nat × Bytes)} (h : Linked ps v first pages)
    (nonzero : ∀ page ∈ pages, page.1 ≠ 0)
    (full : FullChunks (overflowChunkCap ps.bytes) (pages.map Prod.snd)) :
    Chain ps v first (pages.map Prod.snd).flatten.length (pages.map Prod.fst)
      (pages.map Prod.snd).flatten := by
  induction pages generalizing first with
  | nil => exact .stop (Or.inr rfl)
  | cons page pages ih =>
    obtain ⟨id, chunk⟩ := page
    obtain ⟨rfl, buf, next, known, page, rest⟩ := h
    obtain ⟨some, short, whole, full⟩ := full
    simp only at some short whole
    simp only [List.map_cons, List.flatten_cons, List.length_append]
    refine .link (nonzero _ List.mem_cons_self) (by omega) known page ?_ ?_
    · by_cases last : pages = []
      · rw [last]
        simp only [List.map_nil, List.flatten_nil, List.length_nil]
        omega
      · have := whole (by simpa using last)
        omega
    · rw [Nat.add_sub_cancel_left]
      exact ih rest (fun page member => nonzero page (List.mem_cons_of_mem _ member)) full

/-! ## Spilling -/

/-- The chunks that do not fit the cell. -/
def overflowChunks (ps : PageSize) (payload : Bytes) : List Bytes :=
  chunksOf (overflowChunkCap ps.bytes) (payload.drop ps.maxLocal).length (payload.drop ps.maxLocal)

/-- The ids of the pages of a payload that is spilled when `n` is the next id, in byte order. -/
def overflowIds (ps : PageSize) (n : Nat) (payload : Bytes) : List Nat :=
  (List.range' n (overflowChunks ps payload).length).reverse

/-- What `spill_if_needed` makes of a payload. -/
structure Spilled (ps : PageSize) (payload : Bytes) (n : Nat) (spilled : Bytes × Nat) (v' : Pages)
    (n' : Nat) : Prop where
  local' : spilled.1 = payload.take ps.maxLocal
  next : n' = n + (overflowChunks ps payload).length
  linkFits : spilled.2 < 4294967296
  linked : Linked ps v' spilled.2 ((overflowIds ps n payload).zip (overflowChunks ps payload))

/-- A chain starts at the first of its ids, or at `0` where there is none. -/
theorem Linked.first_eq {ids : List Nat} {chunks : List Bytes} (len : ids.length = chunks.length)
    (h : Linked ps v first (ids.zip chunks)) : first = ids.headD 0 := by
  cases ids with
  | nil => exact h
  | cons id ids =>
    cases chunks with
    | nil => cases len
    | cons chunk chunks => exact h.1

theorem overflowChunks_nil {payload : Bytes} (short : payload.length ≤ ps.maxLocal) :
    overflowChunks ps payload = [] := by
  rw [overflowChunks, List.drop_eq_nil_of_le short]
  rfl

theorem spillIfNeeded_runs (fresh : ∀ id, o.start.nextPageId ≤ id → o.writable id) (payload : Bytes) :
    Runs env o v n (spillIfNeeded env payload) (Spilled o.start.pager.pageSize payload n) E := by
  let ps := o.start.pager.pageSize
  rw [spillIfNeeded]
  refine Runs.pageSize ?_
  by_cases short : payload.length ≤ ps.maxLocal
  · rw [if_pos short]
    have none := overflowChunks_nil short
    refine Runs.pure ⟨(List.take_of_length_le short).symm, by rw [none]; rfl,
      show 0 < 4294967296 by decide, ?_⟩
    rw [none, List.zip_nil_right]
    rfl
  · rw [if_neg short]
    have some : payload.drop ps.maxLocal ≠ [] := fun none => short (List.drop_eq_nil_iff.mp none)
    have full :=
      chunksOf_full (overflowChunkCap_pos ps) (payload.drop ps.maxLocal).length (payload.drop ps.maxLocal)
    have write : Runs env o v n (writeOverflowChain env (payload.drop ps.maxLocal)) (fun id v' n' =>
        n' = n + (overflowChunks ps payload).length ∧ id < 4294967296 ∧
          Linked ps v' id ((overflowIds ps n payload).zip (overflowChunks ps payload))) E := by
      rw [writeOverflowChain, if_neg some]
      have none : Linked ps v 0 [] := rfl
      refine Runs.pageSize ((writeChunks_runs fresh _ (fun chunk member => ?_) none
        (fun _ none => absurd none List.not_mem_nil) (by decide)).imp ?_)
      · exact full.length_le chunk (List.mem_reverse.mp member)
      · rintro id v' n' - ⟨next, fits, linked⟩
        rw [List.length_reverse] at next linked
        refine ⟨next, fits, ?_⟩
        rw [List.append_nil, List.zip,
          List.reverse_zipWith (by rw [List.length_range', List.length_reverse]),
          List.reverse_reverse] at linked
        exact linked
    refine Runs.bind write ?_
    rintro id v' n' - ⟨next, fits, linked⟩
    exact Runs.pure ⟨rfl, next, fits, linked⟩

theorem mem_overflowIds {payload : Bytes} {id : Nat} :
    id ∈ overflowIds ps n payload ↔ n ≤ id ∧ id < n + (overflowChunks ps payload).length := by
  rw [overflowIds, List.mem_reverse, List.mem_range'_1]

theorem nodup_overflowIds (ps : PageSize) (n : Nat) (payload : Bytes) :
    (overflowIds ps n payload).Nodup :=
  List.nodup_reverse.mpr List.nodup_range'

theorem length_overflowIds (ps : PageSize) (n : Nat) (payload : Bytes) :
    (overflowIds ps n payload).length = (overflowChunks ps payload).length := by
  rw [overflowIds, List.length_reverse, List.length_range']

/-- The cell of a payload whose chain starts at `first`. -/
def payloadCell (ps : PageSize) (key : I64) (payload : Bytes) (first : Nat) : LeafCell :=
  ⟨key, payload.length, first, payload.take ps.maxLocal⟩

theorem payloadCell_fits {key : I64} {payload : Bytes} (small : payload.length ≤ u32Max)
    (linkFits : first < 4294967296) :
    (payloadCell ps key payload first).Fits ps.maxLocal := by
  refine ⟨?_, linkFits, ?_⟩
  · simp only [u32Max] at small
    show payload.length < 4294967296
    omega
  · show (payload.take ps.maxLocal).length = leafLocalLen payload.length ps.maxLocal
    rw [List.length_take, leafLocalLen, Nat.min_comm]

/-- What was spilled is reassembled. -/
theorem Spilled.reassembles {payload : Bytes} {spilled : Bytes × Nat} {n' : Nat}
    (h : Spilled ps payload n spilled v n') (positive : 0 < n) (key : I64) :
    Reassembles ps v (payloadCell ps key payload spilled.2) (overflowIds ps n payload) payload := by
  have len := length_overflowIds ps n payload
  have ids : ((overflowIds ps n payload).zip (overflowChunks ps payload)).map Prod.fst =
    overflowIds ps n payload :=
    List.map_fst_zip (Nat.le_of_eq len)
  have chunks : ((overflowIds ps n payload).zip (overflowChunks ps payload)).map Prod.snd =
    overflowChunks ps payload :=
    List.map_snd_zip (Nat.le_of_eq len.symm)
  have flatten : (overflowChunks ps payload).flatten = payload.drop ps.maxLocal :=
    chunksOf_flatten (overflowChunkCap_pos ps) (Nat.le_refl _)
  have chain := h.linked.chain (fun page member => ?_)
    (by rw [chunks]; exact chunksOf_full (overflowChunkCap_pos ps) _ _)
  · rw [ids, chunks, flatten, List.length_drop] at chain
    exact ⟨_, chain, (List.take_append_drop _ _).symm⟩
  · have := (mem_overflowIds.mp (ids ▸ List.mem_map_of_mem member)).1
    omega

theorem buildRowCell_runs (fresh : ∀ id, o.start.nextPageId ≤ id → o.writable id) {key : I64}
    {row : Row} {encoded : Bytes} (encodes : row.encode key = .ok encoded)
    (small : encoded.length ≤ u32Max) :
    Runs env o v n (buildRowCell env key row) (fun bytes v' n' => ∃ spilled : Bytes × Nat,
      bytes = (payloadCell o.start.pager.pageSize key encoded spilled.2).bytes ∧
        Spilled o.start.pager.pageSize encoded n spilled v' n') E := by
  rw [buildRowCell]
  refine Runs.ok encodes (Runs.bind (spillIfNeeded_runs fresh encoded) ?_)
  rintro ⟨localBytes, first⟩ v' n' - spilled
  refine Runs.pure ⟨(localBytes, first), ?_, spilled⟩
  have fits : tryFromOr 32 encoded.length u32Max = encoded.length := by
    simp only [u32Max] at small
    exact tryFromOr_of_lt (by omega)
  have same : localBytes = encoded.take o.start.pager.pageSize.maxLocal := spilled.local'
  rw [fits, same]
  rfl

end programs

end Pinax
