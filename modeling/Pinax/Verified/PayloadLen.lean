import Pinax.Verified.Spill

/-! # The payload length of a leaf cell

`Row::encode` checks the parts of a row against `u32::MAX`, and `build_row_cell` clamps the length
of the whole.  So the cell has the true length, or the row is refused, unless the parts fit and the
whole does not.
-/

namespace Pinax

open Hoare (Moves)

/-- The length of a row's encoding. -/
def Row.encodedLen (row : Row) : Nat := 4 + (row.values.flatMap valueBytes).length

/-- What `encode` checks: the number of the values, and the length of each. -/
def Row.PartsFit (row : Row) : Prop := row.values.length < 2 ^ 32 ∧ ∀ value ∈ row.values, value.Fits

/-- The root and the meta slots are as they were. -/
structure SameSlots (s s' : Database) : Prop where
  pager : s'.pager = s.pager
  slots : ∀ slot, s'.disk.file.slot slot = s.disk.file.slot slot

/-- The pool is sound, and only data pages are dirty. -/
structure Orderly (env : Env) (s : Database) : Prop where
  sound : Sound env s
  low : ∀ id ∈ s.dirty, firstDataPageId ≤ id

/-- The root, the meta slots and the pages of the file that are not dirty are as they were.  The
committed pages are among them, since a call dirties none of those. -/
structure SameTree (env : Env) (s s' : Database) : Prop extends SameSlots s s' where
  orderly : Orderly env s → Orderly env s'
  dirty : Orderly env s → ∀ id ∈ s'.dirty, id ∈ s.dirty
  pages : Orderly env s → ∀ id, firstDataPageId ≤ id → id ∉ s.dirty →
    s'.disk.file.read (Pager.fileOffset s.pager.pageSize id) s.pager.pageSize.bytes =
      s.disk.file.read (Pager.fileOffset s.pager.pageSize id) s.pager.pageSize.bytes

/-- The call fails and leaves the tree as it was: because of the row's length, or for a reason that
it would meet with every row. -/
def Refused {α : Type} (env : Env) (key : I64) (call : Row → PoolM α) (row : Row) (s : Database) : Prop :=
  ∃ e s', call row s = .error e s' ∧ SameTree env s s' ∧
    ((∃ len, e = .permanent (.payloadTooLarge key len)) ∨ ∀ row', call row' s = .error e s')

/-- A cell has the length of its row's encoding, and a row whose encoding is too long is refused. -/
structure LengthKept (key : I64) (row : Row) : Prop where
  cell : ∀ env s cell s', buildRowCell env key row s = .ok cell s' →
    ∃ encoded, row.encode key = .ok encoded ∧ readU32 cell 8 = .ok encoded.length
  refused : u32Max < row.encodedLen → ∀ env fuel s,
    Refused env key (Database.insert env fuel key) row s ∧
      Refused env key (Database.update env fuel key) row s

variable {env : Env} {key : I64} {row : Row} {s s' : Database}

/-! ## What `encode` refuses -/

theorem pushLenPrefixed_cases (buf bytes : Bytes) (key : I64) :
    (bytes.length < 2 ^ 32 ∧ pushLenPrefixed buf bytes key = .ok (buf ++ toBe 4 bytes.length ++ bytes)) ∨
    (¬ bytes.length < 2 ^ 32 ∧ ∃ len,
      pushLenPrefixed buf bytes key = .error (.permanent (.payloadTooLarge key len))) := by
  rw [pushLenPrefixed, tooLargeAsU32]
  by_cases fits : bytes.length < 2 ^ 32
  · rw [if_pos fits]
    exact Or.inl ⟨fits, rfl⟩
  · rw [if_neg fits]
    exact Or.inr ⟨fits, _, rfl⟩

theorem encodeValue_cases (buf : Bytes) (value : Value) (key : I64) :
    (value.Fits ∧ encodeValue buf value key = .ok (buf ++ valueBytes value)) ∨
    (¬ value.Fits ∧ ∃ len, encodeValue buf value key = .error
      (.permanent (.payloadTooLarge key len))) := by
  cases value with
  | text text =>
    have pushed := pushLenPrefixed_cases (buf ++ toBe 1 tagText) (utf8 text) key
    simpa only [encodeValue, valueBytes, Value.Fits, List.append_assoc] using pushed
  | blob bytes =>
    have pushed := pushLenPrefixed_cases (buf ++ toBe 1 tagBlob) bytes key
    simpa only [encodeValue, valueBytes, Value.Fits, List.append_assoc] using pushed
  | null | integer v | real v | boolean v | datetime v => simp [encodeValue, valueBytes, Value.Fits]

theorem encodeValues_cases (key : I64) (values : List Value) (buf : Bytes) :
    ((∀ value ∈ values, value.Fits) ∧
      encodeValues key buf values = .ok (buf ++ values.flatMap valueBytes)) ∨
    ((¬ ∀ value ∈ values, value.Fits) ∧
      ∃ len, encodeValues key buf values = .error (.permanent (.payloadTooLarge key len))) := by
  induction values generalizing buf with
  | nil => exact Or.inl ⟨fun _ member => absurd member List.not_mem_nil, by simp [encodeValues]⟩
  | cons value values ih =>
    rw [encodeValues]
    rcases encodeValue_cases buf value key with ⟨fits, run⟩ | ⟨long, len, run⟩
    · rw [run, ok_bind]
      rcases ih (buf ++ valueBytes value) with ⟨rest, run⟩ | ⟨long, len, run⟩
      · exact Or.inl ⟨List.forall_mem_cons.mpr ⟨fits, rest⟩, by rw [run]; simp⟩
      · exact Or.inr ⟨fun all => long (List.forall_mem_cons.mp all).2, len, run⟩
    · rw [run]
      exact Or.inr ⟨fun all => long (List.forall_mem_cons.mp all).1, len, rfl⟩

theorem Row.encode_cases (row : Row) (key : I64) :
    (row.PartsFit ∧ ∃ encoded, row.encode key = .ok encoded ∧ encoded.length = row.encodedLen) ∨
    (¬ row.PartsFit ∧ ∃ len, row.encode key = .error (.permanent (.payloadTooLarge key len))) := by
  rw [Row.encode, tooLargeAsU32]
  by_cases count : row.values.length < 2 ^ 32
  · rw [if_pos count, ok_bind]
    rcases encodeValues_cases key row.values (toBe 4 row.values.length) with ⟨fits, run⟩ |
      ⟨long, len, run⟩
    · exact Or.inl ⟨⟨count, fits⟩, _, run, by simp [Row.encodedLen]⟩
    · exact Or.inr ⟨fun parts => long parts.2, len, run⟩
  · rw [if_neg count]
    exact Or.inr ⟨fun parts => count parts.1, _, rfl⟩

/-! ## Reading leaves the tree as it was -/

namespace SameSlots

variable {α β : Type}

theorem refl (s : Database) : SameSlots s s := ⟨rfl, fun _ => rfl⟩

theorem trans (s t u : Database) (first : SameSlots s t) (second : SameSlots t u) : SameSlots s u :=
  ⟨second.pager.trans first.pager, fun slot => (second.slots slot).trans (first.slots slot)⟩

theorem bind {x : PoolM α} {f : α → PoolM β} (first : Moves SameSlots x)
    (rest : ∀ a, Moves SameSlots (f a)) :
    Moves SameSlots (x >>= f) := Moves.bind trans first rest

theorem modify {f : Database → Database} (same : ∀ s, SameSlots s (f s)) :
    Moves SameSlots (modify f : PoolM PUnit) := same

theorem res (r : Res α) : Moves SameSlots (liftM r : PoolM α) := fun s => by
  cases r <;> exact refl s

/-- A data page, wherever its id puts it, is outside the meta slots. -/
theorem writeDataPage (id : Nat) (buf : Bytes) :
    Moves SameSlots (writeDataPage env (fun _ => pure ⟨⟩) id buf) := by
  refine bind (res _) fun stampedBuf => bind (Moves.of_pure refl) fun _ => bind
    (Moves.of_get refl) fun s t => ?_
  have apart : ∀ (file : File) (data : Bytes) (torn : Torn) (slot : Fin 2),
      (file.store (Pager.fileOffset s.pager.pageSize id) data torn).slot slot = file.slot slot := by
    intro file data torn slot
    have low := metaRegionLen_le_fileOffset s.pager.pageSize id
    have high := slotOffset_bound slot
    unfold File.slot
    exact File.read_store_disjoint (by omega)
  rcases writeStamped_cases env s.pager id stampedBuf t.disk with ⟨-, run⟩ | ⟨torn, -, run⟩
  · rw [onDisk_ok run]
    exact ⟨rfl, apart _ _ _⟩
  · rw [onDisk_error run]
    exact ⟨rfl, apart _ _ _⟩

theorem evictOne : Moves SameSlots (BufferPool.evictOne env) := by
  refine bind (Moves.of_get refl) fun s => ?_
  cases s.recency with
  | nil => exact Moves.of_throw refl
  | cons id rest =>
    refine bind (modify fun _ => ⟨rfl, fun _ => rfl⟩) fun _ => ?_
    cases s.entries.lookup id with
    | none => exact Moves.of_throw refl
    | some buf =>
      refine bind (modify fun _ => ⟨rfl, fun _ => rfl⟩) fun _ => ?_
      by_cases dirty : id ∈ s.dirty
      · simp only [if_pos dirty]
        exact bind (modify fun _ => ⟨rfl, fun _ => rfl⟩) fun _ => writeDataPage id buf
      · simp only [if_neg dirty]
        exact Moves.of_pure refl

theorem evictWhileFull (bound : Nat) : Moves SameSlots (BufferPool.evictWhileFull env bound) := by
  induction bound with
  | zero => exact Moves.of_throw refl
  | succ bound ih =>
    refine bind (Moves.of_get refl) fun s => ?_
    by_cases full : s.entries.keys.length ≥ s.capacity
    · rw [if_pos full]
      exact bind evictOne fun _ => ih
    · rw [if_neg full]
      exact Moves.of_pure refl

theorem insertCached (id : Nat) (buf : Bytes) (dirty : Bool) :
    Moves SameSlots (BufferPool.insertCached env id buf dirty) := by
  refine bind (modify fun s => ?_) fun _ => bind (Moves.of_get refl) fun s => bind
    (evictWhileFull _) fun _ =>
    bind (modify fun s => ?_) fun _ => modify fun _ => ⟨rfl, fun _ => rfl⟩
  · split <;> exact ⟨rfl, fun _ => rfl⟩
  · split <;> exact ⟨rfl, fun _ => rfl⟩

theorem get (id : Nat) : Moves SameSlots (BufferPool.get env id) := by
  refine bind (Moves.of_get refl) fun s => ?_
  cases s.entries.lookup id with
  | some buf => exact bind (modify fun _ => ⟨rfl, fun _ => rfl⟩) fun _ => Moves.of_pure refl
  | none =>
    refine bind (fun t => ?_) fun buf => bind (insertCached id buf false) fun _ => Moves.of_pure refl
    rcases readDataPage_cases env s.pager id t.disk with ⟨buf, read, -⟩ | ⟨e, read, -⟩
    · rw [onDisk_ok read]
      exact ⟨rfl, fun _ => rfl⟩
    · rw [onDisk_error read]
      exact ⟨rfl, fun _ => rfl⟩

end SameSlots

namespace SameTree

variable {α β : Type}

theorem refl (s : Database) : SameTree env s s := ⟨.refl s, id, fun _ _ => id, fun _ _ _ _ => rfl⟩

theorem trans (s t u : Database) (first : SameTree env s t) (second : SameTree env t u) :
    SameTree env s u where
  toSameSlots := first.toSameSlots.trans _ _ _ second.toSameSlots
  orderly := fun orderly => second.orderly (first.orderly orderly)
  dirty := fun orderly id member => first.dirty orderly id
    (second.dirty (first.orderly orderly) id member)
  pages := fun orderly id low clean => by
    have later :=
      second.pages (first.orderly orderly) id low fun member => clean (first.dirty orderly id member)
    rw [first.pager] at later
    exact later.trans (first.pages orderly id low clean)

theorem bind {x : PoolM α} {f : α → PoolM β} (first : Moves (SameTree env) x)
    (rest : ∀ a, Moves (SameTree env) (f a)) :
    Moves (SameTree env) (x >>= f) := Moves.bind trans first rest

theorem res (r : Res α) : Moves (SameTree env) (liftM r : PoolM α) := fun s => by
  cases r <;> exact refl s

/-- What may happen while only the dirty pages may be written. -/
theorem of_failed {s s' : Database} (slots : SameSlots s s')
    (failed : ∀ orderly : Orderly env s,
      Failed env ⟨s, (· ∈ s.dirty), fun _ => none, orderly.low, nofun⟩ s') : SameTree env s s' where
  toSameSlots := slots
  orderly := fun orderly => by
    obtain ⟨n, during⟩ := failed orderly
    exact ⟨during.sound, fun id member => orderly.low id (during.dirty id member)⟩
  dirty := fun orderly => by
    obtain ⟨n, during⟩ := failed orderly
    exact during.dirty
  pages := fun orderly id low clean => by
    obtain ⟨n, during⟩ := failed orderly
    refine File.read_congr fun i inside => during.framed.same _ fun id' dirty => ?_
    have different : id ≠ id' := fun same => clean (same ▸ dirty)
    have apart := fileOffset_disjoint s.pager.pageSize low (orderly.low id' dirty) different
    show Pager.fileOffset s.pager.pageSize id + i < Pager.fileOffset s.pager.pageSize id' ∨
      Pager.fileOffset s.pager.pageSize id' + s.pager.pageSize.bytes ≤
        Pager.fileOffset s.pager.pageSize id + i
    omega

theorem get (id : Nat) : Moves (SameTree env) (BufferPool.get env id) := fun s => by
  refine of_failed (SameSlots.get id s) fun orderly => ?_
  let o : Origin := ⟨s, (· ∈ s.dirty), fun _ => none, orderly.low, nofun⟩
  have start : During env o o.base s.nextPageId s :=
    .init orderly.sound rfl (fun _ member => member) nofun nofun
  have ends := get_ends start id
  cases run : BufferPool.get env id s with
  | ok buf s' =>
    rw [run] at ends
    exact ends.1.failed
  | error e s' =>
    rw [run] at ends
    cases ends with
    | inl failed => exact failed.2.2
    | inr unreadable => exact unreadable.1.failed

theorem descendPath (fuel root : Nat) : Moves (SameTree env) (descendPath env fuel root key) := by
  unfold Pinax.descendPath
  generalize [root] = path
  induction fuel generalizing root path with
  | zero => exact Moves.of_throw refl
  | succ fuel ih =>
    refine bind (get root) fun buf => bind (res _) fun pageType => ?_
    by_cases leaf : pageType = pageTypeLeaf
    · rw [if_pos leaf]
      exact Moves.of_pure refl
    · rw [if_neg leaf]
      exact bind (res _) fun _ => bind (res _) fun next => ih next (path ++ [next])

end SameTree

/-! ## What is refused -/

namespace Refused

variable {α β : Type}

theorem throw {e : Stop} : Refused env key (fun _ => (throw e : PoolM α)) row s :=
  ⟨e, s, rfl, .refl s, Or.inr fun _ => rfl⟩

theorem bind {x : Row → PoolM α} {f : Row → α → PoolM β} (h : Refused env key x row s) :
    Refused env key (fun row => x row >>= f row) row s := by
  obtain ⟨e, s', run, same, reason⟩ := h
  exact ⟨e, s', Hoare.bind_error run, same,
    reason.imp_right fun every row' => Hoare.bind_error (every row')⟩

/-- A step that does not look at the row comes first. -/
theorem after {x : PoolM α} {f : Row → α → PoolM β} (first : Moves (SameTree env) x)
    (rest : ∀ a s, Refused env key (fun row => f row a) row s) :
    Refused env key (fun row => x >>= f row) row s := by
  have moved := first s
  cases run : x s with
  | error e s₁ =>
    rw [run] at moved
    exact ⟨e, s₁, Hoare.bind_error run, moved, Or.inr fun _ => Hoare.bind_error run⟩
  | ok a s₁ =>
    rw [run] at moved
    obtain ⟨e, s', failed, same, reason⟩ := rest a s₁
    refine ⟨e, s', (Hoare.bind_ok run).trans failed, moved.trans _ _ _ same, ?_⟩
    exact reason.imp_right fun every row' => (Hoare.bind_ok run).trans (every row')

theorem buildRowCell (long : ¬ row.PartsFit) : Refused env key (buildRowCell env key) row s := by
  rcases row.encode_cases key with ⟨fits, -⟩ | ⟨-, len, run⟩
  · exact absurd fits long
  · refine ⟨_, s, ?_, .refl s, Or.inl ⟨len, rfl⟩⟩
    rw [Pinax.buildRowCell, run]
    rfl

theorem insert (long : ¬ row.PartsFit) (fuel : Nat) :
    Refused env key (Database.insert env fuel key) row s := by
  have cut : Btree.insert env fuel key = fun row => _ := funext fun row => Btree.insert_eq fuel key row
  refine bind (f := fun _ _ => pure ()) ?_
  rw [cut]
  refine after (fun s => .refl s) fun root s => ?_
  by_cases empty : root = emptyTreeRoot
  · simp only [if_pos empty]
    exact bind (buildRowCell long)
  · simp only [if_neg empty]
    refine after (SameTree.descendPath fuel root) fun path s => after (SameTree.res _) fun leafId s =>
      after (SameTree.get leafId) fun leafBuf s => after (SameTree.res _) fun found s => ?_
    cases found with
    | found index => exact throw
    | insertAt index => exact bind (buildRowCell long)

theorem update (long : ¬ row.PartsFit) (fuel : Nat) :
    Refused env key (Database.update env fuel key) row s := by
  have cut : Btree.update env fuel key = fun row => _ := funext fun row => Btree.update_eq fuel key row
  refine bind (f := fun _ _ => pure ()) ?_
  rw [cut]
  refine after (fun s => .refl s) fun root s => ?_
  by_cases empty : root = emptyTreeRoot
  · simp only [if_pos empty]
    exact throw
  · simp only [if_neg empty]
    refine after (SameTree.descendPath fuel root) fun path s => after (SameTree.res _) fun leafId s =>
      after (SameTree.get leafId) fun leafBuf s => after (SameTree.res _) fun found s => ?_
    cases found with
    | insertAt index => exact throw
    | found index => exact bind (buildRowCell long)

end Refused

/-! ## Rows that are too long as a whole -/

/-- With room in the cache, nothing has to be evicted. -/
theorem insertCached_fits (sound : Sound env s) (room : s.entries.keys.length < s.capacity)
    (id : Nat) (buf : Bytes) (dirty : Bool) :
    BufferPool.insertCached env id buf dirty s = .ok ⟨⟩ ((s.uncached id).cached id buf dirty) := by
  have room' : (s.uncached id).entries.keys.length < (s.uncached id).capacity := by
    by_cases member : id ∈ s.entries
    · exact sound.room_uncached member
    · rw [uncached_of_absent sound member]
      exact room
  rw [insertCached_eq sound, Hoare.bind_ok (evictWhileFull_room env (Nat.le_add_left 1 _) room')]
  rfl

/-- There is room in the cache for `more` pages. -/
structure Roomy (env : Env) (more : Nat) (s : Database) : Prop where
  sound : Sound env s
  room : s.entries.keys.length + more ≤ s.capacity
  next : s.nextPageId < 2 ^ 32

/-- In a release build an allocation always returns, and so does a put that evicts nothing. -/
theorem Roomy.put {more : Nat} (h : Roomy env (more + 1) s)
    (release : env.profile = .release) {buf : Bytes} (len : buf.length = s.pager.pageSize.bytes) :
    ∃ s₁ s₂, BufferPool.allocatePageId env s = .ok s.nextPageId s₁ ∧
      BufferPool.putNew env s.nextPageId buf s₁ = .ok ⟨⟩ s₂ ∧ Roomy env more s₂ ∧ s₂.pager = s.pager := by
  have room := h.room
  let s₁ : Database := { s with
    disk := { s.disk with trace := s.disk.trace ++ [.alloc s.nextPageId] }
    nextPageId := (s.nextPageId + 1) % 2 ^ 32 }
  have allocated : BufferPool.allocatePageId env s = .ok s.nextPageId s₁ := by
    have next : addW env.profile 32 s.nextPageId 1 = .ok ((s.nextPageId + 1) % 2 ^ 32) := by
      rw [addW, release]
      split
      next small => rw [Nat.mod_eq_of_lt small]
      next => rfl
    rw [BufferPool.allocatePageId, Hoare.get_bind]
    have recorded : onDisk (record (.alloc s.nextPageId)) s
        = .ok ⟨⟩ (s.over { s.disk with trace := s.disk.trace ++ [.alloc s.nextPageId] }) := rfl
    rw [Hoare.bind_ok recorded, next]
    rfl
  have sound : Sound env s₁ := { h.sound with }
  have put :=
    insertCached_fits sound (show s.entries.keys.length < s.capacity by omega) s.nextPageId buf true
  have absent : (s₁.uncached s.nextPageId).entries.lookup s.nextPageId = none := AList.lookup_erase _ _
  have erased : (s.entries.erase s.nextPageId).keys.length ≤ s.entries.keys.length := by
    rw [AList.keys_erase]
    exact List.length_erase_le
  have sound' : Sound env ((s₁.uncached s.nextPageId).cached s.nextPageId buf true) :=
    (sound.uncached s.nextPageId).cached absent
      (show (s.entries.erase s.nextPageId).keys.length < s.capacity by omega) len (by simp)
  refine ⟨s₁, _, allocated, put, ⟨sound', ?_, Nat.mod_lt _ (by decide)⟩, rfl⟩
  show ((s.entries.erase s.nextPageId).insert s.nextPageId buf).keys.length + more ≤ s.capacity
  rw [AList.keys_insert, List.length_cons]
  have := @List.length_erase_le _ _ s.nextPageId (s.entries.erase s.nextPageId).keys
  omega

theorem writeChunks_works (release : env.profile = .release) {chunks : List Bytes} {nextId : Nat}
    (roomy : Roomy env chunks.length s) (linkFits : nextId < 2 ^ 32)
    (short : ∀ chunk ∈ chunks, chunk.length ≤ overflowChunkCap s.pager.pageSize.bytes) :
    ∃ id s', writeChunks env chunks nextId s = .ok id s' ∧ id < 2 ^ 32 := by
  induction chunks generalizing s nextId with
  | nil => exact ⟨nextId, s, rfl, linkFits⟩
  | cons chunk chunks ih =>
    obtain ⟨buf₁, buf₂, buf, write₁, write₂, write₃, page⟩ :=
      overflowPage_ok s.pager.pageSize linkFits (short chunk List.mem_cons_self)
    obtain ⟨s₁, s₂, allocated, put, roomy', pager⟩ := roomy.put release page.len
    have size : BufferPool.pageSize s = .ok s.pager.pageSize s := rfl
    obtain ⟨id, s', run, small⟩ := ih roomy' roomy.next fun c member => by
      rw [pager]
      exact short c (List.mem_cons_of_mem _ member)
    refine ⟨id, s', ?_, small⟩
    rw [writeChunks, Hoare.bind_ok size, write₁, liftM_ok, pure_bind, write₂, liftM_ok, pure_bind,
      write₃, liftM_ok, pure_bind, Hoare.bind_ok allocated, Hoare.bind_ok put]
    exact run

/-- The payload length that a leaf cell is built with. -/
theorem readU32_buildLeafCell (key : I64) {payloadLen : Nat} (fits : payloadLen < 2 ^ 32)
    (first : Nat) (localBytes : Bytes) :
    readU32 (buildLeafCell key payloadLen first localBytes) 8 = .ok payloadLen := by
  have read := readBe_append key.toBeBytes (toBe 4 first ++ localBytes) (n := 4) (v := payloadLen)
    (I64.length_toBeBytes key).symm fits
  simpa only [readU32, buildLeafCell, List.append_assoc] using read

theorem tryFromOr_le (len : Nat) : tryFromOr 32 len u32Max < 2 ^ 32 := by
  rw [tryFromOr]
  split
  next small => exact small
  next => decide

theorem buildRowCell_ok {cell encoded : Bytes} (encodes : row.encode key = .ok encoded)
    (run : buildRowCell env key row s = .ok cell s') :
    readU32 cell 8 = .ok (tryFromOr 32 encoded.length u32Max) := by
  rw [buildRowCell, encodes, liftM_ok, pure_bind] at run
  cases spill : spillIfNeeded env encoded s with
  | error e s₁ =>
    rw [Hoare.bind_error spill] at run
    cases run
  | ok spilled s₁ =>
    rw [Hoare.bind_ok spill] at run
    injection run with same _
    rw [← same]
    exact readU32_buildLeafCell key (tryFromOr_le _) _ _

/-- Where there is room for all of its pages, the cell of a row that encodes is built. -/
theorem buildRowCell_works {encoded : Bytes} (encodes : row.encode key = .ok encoded) :
    ∃ env s cell s', buildRowCell env key row s = .ok cell s' := by
  -- a pool on an empty file, with more room than the chain can have pages
  let env := Env.faultless .release fun _ => 0
  let s := emptyPool ⟨true, File.empty, 0, []⟩ (encoded.length + 1)
  have size : BufferPool.pageSize s = .ok PageSize.default s := rfl
  have works : ∃ spilled s', spillIfNeeded env encoded s = .ok spilled s' := by
    rw [spillIfNeeded, Hoare.bind_ok size]
    by_cases short : encoded.length ≤ PageSize.default.maxLocal
    · rw [if_pos short]
      exact ⟨_, _, rfl⟩
    · rw [if_neg short]
      have tail : encoded.drop PageSize.default.maxLocal ≠ [] := by
        intro none
        have := List.drop_eq_nil_iff.mp none
        omega
      have positive := overflowChunkCap_pos PageSize.default
      let chunks :=
        chunksOf (overflowChunkCap PageSize.default.bytes) (encoded.drop PageSize.default.maxLocal).length
        (encoded.drop PageSize.default.maxLocal)
      have full : FullChunks (overflowChunkCap PageSize.default.bytes) chunks :=
        chunksOf_full positive _ _
      -- each page of the chain holds a byte, so there are at most as many as bytes
      have few : chunks.reverse.length ≤ encoded.length := by
        have flatten : chunks.flatten = encoded.drop PageSize.default.maxLocal :=
          chunksOf_flatten positive (Nat.le_refl _)
        have total := congrArg List.length flatten
        have := full.length_le_flatten
        rw [List.length_drop] at total
        rw [List.length_reverse]
        omega
      have roomy : Roomy env chunks.reverse.length s :=
        ⟨emptyPool_sound env _ (Nat.le_add_left 1 _), by show 0 + _ ≤ encoded.length + 1; omega,
          show 2 < 2 ^ 32 by decide⟩
      obtain ⟨id, s', run, -⟩ :=
        writeChunks_works rfl roomy (show 0 < 2 ^ 32 by decide) fun chunk member =>
        full.length_le chunk (List.mem_reverse.mp member)
      refine ⟨(encoded.take PageSize.default.maxLocal, id), s', ?_⟩
      have chain : writeOverflowChain env (encoded.drop PageSize.default.maxLocal) s = .ok id s' := by
        rw [writeOverflowChain, if_neg tail, Hoare.bind_ok size]
        exact run
      rw [Hoare.bind_ok chain]
      rfl
  obtain ⟨spilled, s', run⟩ := works
  refine ⟨env, s, buildLeafCell key (tryFromOr 32 encoded.length u32Max) spilled.2 spilled.1, s', ?_⟩
  rw [buildRowCell, encodes, liftM_ok, pure_bind, Hoare.bind_ok run]
  rfl

/-- A row keeps its length, or is refused, exactly when its encoding fits the length field or one of
its parts does not fit its own. -/
theorem length_kept_iff (key : I64) (row : Row) :
    LengthKept key row ↔ row.encodedLen ≤ u32Max ∨ ¬ row.PartsFit := by
  constructor
  · intro kept
    by_contra neither
    rw [not_or, not_not, Nat.not_le] at neither
    obtain ⟨long, parts⟩ := neither
    rcases row.encode_cases key with ⟨-, encoded, encodes, len⟩ | ⟨unfit, -⟩
    · obtain ⟨env, s, cell, s', run⟩ := buildRowCell_works encodes
      obtain ⟨encoded', encodes', true'⟩ := kept.cell env s cell s' run
      obtain rfl : encoded = encoded' := Except.ok.inj (encodes.symm.trans encodes')
      have clamped := buildRowCell_ok encodes run
      rw [true', len, tryFromOr, if_neg (by simp only [u32Max] at long; omega),
        Except.ok.injEq] at clamped
      omega
    · exact unfit parts
  · intro holds
    refine ⟨fun env s cell s' run => ?_, fun long env fuel s => ?_⟩
    · rcases row.encode_cases key with ⟨parts, encoded, encodes, len⟩ | ⟨-, len, fails⟩
      · have short := holds.resolve_right (not_not_intro parts)
        simp only [u32Max] at short
        have field := buildRowCell_ok encodes run
        rw [tryFromOr_of_lt (by omega)] at field
        exact ⟨encoded, encodes, field⟩
      · rw [buildRowCell, fails] at run
        cases run
    · have unfit := holds.resolve_left (Nat.not_le.mpr long)
      exact ⟨Refused.insert unfit fuel, Refused.update unfit fuel⟩

theorem blobs_clamped {bytes : Bytes} (len : bytes.length = 2147483648) (key : I64) :
    ∃ encoded, Row.encode ⟨[.blob bytes, .blob bytes]⟩ key = .ok encoded ∧ encoded.length = 4294967310 ∧
      ∃ env s cell s', buildRowCell env key ⟨[.blob bytes, .blob bytes]⟩ s = .ok cell s' ∧
        readU32 cell 8 = .ok 4294967295 := by
  have fits : (Value.blob bytes).Fits := show bytes.length < 2 ^ 32 by omega
  have parts : (⟨[.blob bytes, .blob bytes]⟩ : Row).PartsFit := ⟨by simp, by simp [fits]⟩
  rcases Row.encode_cases ⟨[.blob bytes, .blob bytes]⟩ key with ⟨-, encoded, encodes, total⟩ | ⟨unfit, -⟩
  · have long : encoded.length = 4294967310 := by
      rw [total]
      simp only [Row.encodedLen, List.flatMap_cons, List.flatMap_nil, valueBytes, List.length_append,
        BigEndian.length_toBe, List.length_nil, len]
    obtain ⟨env, s, cell, s', run⟩ := buildRowCell_works encodes
    have field := buildRowCell_ok encodes run
    rw [long] at field
    exact ⟨encoded, encodes, long, env, s, cell, s', run, field⟩
  · exact absurd parts unfit

/-- Two blobs of 2 GiB each: the cell says that the row has 2^32 - 1 bytes, and it has 15 more. -/
theorem long_row_clamped : ∃ bytes : Bytes, bytes = List.replicate 2147483648 0 ∧
    ∀ key, ∃ encoded, Row.encode ⟨[.blob bytes, .blob bytes]⟩ key = .ok encoded ∧
      encoded.length = 4294967310 ∧
      ∃ env s cell s', buildRowCell env key ⟨[.blob bytes, .blob bytes]⟩ s = .ok cell s' ∧
        readU32 cell 8 = .ok 4294967295 := by
  obtain ⟨bytes, same⟩ : ∃ bytes : Bytes, bytes = List.replicate 2147483648 0 := ⟨_, rfl⟩
  exact ⟨bytes, same, blobs_clamped (same ▸ List.length_replicate)⟩

end Pinax
