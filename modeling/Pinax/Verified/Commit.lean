import Pinax.Verified.Flush

/-! # Committing a root

`Committed` is the state `commit` returns in: everything is flushed and the spare meta slot holds the
new root.  `HalfCommitted` is the state it leaves when the meta write or the sync after it fails: the
pager still has the old root, and the spare slot may hold anything between its old and its new content.
-/

namespace Pinax

open Hoare (Ends Triple)

variable (env : Env)

structure Committed (o : Origin) (v : Nat → Option Bytes) (n root : Nat) (s : BufferPool) : Prop where
  sound : Sound env s
  pager : s.pager = o.start.pager.committed root n
  capacity : s.capacity = o.start.capacity
  present : s.disk.present = o.start.disk.present
  next : s.nextPageId = n
  grown : o.start.nextPageId ≤ n
  dirty : s.dirty = ∅
  agree : ∀ id content, v id = some content → firstDataPageId ≤ id ∧ s.page env id = some content
  keeps : ∀ id content, o.base id = some content → v id = some content
  clock : o.start.disk.clock ≤ s.disk.clock
  file : ∃ flushed ext, Framed o.start.pager.pageSize o.writable o.start.disk.file flushed ∧
    s.disk.file = flushed.write (Pager.slotOffset o.start.pager.spare) (metaSlot env s.pager.content) ∧
    s.disk.trace = o.start.disk.trace ++ ext ++ [.sync flushed,
      .write (Pager.slotOffset o.start.pager.spare) (metaSlot env s.pager.content), .sync s.disk.file] ∧
    (∀ e ∈ ext, DataEvent o e) ∧ allocated ext = List.range' o.start.nextPageId (n - o.start.nextPageId)

structure HalfCommitted (o : Origin) (v : Nat → Option Bytes) (n root : Nat) (s : BufferPool) : Prop where
  sound : Sound env s
  pager : s.pager = o.start.pager
  capacity : s.capacity = o.start.capacity
  present : s.disk.present = o.start.disk.present
  next : s.nextPageId = n
  grown : o.start.nextPageId ≤ n
  dirty : s.dirty = ∅
  agree : ∀ id content, v id = some content → firstDataPageId ≤ id ∧ s.page env id = some content
  keeps : ∀ id content, o.base id = some content → v id = some content
  clock : o.start.disk.clock ≤ s.disk.clock
  file : ∃ flushed ext torn, Framed o.start.pager.pageSize o.writable o.start.disk.file flushed ∧
    s.disk.file = flushed.store (Pager.slotOffset o.start.pager.spare)
      (metaSlot env (o.start.pager.committed root n).content) torn ∧
    s.disk.trace = o.start.disk.trace ++ ext ++ [.sync flushed,
      .write (Pager.slotOffset o.start.pager.spare)
        (metaSlot env (o.start.pager.committed root n).content)] ∧
    (∀ e ∈ ext, DataEvent o e) ∧ allocated ext = List.range' o.start.nextPageId (n - o.start.nextPageId)

variable {env} {o : Origin} {v : Nat → Option Bytes} {n : Nat} {s : BufferPool}

theorem slotOffset_bound (slot : Fin 2) : Pager.slotOffset slot + metaSlotLen ≤ metaRegionLen := by
  have := slot.isLt
  simp only [Pager.slotOffset, metaSlotLen, metaRegionLen]
  omega

/-- Pages lie past the meta slots. -/
theorem Framed.slot {ps : PageSize} {writable : Nat → Prop} {f g : File} (framed : Framed ps writable f g)
    (slot : Fin 2) : g.slot slot = f.slot slot := by
  unfold File.slot
  refine File.read_congr fun i inside => framed.same _ fun id _ => Or.inl ?_
  have := slotOffset_bound slot
  have := metaRegionLen_le_fileOffset ps id
  omega

theorem slotOffset_apart (slot : Fin 2) :
    Pager.slotOffset slot + metaSlotLen ≤ Pager.slotOffset (1 - slot) ∨
      Pager.slotOffset (1 - slot) + metaSlotLen ≤ Pager.slotOffset slot := by
  match slot with
  | 0 => exact Or.inl (by decide)
  | 1 => exact Or.inr (by decide)

/-- A write of one slot leaves the other alone. -/
theorem slot_store_other {file : File} {slot : Fin 2} {data : Bytes} {torn : Torn}
    (len : data.length = metaSlotLen) :
    (file.store (Pager.slotOffset (1 - slot)) data torn).slot slot = file.slot slot := by
  have := slotOffset_apart slot
  unfold File.slot
  exact File.read_store_disjoint (by omega)

theorem slot_write_same {file : File} {slot : Fin 2} {data : Bytes} (len : data.length = metaSlotLen) :
    (file.write (Pager.slotOffset slot) data).slot slot = data := by
  unfold File.slot
  exact File.read_write_at len

/-- The new slot holds the committed state, the other one what it held. -/
theorem Committed.slots {root : Nat} (committed : Committed env o v n root s) :
    s.disk.file.slot s.pager.activeSlot = metaSlot env s.pager.content ∧
      s.disk.file.slot o.start.pager.activeSlot = o.start.disk.file.slot o.start.pager.activeSlot := by
  obtain ⟨flushed, ext, framed, file, -⟩ := committed.file
  have active : s.pager.activeSlot = o.start.pager.spare := congrArg Pager.activeSlot committed.pager
  rw [active, file]
  constructor
  · exact slot_write_same (length_metaSlot _)
  · rw [← framed.slot]
    exact slot_store_other (length_metaSlot _)

/-- A write in the meta region leaves the data pages alone. -/
theorem diskPage_store_meta {ps : PageSize} {file : File} {off id : Nat}
    {data content : Bytes} {torn : Torn} (inside : off + data.length ≤ metaRegionLen)
    (found : diskPage env ps file id = some content) :
    diskPage env ps (file.store off data torn) id = some content := by
  have past := metaRegionLen_le_fileOffset ps id
  exact diskPage_mono found (File.len_le_store _ _ _ _) (File.read_store_disjoint (by omega))

/-- The pool over a file whose meta region was written keeps its invariant and its pages. -/
theorem Sound.store_meta (sound : Sound env s) (s' : BufferPool) {off : Nat} {data : Bytes} (torn : Torn)
    (inside : off + data.length ≤ metaRegionLen) (file : s'.disk.file = s.disk.file.store off data torn)
    (pageSize : s'.pager.pageSize = s.pager.pageSize) (capacity : s'.capacity = s.capacity)
    (entries : s'.entries = s.entries) (recency : s'.recency = s.recency) (dirty : s'.dirty = s.dirty) :
    Sound env s' ∧ ∀ id content, s.page env id = some content → s'.page env id = some content := by
  refine ⟨⟨?_, ?_, ?_, ?_, ?_⟩, ?_⟩
  · rw [recency, entries]; exact sound.recency
  · rw [capacity]; exact sound.positive
  · rw [entries, capacity]; exact sound.size
  · rw [entries, pageSize]; exact sound.lengths
  · intro id buf low found clean
    rw [entries] at found
    rw [dirty] at clean
    rw [pageSize, file]
    exact diskPage_store_meta inside (sound.clean id buf low found clean)
  · intro id content known
    cases cached : s.entries.lookup id with
    | some buf =>
      rw [page_cached cached] at known
      rwa [page_cached (by rw [entries]; exact cached)]
    | none =>
      rw [page_uncached cached] at known
      rw [page_uncached (by rw [entries]; exact cached), pageSize, file]
      exact diskPage_store_meta inside known

theorem commit_ends (h : During env o v n s) (root : Nat) :
    Ends (fun _ s' => ¬ o.start.pager.TxnOverflow env ∧ Committed env o v n root s')
      (fun e s' => KeptIo env o v n e s' ∨
        (e = Stop.io ∧ Faulted env o s' ∧ HalfCommitted env o v n root s') ∨
        (e = .panic ∧ o.start.pager.TxnOverflow env ∧ During env o v n s' ∧ s'.dirty = ∅))
      (BufferPool.commit env root s) := by
  rw [BufferPool.commit]
  have flushed := flushAllDirty_ends h
  cases flush : BufferPool.flushAllDirty env s with
  | error e s₁ =>
    rw [flush] at flushed
    rw [Hoare.bind_error flush]
    exact Or.inl flushed
  | ok _ s₁ =>
    rw [flush] at flushed
    obtain ⟨during, clean, -⟩ := flushed
    obtain ⟨ext, split, events, ids⟩ := during.trace
    have clock := during.clock
    rw [Hoare.bind_ok flush, Hoare.get_bind]
    have cases := Pager.commit_cases env s₁.pager root s₁.nextPageId s₁.disk
    simp only [during.pager, during.next] at cases ⊢
    have inside : Pager.slotOffset o.start.pager.spare
        + (metaSlot env (o.start.pager.committed root n).content).length ≤ metaRegionLen := by
      rw [length_metaSlot]; exact slotOffset_bound _
    -- when the slot was written in part, or not synced, all but the slot is as it was
    have half : ∀ (torn : Torn) (d : Disk),
      d.file = s₁.disk.file.store (Pager.slotOffset o.start.pager.spare)
          (metaSlot env (o.start.pager.committed root n).content) torn → d.present = s₁.disk.present →
        o.start.disk.clock ≤ d.clock → d.trace = s₁.disk.trace ++ [.sync s₁.disk.file,
          .write (Pager.slotOffset o.start.pager.spare)
            (metaSlot env (o.start.pager.committed root n).content)] →
        HalfCommitted env o v n root (s₁.over d) := by
      intro torn d file present clock trace
      obtain ⟨sound, pages⟩ := during.sound.store_meta (s₁.over d) torn inside file rfl rfl rfl rfl rfl
      refine ⟨sound, during.pager, during.capacity, present.trans during.present, during.next,
        during.grown, clean, fun id content known => ⟨(during.agree id content known).1,
          pages id content (during.agree id content known).2⟩,
        during.keeps, clock, s₁.disk.file, ext, torn, during.framed, file, ?_, events, ids⟩
      show d.trace = _
      rw [trace, split]
    -- it works, the first sync fails, the transaction id overflows, the slot is torn, the last
    -- sync fails
    rcases cases with ⟨⟨fits, -⟩, run⟩ | ⟨fails, run⟩ | ⟨overflow, run⟩ | ⟨torn, ⟨-, fails⟩, run⟩ |
      ⟨⟨-, -, fails⟩, run⟩
    · rw [Hoare.bind_ok (onDisk_ok run)]
      let slot := metaSlot env (o.start.pager.committed root n).content
      let disk :=
        (s₁.disk.synced.written (Pager.slotOffset o.start.pager.spare) slot (Torn.whole slot)).synced
      obtain ⟨sound, pages⟩ := during.sound.store_meta
        { s₁ with pager := o.start.pager.committed root n, disk } (Torn.whole slot) inside rfl
        (by rw [during.pager]; rfl) rfl rfl rfl rfl
      refine ⟨fits, sound, rfl, during.capacity, during.present, during.next, during.grown, clean,
        fun id content known => ⟨(during.agree id content known).1,
          pages id content (during.agree id content known).2⟩,
        during.keeps, ?_, s₁.disk.file, ext, during.framed, rfl, ?_, events, ids⟩
      · show _ ≤ s₁.disk.clock + 1 + 1 + 1
        omega
      · show s₁.disk.trace ++ _ ++ _ ++ _ = _
        rw [split]
        simp only [List.append_assoc, List.cons_append, List.nil_append]
        rfl
    · rw [Hoare.bind_error (onDisk_error run)]
      have ticked : During env o v n (s₁.over s₁.disk.tick) :=
        during.step rfl rfl rfl { during.sound with } during.dirty during.agree during.keeps
          (Or.inr (Or.inl rfl))
      exact Or.inl ⟨rfl, ⟨s₁.disk.clock, during.clock, Nat.lt_succ_self _, fails⟩, ticked⟩
    · rw [Hoare.bind_error (onDisk_error run)]
      exact Or.inr (Or.inr ⟨rfl, overflow, during.synced, clean⟩)
    · rw [Hoare.bind_error (onDisk_error run)]
      refine Or.inr (Or.inl ⟨rfl, ⟨s₁.disk.clock + 1, by omega, Nat.lt_succ_self _, by rw [fails]; rfl⟩,
        half torn _ rfl rfl ?_ ?_⟩)
      · show _ ≤ s₁.disk.clock + 1 + 1
        omega
      · show s₁.disk.trace ++ _ ++ _ = _
        rw [List.append_assoc]
        rfl
    · rw [Hoare.bind_error (onDisk_error run)]
      have later : s₁.disk.clock + 2 < s₁.disk.clock + 1 + 1 + 1 := by omega
      refine Or.inr (Or.inl ⟨rfl, ⟨s₁.disk.clock + 2, by omega, later, fails⟩, half _ _ rfl rfl ?_ ?_⟩)
      · show _ ≤ s₁.disk.clock + 1 + 1 + 1
        omega
      · show s₁.disk.trace ++ _ ++ _ = _
        rw [List.append_assoc]
        rfl

end Pinax
