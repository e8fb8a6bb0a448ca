import Pinax.Verified.Pages

/-! # Meta slots

A slot that `encode_meta_slot` made verifies and decodes to what it was made from, and `commit` writes
one such slot, the inactive one, between two syncs.
-/

namespace Pinax

variable {env : Env}

theorem metaFields_ok (content : MetaContent) :
    ∃ buf, metaFields content = .ok buf ∧ buf.length = metaSlotLen ∧
      slice buf offsetMagic 4 = metaMagic ∧ slice buf offsetPageSize 4 = toBe 4 content.pageSize.bytes ∧
      slice buf offsetTxnId 8 = toBe 8 content.txnId ∧
        slice buf offsetRoot 4 = toBe 4 content.rootPageId ∧
      slice buf offsetPageCount 4 = toBe 4 content.pageCount := by
  have len₀ : (List.replicate metaSlotLen (0 : UInt8)).length = metaSlotLen := List.length_replicate
  simp only [offsetMagic, offsetPageSize, offsetTxnId, offsetRoot, offsetPageCount, metaSlotLen] at *
  obtain ⟨buf₁, write₁, len₁, at₁, apart₁⟩ :=
    writeBytes_ok (List.replicate 4096 (0 : UInt8)) 0 metaMagic
      (by rw [len₀]; show 4 ≤ 4096; omega)
  obtain ⟨buf₂, write₂, len₂, at₂, apart₂⟩ := writeBe_ok buf₁ 4 2 metaFormatVersion (by omega)
  obtain ⟨buf₃, write₃, len₃, at₃, apart₃⟩ := writeBe_ok buf₂ 6 4 content.pageSize.bytes (by omega)
  obtain ⟨buf₄, write₄, len₄, at₄, apart₄⟩ := writeBe_ok buf₃ 10 8 content.txnId (by omega)
  obtain ⟨buf₅, write₅, len₅, at₅, apart₅⟩ := writeBe_ok buf₄ 18 4 content.rootPageId (by omega)
  obtain ⟨buf₆, write₆, len₆, at₆, apart₆⟩ := writeBe_ok buf₅ 22 4 content.pageCount (by omega)
  obtain ⟨buf₇, write₇, len₇, at₇, apart₇⟩ := writeBe_ok buf₆ 26 4 0 (by omega)
  refine ⟨buf₇, ?_, by omega, ?_, ?_, ?_, ?_, ?_⟩
  · rw [← write₇]
    simp only [metaFields, metaSlotLen, offsetMagic, offsetVersion, offsetPageSize,
      offsetTxnId, offsetRoot,
      offsetPageCount, offsetFreelistHead, writeU16, writeU32, writeU64, write₁, write₂, write₃, write₄,
      write₅, write₆, ok_bind]
  · rw [apart₇ 0 4 (by omega), apart₆ 0 4 (by omega), apart₅ 0 4 (by omega), apart₄ 0 4 (by omega),
      apart₃ 0 4 (by omega), apart₂ 0 4 (by omega), at₁ 0 4 (by omega) (by decide)]
    decide
  · rw [apart₇ 6 4 (by omega), apart₆ 6 4 (by omega), apart₅ 6 4 (by omega), apart₄ 6 4 (by omega), at₃]
  · rw [apart₇ 10 8 (by omega), apart₆ 10 8 (by omega), apart₅ 10 8 (by omega), at₄]
  · rw [apart₇ 18 4 (by omega), apart₆ 18 4 (by omega), at₅]
  · rw [apart₇ 22 4 (by omega), at₆]

/-- The slot `encode_meta_slot` makes. -/
def metaSlot (env : Env) (content : MetaContent) : Bytes :=
  match metaFields content with
  | .ok buf => stamped env buf
  | .error _ => []

theorem metaSlot_of_fields {content : MetaContent} {buf : Bytes} (fields : metaFields content = .ok buf) :
    metaSlot env content = stamped env buf := by
  unfold metaSlot
  rw [fields]

theorem encodeMetaSlot_eq (content : MetaContent) :
    encodeMetaSlot env content = .ok (metaSlot env content) := by
  obtain ⟨buf, fields, len, -⟩ := metaFields_ok content
  rw [encodeMetaSlot, metaSlot_of_fields fields, fields, ok_bind]
  exact stampChecksum_of_le (by simp only [len, metaSlotLen]; omega)

theorem length_metaSlot (content : MetaContent) : (metaSlot env content).length = metaSlotLen := by
  obtain ⟨buf, fields, len, -⟩ := metaFields_ok content
  rw [metaSlot_of_fields fields, length_stamped (by simp only [len, metaSlotLen]; omega), len]

/-- The fields fit the widths they are stored in. -/
structure MetaContent.Fits (content : MetaContent) : Prop where
  txnId : content.txnId < 18446744073709551616
  rootPageId : content.rootPageId < 4294967296
  pageCount : content.pageCount < 4294967296

theorem validSlot_metaSlot {content : MetaContent} (fits : content.Fits) :
    Pager.validSlot env (metaSlot env content) = some content := by
  obtain ⟨buf, fields, len, magic, pageSize, txnId, root, count⟩ := metaFields_ok content
  have long : 8 ≤ buf.length := by simp only [len, metaSlotLen]; omega
  have slotLen : (stamped env buf).length = 4096 := by rw [length_stamped long, len]; rfl
  have keep : ∀ {off n}, off + n + 8 ≤ 4096 → slice (stamped env buf) off n = slice buf off n := by
    intro off n bound
    rw [← Slice.slice_take (stamped env buf) (k := (stamped env buf).length - checksumLen)
      (by rw [slotLen]; simp only [checksumLen]; omega)]
    rw [show (stamped env buf).take ((stamped env buf).length - checksumLen) = body
      (stamped env buf) from rfl, body_stamped long, body, Slice.slice_take]
    rw [len]
    simp only [checksumLen, metaSlotLen]
    omega
  simp only [offsetMagic, offsetPageSize, offsetTxnId, offsetRoot, offsetPageCount]
    at magic pageSize txnId root count
  have sizes := content.pageSize.bounds
  rw [metaSlot_of_fields fields, Pager.validSlot, if_pos (verifies_stamped long), decodeMetaSlot]
  simp only [offsetMagic, offsetPageSize, offsetTxnId, offsetRoot, offsetPageCount]
  rw [readBytes_of_le (by omega), keep (by omega), magic]
  simp only [ne_eq, not_true_eq_false, if_false]
  rw [readU32_of_slice (by omega) (by rw [keep (by omega)]; exact pageSize) (by omega),
    readU64_of_slice (by omega) (by rw [keep (by omega)]; exact txnId) fits.txnId,
    readU32_of_slice (by omega) (by rw [keep (by omega)]; exact root) fits.rootPageId,
    readU32_of_slice (by omega) (by rw [keep (by omega)]; exact count) fits.pageCount]
  simp only [ok_bind, PageSize.tryFrom_bytes]
  rfl

-- what a slot is made of is not looked at again
attribute [irreducible] metaSlot

/-! ## `Pager::commit` -/

def Pager.slotOffset (slot : Fin 2) : Nat := slot.val * metaSlotLen

/-- The bytes of a meta slot. -/
def File.slot (file : File) (slot : Fin 2) : Bytes := file.read (Pager.slotOffset slot) metaSlotLen

theorem File.slot_zero (file : File) : file.slot 0 = file.read 0 metaSlotLen := by
  rw [File.slot, Pager.slotOffset]
  simp

theorem File.slot_one (file : File) : file.slot 1 = file.read metaSlotLen metaSlotLen := by
  rw [File.slot, Pager.slotOffset]
  simp

-- a slot's bytes are never computed
attribute [irreducible] File.slot

/-- The slot the next commit writes. -/
def Pager.spare (pager : Pager) : Fin 2 := 1 - pager.activeSlot

/-- The content of the active slot. -/
def Pager.content (pager : Pager) : MetaContent where
  pageSize := pager.pageSize
  txnId := pager.txnId
  rootPageId := pager.rootPageId
  pageCount := pager.pageCount

/-- The pager after a commit of `root` and `count`; the transaction id wraps in `release`. -/
def Pager.committed (pager : Pager) (root count : Nat) : Pager where
  pageSize := pager.pageSize
  activeSlot := pager.spare
  txnId := (pager.txnId + 1) % 2 ^ 64
  rootPageId := root
  pageCount := count

def Disk.synced (d : Disk) : Disk := { d.tick with trace := d.trace ++ [.sync d.file] }

/-- The disk after a write call that stored what `torn` lets through. -/
def Disk.written (d : Disk) (off : Nat) (data : Bytes) (torn : Torn) : Disk where
  present := d.present
  file := d.file.store off data torn
  clock := d.clock + 1
  trace := d.trace ++ [.write off data]

theorem sync_apply (env : Env) (d : Disk) :
    (env.fault d.clock = none ∧ sync env d = .ok ⟨⟩ d.synced) ∨
    ((env.fault d.clock).isSome = true ∧ sync env d = .error Stop.io d.tick) := by
  rw [sync, ioCall_bind]
  cases failed : env.fault d.clock with
  | none => exact Or.inl ⟨rfl, rfl⟩
  | some torn => exact Or.inr ⟨rfl, rfl⟩

theorem writeAllAt_apply (env : Env) (off : Nat) (data : Bytes) (d : Disk) :
    (env.fault d.clock = none ∧ writeAllAt env off data d = .ok ⟨⟩
      (d.written off data (Torn.whole data))) ∨
    (∃ torn, env.fault d.clock = some torn ∧
      writeAllAt env off data d = .error Stop.io (d.written off data torn)) := by
  rw [writeAllAt, ioCall_bind]
  cases failed : env.fault d.clock with
  | none => exact Or.inl ⟨rfl, rfl⟩
  | some torn => exact Or.inr ⟨torn, rfl, rfl⟩

/-- The transaction id has no successor and the build checks overflow. -/
def Pager.TxnOverflow (env : Env) (pager : Pager) : Prop := env.profile = .dev ∧ 2 ^ 64 ≤ pager.txnId + 1

theorem nextTxnId (env : Env) (pager : Pager) :
    addW env.profile 64 pager.txnId 1 = .ok ((pager.txnId + 1) % 2 ^ 64) ∧ ¬ pager.TxnOverflow env ∨
    addW env.profile 64 pager.txnId 1 = .error .panic ∧ pager.TxnOverflow env := by
  by_cases fits : pager.txnId + 1 < 2 ^ 64
  · exact Or.inl ⟨by rw [addW_of_lt fits, Nat.mod_eq_of_lt fits],
      fun overflow => by have := overflow.2; omega⟩
  · rw [addW, if_neg fits]
    cases profile : env.profile with
    | dev => exact Or.inr ⟨rfl, profile, by omega⟩
    | release => exact Or.inl ⟨rfl, fun overflow => by cases profile.symm.trans overflow.1⟩

/-- The ways in which `commit` ends. -/
theorem Pager.commit_cases (env : Env) (pager : Pager) (root count : Nat) (d : Disk) :
    let off := Pager.slotOffset pager.spare
    let slot := metaSlot env (pager.committed root count).content
    ((¬ pager.TxnOverflow env ∧ env.fault d.clock = none ∧ env.fault (d.clock + 1) = none ∧
      env.fault (d.clock + 2) = none) ∧ pager.commit env root count d
        = .ok (pager.committed root count) ((d.synced.written off slot (Torn.whole slot)).synced)) ∨
    ((env.fault d.clock).isSome = true ∧ pager.commit env root count d = .error Stop.io d.tick) ∨
    (pager.TxnOverflow env ∧ pager.commit env root count d = .error .panic d.synced) ∨
    (∃ torn, (env.fault d.clock = none ∧ env.fault (d.clock + 1) = some torn) ∧
      pager.commit env root count d = .error Stop.io (d.synced.written off slot torn)) ∨
    ((env.fault d.clock = none ∧ env.fault (d.clock + 1) = none ∧
      (env.fault (d.clock + 2)).isSome = true) ∧
      pager.commit env root count d =
        .error Stop.io (d.synced.written off slot (Torn.whole slot)).tick) := by
  intro off slot
  -- one case for each of the three calls, and one for the transaction id, in their order
  rcases sync_apply env d with ⟨works₁, run₁⟩ | ⟨fails, run⟩
  · rcases nextTxnId env pager with ⟨txn, fits⟩ | ⟨txn, overflow⟩
    · have encoded : encodeMetaSlot env ⟨pager.pageSize, (pager.txnId + 1) % 2 ^ 64, root,
        count⟩ = .ok slot :=
        encodeMetaSlot_eq _
      have start : pager.commit env root count d = (do
          writeAllAt env off slot
          sync env
          return pager.committed root count : IoM Pager) d.synced := by
        rw [Pager.commit, Hoare.bind_ok run₁]
        simp only [txn, liftM_ok]
        rw [Hoare.bind_ok (Hoare.pure_apply _ _)]
        simp only [encoded, liftM_ok]
        rw [Hoare.bind_ok (Hoare.pure_apply _ _)]
        rfl
      rcases writeAllAt_apply env off slot d.synced with ⟨works₂, run₂⟩ | ⟨torn, fails, run⟩
      · rcases sync_apply env (d.synced.written off slot (Torn.whole slot)) with ⟨works₃,
          run₃⟩ | ⟨fails, run⟩
        · refine Or.inl ⟨⟨fits, works₁, works₂, works₃⟩, ?_⟩
          rw [start, Hoare.bind_ok run₂, Hoare.bind_ok run₃]
          rfl
        · refine Or.inr (Or.inr (Or.inr (Or.inr ⟨⟨works₁, works₂, fails⟩, ?_⟩)))
          rw [start, Hoare.bind_ok run₂, Hoare.bind_error run]
      · refine Or.inr (Or.inr (Or.inr (Or.inl ⟨torn, ⟨works₁, fails⟩, ?_⟩)))
        rw [start, Hoare.bind_error run]
    · refine Or.inr (Or.inr (Or.inl ⟨overflow, ?_⟩))
      rw [Pager.commit, Hoare.bind_ok run₁]
      simp only [txn, liftM_error]
      rfl
  · refine Or.inr (Or.inl ⟨fails, ?_⟩)
    rw [Pager.commit, Hoare.bind_error run]

end Pinax
