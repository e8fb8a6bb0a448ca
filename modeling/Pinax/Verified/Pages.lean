import Pinax.Pager
import Pinax.Library.Hoare

/-! # Data pages in the file

`diskPage` is what `read_data_page` makes of a page: its bytes below the checksum, if the page lies
inside the file and its checksum verifies.  Distinct page ids from `firstDataPageId` on have disjoint
byte ranges past the meta region, so that a write changes one page only.
-/

namespace Pinax

open Pager (fileOffset)

theorem metaRegionLen_le_fileOffset (ps : PageSize) (id : Nat) : metaRegionLen ≤ fileOffset ps id :=
  Nat.le_add_right _ _

theorem fileOffset_mono (ps : PageSize) {id id' : Nat} (le : id ≤ id') :
    fileOffset ps id ≤ fileOffset ps id' :=
  Nat.add_le_add_left (Nat.mul_le_mul_right _ (by omega)) _

/-- A page ends where the next one starts. -/
theorem fileOffset_add_le (ps : PageSize) {id id' : Nat} (low : firstDataPageId ≤ id) (lt : id < id') :
    fileOffset ps id + ps.bytes ≤ fileOffset ps id' := by
  have step : (id - firstDataPageId + 1) * ps.bytes ≤ (id' - firstDataPageId) * ps.bytes :=
    Nat.mul_le_mul_right _ (by omega)
  simp only [fileOffset]
  rw [Nat.add_one_mul] at step
  omega

/-- Distinct data pages are disjoint. -/
theorem fileOffset_disjoint (ps : PageSize) {id id' : Nat} (low : firstDataPageId ≤ id)
    (low' : firstDataPageId ≤ id') (ne : id ≠ id') :
    fileOffset ps id + ps.bytes ≤ fileOffset ps id' ∨ fileOffset ps id' + ps.bytes ≤
      fileOffset ps id := by
  rcases Nat.lt_or_gt_of_ne ne with lt | gt
  · exact Or.inl (fileOffset_add_le ps low lt)
  · exact Or.inr (fileOffset_add_le ps low' gt)

variable (env : Env)

/-- The content of data page `id` in the file, if it can be read. -/
def diskPage (ps : PageSize) (file : File) (id : Nat) : Option Bytes :=
  if fileOffset ps id + ps.bytes ≤ file.len ∧
    verifies env (file.read (fileOffset ps id) ps.bytes) = true then
    some (body (file.read (fileOffset ps id) ps.bytes))
  else none

variable {env}

theorem diskPage_of_read {ps : PageSize} {file : File} {id : Nat}
    (inside : fileOffset ps id + ps.bytes ≤ file.len)
    (checked : verifies env (file.read (fileOffset ps id) ps.bytes) = true) :
    diskPage env ps file id = some (body (file.read (fileOffset ps id) ps.bytes)) :=
  if_pos ⟨inside, checked⟩

/-- A page that can be read can still be read when the file grew and the page's bytes are the same. -/
theorem diskPage_mono {ps : PageSize} {file file' : File} {id : Nat} {content : Bytes}
    (found : diskPage env ps file id = some content) (grown : file.len ≤ file'.len)
    (same : file'.read (fileOffset ps id) ps.bytes = file.read (fileOffset ps id) ps.bytes) :
    diskPage env ps file' id = some content := by
  simp only [diskPage] at found ⊢
  split at found
  next readable => rw [same, if_pos ⟨by omega, readable.2⟩]; exact found
  next => cases found

/-- A page that was just written reads back. -/
theorem diskPage_write_same {ps : PageSize} {file : File} {id : Nat} {buf : Bytes}
    (len : buf.length = ps.bytes) :
    diskPage env ps (file.write (fileOffset ps id) (stamped env buf)) id = some (body buf) := by
  have low := ps.bounds.1
  have stampedLen : (stamped env buf).length = ps.bytes := by rw [length_stamped (by omega), len]
  have readBack : (file.write (fileOffset ps id) (stamped env buf)).read (fileOffset ps id) ps.bytes
      = stamped env buf := File.read_write_at stampedLen
  rw [diskPage_of_read]
  · rw [readBack, body_stamped (by omega)]
  · rw [File.len_write (by omega), stampedLen]
    omega
  · rw [readBack]
    exact verifies_stamped (by omega)

/-- A write, complete or torn, leaves every other page readable as it was. -/
theorem diskPage_store_other {ps : PageSize} {file : File} {id id' : Nat} {data content : Bytes}
    {torn : Torn} (low : firstDataPageId ≤ id) (low' : firstDataPageId ≤ id') (ne : id ≠ id')
    (len : data.length = ps.bytes) (found : diskPage env ps file id' = some content) :
    diskPage env ps (file.store (fileOffset ps id) data torn) id' = some content := by
  have apart := fileOffset_disjoint ps low low' ne
  exact diskPage_mono found (File.len_le_store _ _ _ _) (File.read_store_disjoint (by omega))

/-- A page whose checksum verifies is its body, stamped. -/
theorem eq_stamped_of_verifies {buf : Bytes} (long : 8 ≤ buf.length) (checked : verifies env buf = true) :
    buf = stamped env buf := by
  have read : readU64 buf (buf.length - checksumLen) =
    .ok (ofBe (slice buf (buf.length - checksumLen) 8)) := by
    simp only [readU64, checksumLen, readBytes_of_le (show buf.length - 8 + 8 ≤ buf.length by omega)]
    rfl
  have stored : ofBe (slice buf (buf.length - checksumLen) 8) = computeChecksum env buf := by
    simpa only [verifies, storedChecksum, read, beq_iff_eq] using checked
  have trailer := BigEndian.toBe_ofBe (slice buf (buf.length - checksumLen) 8)
  rw [Slice.length_slice_of_le (by simp only [checksumLen]; omega), stored] at trailer
  rw [stamped, trailer, body, Slice.slice_to_end (by simp only [checksumLen]; omega),
    List.take_append_drop]

/-! ## The I/O calls of the pager on data pages -/

def Disk.tick (d : Disk) : Disk := { d with clock := d.clock + 1 }

@[simp] theorem Disk.tick_file (d : Disk) : d.tick.file = d.file := rfl
@[simp] theorem Disk.tick_present (d : Disk) : d.tick.present = d.present := rfl
@[simp] theorem Disk.tick_clock (d : Disk) : d.tick.clock = d.clock + 1 := rfl

theorem ioCall_bind {α : Type} (f : Option Torn → IoM α) (d : Disk) :
    (ioCall env >>= f) d = f (env.fault d.clock) d.tick := rfl

theorem readExactAt_apply (env : Env) (off n : Nat) (d : Disk) :
    readExactAt env off n d =
      if (env.fault d.clock).isSome = true ∨ d.file.len < off + n then .error Stop.io d.tick
      else .ok (d.file.read off n) d.tick := by
  rw [readExactAt, ioCall_bind, Hoare.get_bind, Disk.tick_file]
  by_cases failed : (env.fault d.clock).isSome = true ∨ d.file.len < off + n
  · rw [if_pos failed, if_pos failed]; rfl
  · rw [if_neg failed, if_neg failed]; rfl

/-- The error of a read that finds a page outside the file or with a wrong checksum. -/
def Pager.Unreadable (env : Env) (pager : Pager) (id : Nat) (file : File) (e : Stop) : Prop :=
  let page := file.read (fileOffset pager.pageSize id) pager.pageSize.bytes
  (e = Stop.io ∧ file.len < fileOffset pager.pageSize id + pager.pageSize.bytes) ∨
  (e = .fatal (.corruption id (storedChecksum page) (computeChecksum env page)) ∧
    verifies env page = false)

/-- A page read: the page's content, or an error because the call failed or the page is unreadable. -/
theorem readDataPage_cases (env : Env) (pager : Pager) (id : Nat) (d : Disk) :
    (∃ buf, pager.readDataPage env id d = .ok buf d.tick ∧ buf.length = pager.pageSize.bytes ∧
      diskPage env pager.pageSize d.file id = some (body buf)) ∨
    (∃ e, pager.readDataPage env id d = .error e d.tick ∧
      ((e = Stop.io ∧ (env.fault d.clock).isSome = true) ∨
        diskPage env pager.pageSize d.file id = none ∧ pager.Unreadable env id d.file e)) := by
  have read := readExactAt_apply env (fileOffset pager.pageSize id) pager.pageSize.bytes d
  by_cases failed : (env.fault d.clock).isSome = true
  · rw [if_pos (Or.inl failed)] at read
    exact Or.inr ⟨Stop.io, Hoare.bind_error read, Or.inl ⟨rfl, failed⟩⟩
  · by_cases inside : fileOffset pager.pageSize id + pager.pageSize.bytes ≤ d.file.len
    · rw [if_neg (not_or.mpr ⟨failed, by omega⟩)] at read
      by_cases checked : verifies env
        (d.file.read (fileOffset pager.pageSize id) pager.pageSize.bytes) = true
      · refine Or.inl ⟨_, ?_, File.length_read _ _ _, diskPage_of_read inside checked⟩
        rw [Pager.readDataPage, Hoare.bind_ok read, if_pos checked]
        rfl
      · have unreadable : diskPage env pager.pageSize d.file id = none :=
          if_neg (fun readable => checked readable.2)
        let page := d.file.read (fileOffset pager.pageSize id) pager.pageSize.bytes
        have run : pager.readDataPage env id d = .error
            (.fatal (.corruption id (storedChecksum page) (computeChecksum env page))) d.tick := by
          rw [Pager.readDataPage, Hoare.bind_ok read, if_neg checked, Hoare.throw_apply]
        exact Or.inr ⟨_, run, Or.inr ⟨unreadable, Or.inr ⟨rfl, Bool.not_eq_true _ ▸ checked⟩⟩⟩
    · rw [if_pos (Or.inr (by omega))] at read
      have unreadable : diskPage env pager.pageSize d.file id = none :=
        if_neg (fun readable => inside readable.1)
      exact Or.inr ⟨Stop.io, Hoare.bind_error read, Or.inr ⟨unreadable, Or.inl ⟨rfl, by omega⟩⟩⟩

/-- The disk after a page write that stored what `torn` lets through. -/
def Disk.pageWritten (d : Disk) (pager : Pager) (id : Nat) (data : Bytes) (torn : Torn) : Disk where
  present := d.present
  file := d.file.store (fileOffset pager.pageSize id) data torn
  clock := d.clock + 1
  trace := d.trace ++ [.pageWrite id pager.pageCount] ++ [.write (fileOffset pager.pageSize id) data]

theorem writeStamped_cases (env : Env) (pager : Pager) (id : Nat) (data : Bytes) (d : Disk) :
    (env.fault d.clock = none ∧ pager.writeStamped env id data d
      = .ok ⟨⟩ (d.pageWritten pager id data (Torn.whole data))) ∨
    (∃ torn, env.fault d.clock = some torn ∧ pager.writeStamped env id data d
      = .error Stop.io (d.pageWritten pager id data torn)) := by
  rw [Pager.writeStamped, record, Hoare.modify_bind, writeAllAt, ioCall_bind]
  cases failed : env.fault d.clock with
  | none => exact Or.inl ⟨rfl, rfl⟩
  | some torn => exact Or.inr ⟨torn, rfl, rfl⟩

end Pinax
