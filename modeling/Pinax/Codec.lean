import Pinax.Error
import Pinax.Library.Slice

/-! # Bounds-checked big-endian byte access (`codec.rs`) -/

namespace Pinax

export Slice (slice overwrite)

def bufferBounds (at' len bufLen : Nat) : Stop := .fatal (.bufferBounds at' len bufLen)

/-- `read_bytes::<n>` -/
def readBytes (buf : Bytes) (at' n : Nat) : Res Bytes :=
  if at' + n ≤ buf.length then .ok (slice buf at' n) else .error (bufferBounds at' n buf.length)

def writeBytes (buf : Bytes) (at' : Nat) (bytes : Bytes) : Res Bytes :=
  if at' + bytes.length ≤ buf.length then .ok (overwrite buf at' bytes)
  else .error (bufferBounds at' bytes.length buf.length)

def readU8 (buf : Bytes) (at' : Nat) : Res Nat := ofBe <$> readBytes buf at' 1
def writeU8 (buf : Bytes) (at' value : Nat) : Res Bytes := writeBytes buf at' (toBe 1 value)
def readU16 (buf : Bytes) (at' : Nat) : Res Nat := ofBe <$> readBytes buf at' 2
def writeU16 (buf : Bytes) (at' value : Nat) : Res Bytes := writeBytes buf at' (toBe 2 value)
def readU32 (buf : Bytes) (at' : Nat) : Res Nat := ofBe <$> readBytes buf at' 4
def writeU32 (buf : Bytes) (at' value : Nat) : Res Bytes := writeBytes buf at' (toBe 4 value)
def readU64 (buf : Bytes) (at' : Nat) : Res Nat := ofBe <$> readBytes buf at' 8
def writeU64 (buf : Bytes) (at' value : Nat) : Res Bytes := writeBytes buf at' (toBe 8 value)

/-- The two's complement reading of a 64-bit pattern. -/
def I64.ofBits (bits : Nat) : I64 where
  val := if bits % 18446744073709551616 < 9223372036854775808 then (bits % 18446744073709551616 : Nat)
    else (bits % 18446744073709551616 : Nat) - 18446744073709551616
  lower := by split <;> omega
  upper := by split <;> omega

def I64.toBits (v : I64) : Nat := (v.val % 18446744073709551616).toNat

def readI64 (buf : Bytes) (at' : Nat) : Res I64 := (fun b => I64.ofBits (ofBe b)) <$> readBytes buf at' 8

/-- `v.to_be_bytes()` of an `i64`. -/
def I64.toBeBytes (v : I64) : Bytes := toBe 8 v.toBits

/-- The runtime-length counterpart of `readBytes`. -/
def readVec (buf : Bytes) (at' len : Nat) : Res Bytes := readBytes buf at' len

/-! ## What the accessors compute -/

theorem readBytes_of_le {buf : Bytes} {at' n : Nat} (h : at' + n ≤ buf.length) :
    readBytes buf at' n = .ok (slice buf at' n) := if_pos h

theorem writeBytes_of_le {buf bytes : Bytes} {at' : Nat} (h : at' + bytes.length ≤ buf.length) :
    writeBytes buf at' bytes = .ok (overwrite buf at' bytes) := if_pos h

theorem I64.toBits_lt (v : I64) : v.toBits < 256 ^ 8 := by
  have := v.lower
  have := v.upper
  simp only [I64.toBits]
  omega

@[simp] theorem I64.ofBits_toBits (v : I64) : I64.ofBits v.toBits = v := by
  have := v.lower
  have := v.upper
  have bits : (v.toBits : Int) = v.val % 18446744073709551616 := by
    simp only [I64.toBits]
    omega
  ext
  simp only [I64.ofBits]
  generalize v.toBits = bits at *
  split <;> omega

@[simp] theorem I64.length_toBeBytes (v : I64) : v.toBeBytes.length = 8 := BigEndian.length_toBe 8 _

@[simp] theorem I64.ofBe_toBeBytes (v : I64) : I64.ofBits (ofBe v.toBeBytes) = v := by
  rw [I64.toBeBytes, BigEndian.ofBe_toBe_of_lt v.toBits_lt, I64.ofBits_toBits]

theorem readU8_of_slice {buf : Bytes} {at' v : Nat} (bound : at' + 1 ≤ buf.length)
    (bytes : slice buf at' 1 = toBe 1 v) (range : v < 256) : readU8 buf at' = .ok v := by
  rw [readU8, readBytes_of_le bound, bytes]
  exact congrArg Except.ok (BigEndian.ofBe_toBe_of_lt (by omega))

theorem readU16_of_slice {buf : Bytes} {at' v : Nat} (bound : at' + 2 ≤ buf.length)
    (bytes : slice buf at' 2 = toBe 2 v) (range : v < 65536) : readU16 buf at' = .ok v := by
  rw [readU16, readBytes_of_le bound, bytes]
  exact congrArg Except.ok (BigEndian.ofBe_toBe_of_lt (by omega))

theorem readU32_of_slice {buf : Bytes} {at' v : Nat} (bound : at' + 4 ≤ buf.length)
    (bytes : slice buf at' 4 = toBe 4 v) (range : v < 4294967296) : readU32 buf at' = .ok v := by
  rw [readU32, readBytes_of_le bound, bytes]
  exact congrArg Except.ok (BigEndian.ofBe_toBe_of_lt (by omega))

theorem readU64_of_slice {buf : Bytes} {at' v : Nat} (bound : at' + 8 ≤ buf.length)
    (bytes : slice buf at' 8 = toBe 8 v) (range : v < 18446744073709551616) :
    readU64 buf at' = .ok v := by
  rw [readU64, readBytes_of_le bound, bytes]
  exact congrArg Except.ok (BigEndian.ofBe_toBe_of_lt (by omega))

theorem readI64_of_slice {buf : Bytes} {at' : Nat} {v : I64} (bound : at' + 8 ≤ buf.length)
    (bytes : slice buf at' 8 = v.toBeBytes) : readI64 buf at' = .ok v := by
  rw [readI64, readBytes_of_le bound, bytes]
  exact congrArg Except.ok v.ofBe_toBeBytes

theorem writeBytes_ok (buf : Bytes) (at' : Nat) (bytes : Bytes)
    (bound : at' + bytes.length ≤ buf.length) :
    ∃ buf', writeBytes buf at' bytes = .ok buf' ∧ buf'.length = buf.length ∧
      (∀ off n, at' ≤ off → off + n ≤ at' + bytes.length →
        slice buf' off n = slice bytes (off - at') n) ∧
      (∀ off n, off + n ≤ at' ∨ at' + bytes.length ≤ off → slice buf' off n = slice buf off n) :=
  ⟨_, writeBytes_of_le bound, Slice.length_overwrite bound,
    fun _ _ low high => Slice.slice_overwrite_inside bound low high,
    fun _ _ apart => Slice.slice_overwrite_disjoint bound apart⟩

/-- Writing an integer field of `n` bytes. -/
theorem writeBe_ok (buf : Bytes) (at' n v : Nat) (bound : at' + n ≤ buf.length) :
    ∃ buf', writeBytes buf at' (toBe n v) = .ok buf' ∧ buf'.length = buf.length ∧
      slice buf' at' n = toBe n v ∧
      (∀ off m, off + m ≤ at' ∨ at' + n ≤ off → slice buf' off m = slice buf off m) := by
  have len := BigEndian.length_toBe n v
  obtain ⟨buf', written, sameLen, inside, outside⟩ :=
    writeBytes_ok buf at' (toBe n v) (by omega)
  refine ⟨buf', written, sameLen, ?_, fun off m apart => outside off m (by omega)⟩
  rw [inside at' n (Nat.le_refl _) (by omega), Nat.sub_self]
  simp only [Slice.slice_eq_take]
  exact List.take_of_length_le (by omega)

end Pinax
