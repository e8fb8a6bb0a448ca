import Pinax.Codec
import Mathlib.Data.Finset.Sort

/-! # Page format: sizes, layout constants and the checksum (`page.rs`)

`Env` gathers what the program takes from outside its own source: the build profile, the XxHash3
function, which I/O calls fail (and how much of a failing write still reaches the file), and the
order in which a hash set is iterated.
-/

namespace Pinax

/-- How much of a failing write is stored: byte `i` is, exactly when `i < upto` and `stored i`. -/
structure Torn where
  upto : Nat
  stored : Nat → Bool

def Torn.whole (data : Bytes) : Torn := ⟨data.length, fun _ => true⟩

structure Env where
  profile : Profile
  /-- `xxhash_rust::xxh3::xxh3_64` -/
  xxh3 : Bytes → UInt64
  /-- The failure of the `n`-th I/O call, if it fails. -/
  fault : Nat → Option Torn
  /-- The order in which a `HashSet<u32>` is iterated when `n` I/O calls have been made. -/
  order : Nat → Finset Nat → List Nat
  order_nodup : ∀ n ids, (order n ids).Nodup
  mem_order : ∀ n ids id, id ∈ order n ids ↔ id ∈ ids

/-- An environment in which no I/O call fails. -/
def Env.faultless (profile : Profile) (xxh3 : Bytes → UInt64) : Env where
  profile
  xxh3
  fault := fun _ => none
  order := fun _ ids => ids.sort (· ≤ ·)
  order_nodup := fun _ ids => ids.sort_nodup _
  mem_order := fun _ _ _ => Finset.mem_sort _

def checksumLen : Nat := 8
def minPageSize : Nat := 4096
def maxPageSize : Nat := 65536
def metaSlotLen : Nat := 4096
def metaRegionLen : Nat := metaSlotLen * 2
def firstDataPageId : Nat := 2
def emptyTreeRoot : Nat := 0
def pageTypeLeaf : Nat := 1
def pageTypeInterior : Nat := 2
def pageTypeOverflow : Nat := 3

/-- `u32::is_power_of_two` -/
def isPowerOfTwo (v : Nat) : Bool := v != 0 && v &&& (v - 1) == 0

/-- A validated page size. -/
structure PageSize where
  bytes : Nat
  powerOfTwo : isPowerOfTwo bytes = true
  atLeast : minPageSize ≤ bytes
  atMost : bytes ≤ maxPageSize
  deriving DecidableEq

def PageSize.tryFrom (value : Nat) : Res PageSize :=
  if h : isPowerOfTwo value = true ∧ minPageSize ≤ value ∧ value ≤ maxPageSize then
    .ok ⟨value, h.1, h.2.1, h.2.2⟩
  else .error (.permanent (.invalidPageSize value))

def PageSize.default : PageSize := ⟨4096, by decide, by decide, by decide⟩

/-- The subtraction cannot underflow: a page has at least `minPageSize` bytes. -/
def PageSize.usableSpace (ps : PageSize) : Nat := ps.bytes - checksumLen

def PageSize.maxLocal (ps : PageSize) : Nat := ps.usableSpace - 35

theorem PageSize.tryFrom_bytes (ps : PageSize) : PageSize.tryFrom ps.bytes = .ok ps := by
  rw [PageSize.tryFrom, dif_pos ⟨ps.powerOfTwo, ps.atLeast, ps.atMost⟩]

theorem PageSize.bounds (ps : PageSize) : 4096 ≤ ps.bytes ∧ ps.bytes ≤ 65536 := ⟨ps.atLeast, ps.atMost⟩

variable (env : Env)

def computeChecksum (buf : Bytes) : Nat := (env.xxh3 (buf.take (buf.length - checksumLen))).toNat

def stampChecksum (buf : Bytes) : Res Bytes :=
  writeU64 buf (buf.length - checksumLen) (computeChecksum env buf)

/-- The stored checksum, and `0` where there is no room for one. -/
def storedChecksum (buf : Bytes) : Nat :=
  match readU64 buf (buf.length - checksumLen) with
  | .ok v => v
  | .error _ => 0

/-- `verify_checksum(buf).is_ok()` -/
def verifies (buf : Bytes) : Bool := storedChecksum buf == computeChecksum env buf

/-! ## The part of a page below its checksum -/

/-- What a page holds apart from its checksum. -/
def body (buf : Bytes) : Bytes := buf.take (buf.length - checksumLen)

/-- The page as it is written: its body and the checksum of its body. -/
def stamped (buf : Bytes) : Bytes := body buf ++ toBe 8 (computeChecksum env buf)

variable {env}

theorem computeChecksum_lt (buf : Bytes) : computeChecksum env buf < 256 ^ 8 :=
  (env.xxh3 _).toNat_lt

theorem length_body (buf : Bytes) : (body buf).length = buf.length - 8 := by
  simp only [body, checksumLen, List.length_take]
  omega

theorem length_stamped {buf : Bytes} (long : 8 ≤ buf.length) : (stamped env buf).length = buf.length := by
  simp only [stamped, List.length_append, length_body, BigEndian.length_toBe]
  omega

theorem stampChecksum_of_le {buf : Bytes} (long : 8 ≤ buf.length) :
    stampChecksum env buf = .ok (stamped env buf) := by
  rw [stampChecksum, writeU64, writeBytes_of_le (by simp [checksumLen]; omega)]
  congr 1
  simp only [Slice.overwrite, stamped, body, BigEndian.length_toBe, checksumLen]
  rw [List.drop_eq_nil_of_le (by omega), List.append_nil]

@[simp] theorem body_stamped {buf : Bytes} (long : 8 ≤ buf.length) :
    body (stamped env buf) = body buf := by
  rw [body, length_stamped long, stamped, List.take_append_of_le_length]
  · exact List.take_of_length_le (by rw [length_body]; simp [checksumLen])
  · rw [length_body]; simp [checksumLen]

theorem computeChecksum_congr {a b : Bytes} (h : body a = body b) :
    computeChecksum env a = computeChecksum env b := by
  simp only [body] at h
  simp only [computeChecksum, h]

/-- A page that has just been stamped passes its check. -/
theorem verifies_stamped {buf : Bytes} (long : 8 ≤ buf.length) :
    verifies env (stamped env buf) = true := by
  have checksum : computeChecksum env (stamped env buf) = computeChecksum env buf :=
    computeChecksum_congr (body_stamped long)
  have stored : readU64 (stamped env buf) ((stamped env buf).length - checksumLen)
      = .ok (computeChecksum env buf) := by
    rw [length_stamped long]
    apply readU64_of_slice
    · rw [length_stamped long]; simp only [checksumLen]; omega
    · rw [stamped, Slice.slice_append_right (by rw [length_body]; simp [checksumLen]), length_body]
      simp [checksumLen, Slice.slice, List.take_of_length_le]
    · exact computeChecksum_lt buf
  simp only [verifies, storedChecksum, stored, checksum, beq_self_eq_true]

end Pinax
