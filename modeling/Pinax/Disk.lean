import Pinax.Page

/-! # The database file and its I/O calls

`File` is a byte store that reads as zero beyond its length.  `Disk` is the file at the database's
path together with the number of I/O calls made so far, which is how `Env.fault` picks the calls
that fail, and a trace of what was done.  No function of the program reads the trace.
-/

namespace Pinax

structure File where
  len : Nat
  byte : Nat → UInt8
  zero : ∀ i, len ≤ i → byte i = 0

namespace File

def empty : File := ⟨0, fun _ => 0, fun _ _ => rfl⟩

def read (f : File) (off n : Nat) : Bytes := (List.range n).map (fun i => f.byte (off + i))

/-- Store those bytes of `data` that `torn` lets through, at `off`. -/
def store (f : File) (off : Nat) (data : Bytes) (torn : Torn) : File where
  len := if min torn.upto data.length = 0 then f.len else max f.len (off + min torn.upto data.length)
  byte i :=
    if off ≤ i ∧ i < off + min torn.upto data.length ∧ torn.stored (i - off) = true then
      data.getD (i - off) 0
    else f.byte i
  zero := by
    intro i hi
    split at hi
    · rw [if_neg (by omega)]
      exact f.zero i hi
    · rw [if_neg (by omega)]
      exact f.zero i (by omega)

/-- A write that stores all of `data`. -/
def write (f : File) (off : Nat) (data : Bytes) : File := f.store off data (Torn.whole data)

def setLen (f : File) (len : Nat) : File where
  len := len
  byte i := if i < len then f.byte i else 0
  zero := fun i hi => if_neg (by omega)

@[ext] theorem ext' {f g : File} (len : f.len = g.len) (byte : ∀ i, f.byte i = g.byte i) : f = g := by
  obtain ⟨n, b, z⟩ := f
  obtain ⟨n', b', z'⟩ := g
  obtain rfl : n = n' := len
  obtain rfl : b = b' := funext byte
  rfl

@[simp] theorem length_read (f : File) (off n : Nat) : (f.read off n).length = n := by simp [read]

theorem getElem?_read (f : File) (off n i : Nat) :
    (f.read off n)[i]? = if i < n then some (f.byte (off + i)) else none := by
  simp only [read, List.getElem?_map]
  by_cases h : i < n <;> simp [h]

theorem read_congr {f g : File} {off n : Nat} (same : ∀ i, i < n → f.byte (off + i) = g.byte (off + i)) :
    f.read off n = g.read off n := by
  simp only [read]
  exact List.map_congr_left (fun i hi => same i (List.mem_range.mp hi))

theorem byte_store_outside {f : File} {off i : Nat} {data : Bytes} {torn : Torn}
    (outside : i < off ∨ off + data.length ≤ i) : (f.store off data torn).byte i = f.byte i := by
  simp only [store]
  rw [if_neg (by omega)]

theorem byte_write {f : File} {off i : Nat} {data : Bytes} :
    (f.write off data).byte i =
      if off ≤ i ∧ i < off + data.length then data.getD (i - off) 0 else f.byte i := by
  simp only [write, store, Torn.whole, Nat.min_self, and_true]

theorem read_store_disjoint {f : File} {off at' n : Nat} {data : Bytes} {torn : Torn}
    (disjoint : at' + n ≤ off ∨ off + data.length ≤ at') :
    (f.store off data torn).read at' n = f.read at' n :=
  read_congr (fun _ _ => byte_store_outside (by omega))

theorem read_write_same {f : File} {off : Nat} {data : Bytes} :
    (f.write off data).read off data.length = data := by
  apply List.ext_getElem?
  intro i
  rw [getElem?_read, byte_write]
  by_cases inside : i < data.length
  · rw [if_pos inside, if_pos ⟨by omega, by omega⟩, Nat.add_sub_cancel_left, List.getD_eq_getElem?_getD,
      List.getElem?_eq_getElem inside, Option.getD_some]
  · rw [if_neg inside, List.getElem?_eq_none (by omega)]

theorem read_write_at {f : File} {off n : Nat} {data : Bytes} (len : data.length = n) :
    (f.write off data).read off n = data := by
  rw [← len]; exact read_write_same

theorem len_le_store (f : File) (off : Nat) (data : Bytes) (torn : Torn) :
    f.len ≤ (f.store off data torn).len := by
  simp only [store]
  split <;> omega

theorem len_write {f : File} {off : Nat} {data : Bytes} (some : 0 < data.length) :
    (f.write off data).len = max f.len (off + data.length) := by
  simp only [write, store, Torn.whole, Nat.min_self]
  rw [if_neg (by omega)]

end File

/-- What the trace records. -/
inductive Event
  /-- `allocate_page_id` was called to hand out `id` -/
  | alloc (id : Nat)
  /-- `write_data_page` was called for `id` while `pageCount` was the committed page count -/
  | pageWrite (id pageCount : Nat)
  /-- a write call reached the file -/
  | write (off : Nat) (data : Bytes)
  /-- a sync completed, with the file as it then was -/
  | sync (file : File)

structure Disk where
  /-- Whether there is a file at the path. -/
  present : Bool
  file : File
  clock : Nat
  trace : List Event

/-- Programs that only do I/O. -/
abbrev IoM := EStateM Stop Disk

variable (env : Env)

/-- Every I/O call takes one tick and learns whether it fails. -/
def ioCall : IoM (Option Torn) := fun d => .ok (env.fault d.clock) { d with clock := d.clock + 1 }

def record (event : Event) : IoM Unit := modify fun d => { d with trace := d.trace ++ [event] }

/-- `File::read_exact_at`, into a buffer of `n` bytes -/
def readExactAt (off n : Nat) : IoM Bytes := do
  let fault ← ioCall env
  let d ← get
  if fault.isSome ∨ d.file.len < off + n then throw Stop.io
  else return d.file.read off n

/-- `File::write_all_at` -/
def writeAllAt (off : Nat) (data : Bytes) : IoM Unit := do
  match ← ioCall env with
  | none =>
    modify fun d => { d with file := d.file.write off data }
    record (.write off data)
  | some torn =>
    modify fun d => { d with file := d.file.store off data torn }
    record (.write off data)
    throw Stop.io

/-- `File::sync_data`, `File::sync_all` -/
def sync : IoM Unit := do
  match ← ioCall env with
  | none =>
    let d ← get
    record (.sync d.file)
  | some _ => throw Stop.io

/-- `File::set_len`; a failing call leaves the length as it was. -/
def setLen (len : Nat) : IoM Unit := do
  match ← ioCall env with
  | none => modify fun d => { d with file := d.file.setLen len }
  | some _ => throw Stop.io

end Pinax
