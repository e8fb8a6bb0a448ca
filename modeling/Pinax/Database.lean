import Pinax.Btree.Ops

/-! # The public facade (`database.rs`) -/

namespace Pinax

def defaultBufferPoolCapacity : Nat := 256

/-- `Database`: the pool is its only field. -/
abbrev Database := BufferPool

namespace Database

variable (env : Env)

def createWithCapacity (pageSize : PageSize) (capacity : Nat) : IoM Database := do
  let pager ← Pager.create env pageSize
  let disk ← MonadState.get
  BufferPool.new disk pager capacity

def create (pageSize : PageSize) : IoM Database :=
  createWithCapacity env pageSize defaultBufferPoolCapacity

def openWithCapacity (capacity : Nat) : IoM Database := do
  let pager ← Pager.openFile env
  let disk ← MonadState.get
  BufferPool.new disk pager capacity

def insert (fuel : Nat) (key : I64) (row : Row) : PoolM Unit := do
  let _ ← Btree.insert env fuel key row
  return ()

def get (fuel : Nat) (key : I64) : PoolM (Option Row) := Btree.get env fuel key

def update (fuel : Nat) (key : I64) (row : Row) : PoolM Unit := do
  let _ ← Btree.update env fuel key row
  return ()

def delete (fuel : Nat) (key : I64) : PoolM Row := do
  let (_, row) ← Btree.delete env fuel key
  return row

def scan (fuel : Nat) : PoolM (List (I64 × Row)) := Btree.scan env fuel

end Database

end Pinax
