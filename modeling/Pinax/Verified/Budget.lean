import Pinax.Verified.Chain

/-! # How many page ids a call takes

`Takes ps c x` bounds the page ids that `x` hands out on pages of the size `ps` by `c`: where so
many are left, `x` does not exhaust them.
-/

namespace Pinax

open Hoare (Ends final)
open BufferPool (allocatePageId putNew)

/-- `x` hands out at most `c` page ids on pages of the size `ps`. -/
def Takes {α : Type} (ps : PageSize) (c : Nat) (x : PoolM α) : Prop :=
  ∀ s, s.pager.pageSize = ps → s.nextPageId + c ≤ u32Max → ¬ Exhausted s →
    Ends (fun _ s' => s'.pager.pageSize = ps ∧ s'.nextPageId ≤ s.nextPageId + c ∧ ¬ Exhausted s')
      (fun _ s' => ¬ Exhausted s') (x s)

/-- The run handed out at most `c` page ids, and exhausted none. -/
def Spends {α : Type} (c : Nat) (s : BufferPool) (run : EStateM.Result Stop BufferPool α) : Prop :=
  Ends (fun _ s' => s'.nextPageId ≤ s.nextPageId + c ∧ ¬ Exhausted s') (fun _ s' => ¬ Exhausted s') run

theorem Spends.within {α : Type} {c : Nat} {s : BufferPool} {run : EStateM.Result Stop BufferPool α}
    (spends : Spends c s run) :
    ¬ Exhausted (final run) := by
  cases run with
  | ok a s' => exact spends.2
  | error e s' => exact spends

theorem Spends.weaken {α : Type} {c c' : Nat} {s : BufferPool}
    {run : EStateM.Result Stop BufferPool α} (spends : Spends c s run) (le : c ≤ c') :
    Spends c' s run := by
  cases run with
  | ok a s' => exact ⟨Nat.le_trans spends.1 (Nat.add_le_add_left le _), spends.2⟩
  | error e s' => exact spends

theorem SameIds.exhausted {s s' : BufferPool} (same : SameIds s s') : Exhausted s' ↔ Exhausted s := by
  obtain ⟨-, -, ext, trace, none⟩ := same
  rw [Exhausted, Exhausted, trace, allocated_append, none, List.append_nil]

/-- Below the last id, handing one out exhausts none. -/
theorem handedOut_fresh {s : BufferPool} (fits : s.nextPageId < u32Max) (fresh : ¬ Exhausted s) :
    ¬ Exhausted s.handedOut := by
  rintro ⟨id, member, large⟩
  have trace : s.handedOut.disk.trace = s.disk.trace ++ [.alloc s.nextPageId] := rfl
  rw [trace, allocated_append] at member
  rcases List.mem_append.mp member with old | new
  · exact fresh ⟨id, old, large⟩
  · obtain rfl := List.mem_singleton.mp new
    omega

namespace Takes

variable {α β : Type} {env : Env} {ps : PageSize} {c c' : Nat}

theorem spends {x : PoolM α} {s : BufferPool} (h : Takes ps c x) (size : s.pager.pageSize = ps)
    (room : s.nextPageId + c ≤ u32Max) (fresh : ¬ Exhausted s) : Spends c s (x s) :=
  (h s size room fresh).imp (fun _ _ => And.right) fun _ _ => id

theorem mono {x : PoolM α} (h : Takes ps c x) (le : c ≤ c') : Takes ps c' x := fun s size room fresh =>
  (h s size (by omega) fresh).imp (fun _ _ ⟨same, next, still⟩ => ⟨same, by omega, still⟩)
    fun _ _ still => still

theorem quiet (x : PoolM α) [quiet : Quiet x] : Takes ps c x := by
  intro s size _ fresh
  have same := quiet.moves s
  cases run : x s with
  | ok a s' =>
    rw [run] at same
    exact ⟨same.2.1.trans size, by have := same.1; simp only [Hoare.final_ok] at this; omega,
      same.exhausted.not.mpr fresh⟩
  | error e s' =>
    rw [run] at same
    exact same.exhausted.not.mpr fresh

theorem bind {x : PoolM α} {f : α → PoolM β} (first : Takes ps c x) (rest : ∀ a, Takes ps c' (f a)) :
    Takes ps (c + c') (x >>= f) := by
  intro s size room fresh
  have one := first s size (by omega) fresh
  cases run : x s with
  | error e s₁ =>
    rw [run] at one
    rw [Hoare.bind_error run]
    exact one
  | ok a s₁ =>
    rw [run] at one
    rw [Hoare.bind_ok run]
    obtain ⟨size', next, still⟩ := one
    exact (rest a s₁ size' (by omega) still).imp
      (fun _ _ ⟨same, next', still'⟩ => ⟨same, by omega, still'⟩) fun _ _ still' => still'

/-- Reading the page size. -/
theorem size {f : PageSize → PoolM β} (rest : Takes ps c (f ps)) :
    Takes ps c (BufferPool.pageSize >>= f) := by
  intro s same room fresh
  have read : BufferPool.pageSize s = .ok ps s := by
    rw [← same]
    rfl
  rw [Hoare.bind_ok read]
  exact rest s same room fresh

theorem pure {a : α} : Takes ps c (pure a : PoolM α) := quiet _

theorem throw {e : Stop} : Takes ps c (throw e : PoolM α) := quiet _

/-- A step that hands out nothing. -/
theorem skip {x : PoolM α} {f : α → PoolM β} [Quiet x] (rest : ∀ a, Takes ps c (f a)) :
    Takes ps c (x >>= f) := by
  have whole := bind (quiet (c := 0) x) rest
  rwa [Nat.zero_add] at whole

theorem last {x : PoolM α} {f : α → PoolM β} [rest : ∀ a, Quiet (f a)] (first : Takes ps c x) :
    Takes ps c (x >>= f) :=
  bind first fun a => quiet (c := 0) (f a)

/-- A pure step, with what it returns. -/
theorem ok {r : Res α} {f : α → PoolM β} (rest : ∀ a, r = .ok a → Takes ps c (f a)) :
    Takes ps c (liftM r >>= f) := by
  cases r with
  | ok a => exact rest a rfl
  | error e => exact fun s _ _ fresh => fresh

theorem alloc {f : Nat → PoolM β} (rest : ∀ id, Takes ps c (f id)) :
    Takes ps (c + 1) (allocatePageId env >>= f) := by
  have one : Takes ps 1 (allocatePageId env) := by
    intro s size room fresh
    rcases allocatePageId_apply env s with ⟨fits, run⟩ | ⟨full, -⟩
    · rw [run]
      exact ⟨size, Nat.le_refl _, handedOut_fresh (Nat.lt_of_succ_le room) fresh⟩
    · simp only [u32Max] at room
      omega
  rw [Nat.add_comm]
  exact one.bind rest

/-- Putting a page under a new id. -/
theorem put {buf : Bytes} {f : Nat → PoolM β} (rest : ∀ id, Takes ps c (f id)) :
    Takes ps (c + 1) (allocatePageId env >>= fun id => putNew env id buf >>= fun _ => f id) :=
  alloc fun id => skip fun _ => rest id

theorem ite {p : Prop} [Decidable p] {x y : PoolM α} (left : Takes ps c x) (right : Takes ps c y) :
    Takes ps c (if p then x else y) := by
  split
  · exact left
  · exact right

end Takes

variable {env : Env} {ps : PageSize} {c : Nat}

theorem writeChunks_takes (chunks : List Bytes) (nextId : Nat) :
    Takes ps chunks.length (writeChunks env chunks nextId) := by
  induction chunks generalizing nextId with
  | nil => exact .pure
  | cons chunk chunks ih =>
    rw [writeChunks]
    refine .skip fun _ => .ok fun _ _ => .ok fun _ _ => .ok fun _ _ => .put fun id => ih id

/-- A payload takes its overflow pages. -/
theorem spillIfNeeded_takes (encoded : Bytes) :
    Takes ps (overflowChunks ps encoded).length (spillIfNeeded env encoded) := by
  rw [spillIfNeeded]
  refine .size (.ite (Takes.quiet _) (Takes.last ?_))
  rw [writeOverflowChain]
  refine .ite (Takes.quiet _) (.size ?_)
  have chain : Takes ps _ (writeChunks env (overflowChunks ps encoded).reverse 0) := writeChunks_takes _ _
  rw [List.length_reverse] at chain
  exact chain

theorem buildRowCell_takes {key : I64} {row : Row}
    (small : ∀ encoded, row.encode key = .ok encoded → (overflowChunks ps encoded).length ≤ c) :
    Takes ps c (buildRowCell env key row) := by
  rw [buildRowCell]
  exact .ok fun encoded encodes => Takes.last ((spillIfNeeded_takes encoded).mono (small encoded encodes))

theorem leafInsertOrSplit_takes (leafBuf : Bytes) (index : Nat) (cell : Bytes) :
    Takes ps 2 (Btree.leafInsertOrSplit env leafBuf index cell) := by
  rw [Btree.leafInsertOrSplit]
  refine .ok fun free _ => .ite ?_ ?_
  · exact .ok fun buf _ => (Takes.put fun id => Takes.quiet (c := 0) _).mono (Nat.le_succ 1)
  · rw [Btree.leafSplitWithNewCell]
    refine .skip fun _ => .ok fun n _ => .ok fun oldCells _ => .ok fun left _ => .ok fun right _ =>
      .ok fun separator _ => ?_
    exact .put fun leftId => .put fun rightId => Takes.quiet (c := 0) _

theorem applyResultToInterior_takes (ancestorId oldChildId : Nat) (result : NodeResult) :
    Takes ps 2 (applyResultToInterior env ancestorId oldChildId result) := by
  rw [applyResultToInterior]
  refine .skip fun _ => ?_
  cases result with
  | replaced id =>
    exact .skip fun buf => .ok fun slot _ => .ok fun buf _ =>
      (Takes.put fun id => Takes.quiet (c := 0) _).mono (Nat.le_succ 1)
  | split left right separator =>
    refine .skip fun buf => .ok fun entries _ => .ite ?_ ?_
    · exact .ok fun buf _ => (Takes.put fun id => Takes.quiet (c := 0) _).mono (Nat.le_succ 1)
    · rw [splitInteriorEntries]
      refine .ok fun promoted _ => .ok fun left _ => .ok fun right _ => ?_
      exact .put fun leftId => .put fun rightId => Takes.quiet (c := 0) _

theorem propagate_takes (ancestors : List Nat) (oldChildId : Nat) (result : NodeResult) :
    Takes ps (2 * ancestors.length) (propagate env ancestors oldChildId result) := by
  induction ancestors generalizing oldChildId result with
  | nil => exact .pure
  | cons ancestorId ancestors ih =>
    rw [propagate, List.length_cons, Nat.mul_succ, Nat.add_comm]
    exact (applyResultToInterior_takes _ _ _).bind fun result => ih ancestorId result

theorem finalizeRoot_takes (result : NodeResult) : Takes ps 1 (finalizeRoot env result) := by
  cases result with
  | replaced id => exact .pure
  | split left right separator =>
    exact .skip fun _ => .ok fun _ _ => .ok fun _ _ => .put fun id => Takes.quiet (c := 0) _

/-- What follows the new leaf. -/
theorem commitNew_takes {α : Type} (ancestors : List Nat) (leafId : Nat) (result : NodeResult)
    {f : Nat → PoolM α} [∀ root, Quiet (f root)] :
    Takes ps (2 * ancestors.length + 1)
      (propagate env ancestors leafId result >>= fun result => finalizeRoot env result >>= f) :=
  (propagate_takes ancestors leafId result).bind fun result => (finalizeRoot_takes result).last

theorem insertFirst_takes {key : I64} {row : Row}
    (small : ∀ encoded, row.encode key = .ok encoded → (overflowChunks ps encoded).length ≤ c) :
    Takes ps (c + 1) (Btree.insertFirst env key row) := by
  rw [Btree.insertFirst]
  refine (buildRowCell_takes small).bind fun cell => .skip fun _ => .ok fun _ _ => .ok fun _ _ => ?_
  exact .put fun id => Takes.quiet (c := 0) _

theorem insertFound_takes {key : I64} {row : Row}
    (small : ∀ encoded, row.encode key = .ok encoded → (overflowChunks ps encoded).length ≤ c)
    (path : List Nat) (leafId : Nat) (leafBuf : Bytes) (found : SearchResult) :
    Takes ps (c + (2 + (2 * path.dropLast.length + 1)))
      (Btree.insertFound env key row path leafId leafBuf found) := by
  cases found with
  | found index => exact .throw
  | insertAt index =>
    rw [Btree.insertFound, ← List.length_reverse]
    exact (buildRowCell_takes small).bind fun cell => (leafInsertOrSplit_takes _ _ _).bind
      fun result => commitNew_takes _ _ _

theorem updateFound_takes {key : I64} {row : Row}
    (small : ∀ encoded, row.encode key = .ok encoded → (overflowChunks ps encoded).length ≤ c)
    (path : List Nat) (leafId : Nat) (leafBuf : Bytes) (found : SearchResult) :
    Takes ps (c + (2 + (2 * path.dropLast.length + 1)))
      (Btree.updateFound env key row path leafId leafBuf found) := by
  cases found with
  | insertAt index => exact .throw
  | found index =>
    rw [Btree.updateFound, ← List.length_reverse]
    exact (buildRowCell_takes small).bind fun cell => .ok fun removed _ =>
      (leafInsertOrSplit_takes _ _ _).bind fun result => commitNew_takes _ _ _

theorem deleteFound_takes {key : I64} (maxLocal : Nat) (path : List Nat) (leafId : Nat)
    (leafBuf : Bytes) (found : SearchResult) :
    Takes ps (2 * path.dropLast.length + 2)
      (Btree.deleteFound env key maxLocal path leafId leafBuf found) := by
  cases found with
  | insertAt index => exact .throw
  | found index =>
    rw [Btree.deleteFound, ← List.length_reverse]
    refine .ok fun cell _ => .skip fun full => .ok fun row _ => .ok fun removed _ => ?_
    exact .put fun id => commitNew_takes _ _ _

end Pinax
