import Mathlib.Data.Finset.Card
import Mathlib.Data.List.Infix
import Mathlib.Data.List.Nodup

/-! # Write-back caches in the order of last use

An `Lru` keeps the values that were used last, and counts what it moves from and to the store behind
it.  The larger of two caches holds all that the smaller one holds, and never moves more.
-/

/-- A cache, its oldest value first. -/
structure Lru (α : Type) where
  capacity : Nat
  queue : List α
  dirty : Finset α
  moved : Nat

namespace Lru

inductive Op (α : Type)
  | read (a : α)
  | write (a : α)
  | flush (more : Nat)

variable {α : Type} {c c' : Lru α} {a : α}

/-- The values are distinct and within the capacity. -/
structure Sane (c : Lru α) : Prop where
  positive : 1 ≤ c.capacity
  distinct : c.queue.Nodup
  size : c.queue.length ≤ c.capacity
  dirty : ∀ a ∈ c.dirty, a ∈ c.queue

/-- A full cache has an oldest value. -/
theorem Sane.cases (sane : c.Sane) :
    c.queue.length < c.capacity ∨ c.capacity ≤ c.queue.length ∧ ∃ a rest, c.queue = a :: rest := by
  cases queue : c.queue with
  | nil => exact Or.inl sane.positive
  | cons a rest =>
    cases Nat.lt_or_ge (a :: rest).length c.capacity with
    | inl space => exact Or.inl space
    | inr full => exact Or.inr ⟨full, a, rest, rfl⟩

/-- After the same operations, `c'` is larger: it holds at least what `c` holds, and what it moved
and has yet to move is at most what `c` has. -/
structure Below (c c' : Lru α) : Prop where
  sane : c.Sane
  sane' : c'.Sane
  capacity : c.capacity ≤ c'.capacity
  queue : c.queue <:+ c'.queue
  dirty : c.dirty ⊆ c'.dirty
  moved : c'.moved + c'.dirty.card ≤ c.moved + c.dirty.card

/-- The smaller cache moves at least as much. -/
theorem Below.moved_le (below : Below c c') : c'.moved ≤ c.moved := by
  have := Finset.card_le_card below.dirty
  have := below.moved
  omega

/-- Two new caches. -/
theorem Below.empty {capacity capacity' moved : Nat} (positive : 1 ≤ capacity)
    (larger : capacity ≤ capacity') :
    Below (⟨capacity, [], ∅, moved⟩ : Lru α) ⟨capacity', [], ∅, moved⟩ where
  sane := ⟨positive, List.nodup_nil, Nat.zero_le _, fun a none => absurd none (Finset.notMem_empty a)⟩
  sane' := ⟨Nat.le_trans positive larger, List.nodup_nil, Nat.zero_le _,
    fun a none => absurd none (Finset.notMem_empty a)⟩
  capacity := larger
  queue := List.suffix_refl _
  dirty := Finset.Subset.refl _
  moved := Nat.le_refl _

variable [DecidableEq α]

/-! ## The operations -/

/-- Room for one more value: the oldest one leaves a full cache, and is moved to the store if it is
dirty. -/
def room (c : Lru α) : Lru α :=
  if c.queue.length < c.capacity then c
  else match c.queue with
    | [] => c
    | a :: rest =>
      { c with
        queue := rest, dirty := c.dirty.erase a,
        moved := if a ∈ c.dirty then c.moved + 1 else c.moved }

def use (c : Lru α) (a : α) : Lru α :=
  if a ∈ c.queue then { c with queue := c.queue.filter (· ≠ a) ++ [a] }
  else { c.room with queue := c.room.queue ++ [a] }

def read (c : Lru α) (a : α) : Lru α :=
  { c with moved := if a ∈ c.queue then c.moved else c.moved + 1 }.use a

def write (c : Lru α) (a : α) : Lru α := { c.use a with dirty := insert a (c.use a).dirty }

/-- All dirty values are moved to the store, and `more` besides. -/
def flush (c : Lru α) (more : Nat) : Lru α :=
  { c with dirty := ∅, moved := c.moved + c.dirty.card + more }

def step (c : Lru α) : Op α → Lru α
  | .read a => c.read a
  | .write a => c.write a
  | .flush more => c.flush more

def run (c : Lru α) (ops : List (Op α)) : Lru α := ops.foldl step c

/-! ## Room -/

theorem room_of_lt (space : c.queue.length < c.capacity) : c.room = c := if_pos space

theorem room_of_full {rest : List α} (full : c.capacity ≤ c.queue.length) (oldest : c.queue = a :: rest) :
    c.room = { c with
      queue := rest, dirty := c.dirty.erase a,
      moved := if a ∈ c.dirty then c.moved + 1 else c.moved } := by
  rw [room, if_neg (Nat.not_lt.mpr full), oldest]

@[simp] theorem capacity_room (c : Lru α) : c.room.capacity = c.capacity := by
  rw [room]
  split
  · rfl
  · split <;> rfl

theorem Sane.room (sane : c.Sane) : c.room.Sane ∧ c.room.queue.length < c.capacity := by
  cases sane.cases with
  | inl space =>
    rw [room_of_lt space]
    exact ⟨sane, space⟩
  | inr full =>
    obtain ⟨full, a, rest, oldest⟩ := full
    have distinct := sane.distinct
    have size := sane.size
    rw [oldest, List.nodup_cons] at distinct
    rw [oldest, List.length_cons] at size
    rw [room_of_full full oldest]
    refine ⟨⟨sane.positive, distinct.2, Nat.le_of_lt size, fun b dirty => ?_⟩, size⟩
    have member := sane.dirty b (Finset.mem_of_mem_erase dirty)
    rw [oldest] at member
    exact (List.mem_cons.mp member).resolve_left (Finset.ne_of_mem_erase dirty)

theorem Sane.room_suffix (sane : c.Sane) : c.room.queue <:+ c.queue := by
  cases sane.cases with
  | inl space =>
    rw [room_of_lt space]
  | inr full =>
    obtain ⟨full, a, rest, oldest⟩ := full
    rw [room_of_full full oldest, oldest]
    exact List.suffix_cons a rest

theorem Sane.room_dirty (sane : c.Sane) : c.room.dirty ⊆ c.dirty := by
  cases sane.cases with
  | inl space =>
    rw [room_of_lt space]
  | inr full =>
    obtain ⟨full, a, rest, oldest⟩ := full
    rw [room_of_full full oldest]
    exact Finset.erase_subset _ _

/-- Every dirty value is moved once, now or later. -/
theorem Sane.room_moved (sane : c.Sane) : c.room.moved + c.room.dirty.card = c.moved + c.dirty.card := by
  cases sane.cases with
  | inl space => rw [room_of_lt space]
  | inr full =>
    obtain ⟨full, a, rest, oldest⟩ := full
    rw [room_of_full full oldest]
    by_cases dirty : a ∈ c.dirty
    · have some := Finset.card_pos.mpr ⟨a, dirty⟩
      simp only [if_pos dirty, Finset.card_erase_of_mem dirty]
      omega
    · simp only [if_neg dirty, Finset.erase_eq_of_notMem dirty]

/-! ## The values used stay in order -/

theorem Sane.use (sane : c.Sane) (a : α) : (c.use a).Sane := by
  rw [Lru.use]
  by_cases member : a ∈ c.queue
  · rw [if_pos member]
    have moves : (c.queue.filter (· ≠ a) ++ [a]).Perm c.queue := by
      have kept : c.queue.filter (· ≠ a) = c.queue.erase a := by
        rw [sane.distinct.erase_eq_filter]
        exact List.filter_congr fun b _ => by rw [Bool.eq_iff_iff]; simp
      rw [kept]
      exact (List.perm_append_singleton _ _).trans (List.perm_cons_erase member).symm
    exact ⟨sane.positive, moves.nodup_iff.mpr sane.distinct, by rw [moves.length_eq]; exact sane.size,
      fun b dirty => moves.mem_iff.mpr (sane.dirty b dirty)⟩
  · rw [if_neg member]
    obtain ⟨roomy, space⟩ := sane.room
    have absent : a ∉ c.room.queue := fun inside => member (sane.room_suffix.subset inside)
    have distinct := roomy.distinct.concat absent
    rw [List.concat_eq_append] at distinct
    refine ⟨roomy.positive, distinct, ?_, fun b dirty => List.mem_append_left _ (roomy.dirty b dirty)⟩
    simpa using Nat.succ_le_of_lt space

theorem mem_use (c : Lru α) (a : α) : a ∈ (c.use a).queue := by
  rw [use]
  split <;> simp

theorem Sane.step (sane : c.Sane) (op : Op α) : (c.step op).Sane := by
  cases op with
  | read a =>
    have counted : Sane { c with moved := if a ∈ c.queue then c.moved else c.moved + 1 } :=
      ⟨sane.positive, sane.distinct, sane.size, sane.dirty⟩
    exact counted.use a
  | write a =>
    have used := sane.use a
    refine ⟨used.positive, used.distinct, used.size, fun b dirty => ?_⟩
    cases Finset.mem_insert.mp dirty with
    | inl same =>
      subst same
      exact mem_use c b
    | inr old => exact used.dirty b old
  | flush more =>
    exact ⟨sane.positive, sane.distinct, sane.size, fun a none => absurd none (Finset.notMem_empty a)⟩

/-! ## A smaller and a larger cache -/

namespace Below

theorem room_left (below : Below c c') : Below c.room c' where
  sane := below.sane.room.1
  sane' := below.sane'
  capacity := by rw [capacity_room]; exact below.capacity
  queue := below.sane.room_suffix.trans below.queue
  dirty := below.sane.room_dirty.trans below.dirty
  moved := by rw [below.sane.room_moved]; exact below.moved

/-- What the larger cache evicts is not in the smaller one any more. -/
theorem room (below : Below c c') : Below c.room c'.room := by
  have left := below.room_left
  cases below.sane'.cases with
  | inl space =>
    rw [room_of_lt space]
    exact left
  | inr full =>
    obtain ⟨full, b, rest, oldest⟩ := full
    have moved := below.sane'.room_moved
    refine ⟨left.sane, below.sane'.room.1,
      by rw [capacity_room, capacity_room]; exact below.capacity, ?_, ?_,
      by rw [moved]; exact left.moved⟩
    all_goals
      have suffix := below.queue
      rw [oldest, List.suffix_cons_iff] at suffix
      rw [room_of_full full oldest]
    · cases suffix with
      | inl same =>
        -- both are full, of the same values
        have fullToo : c.capacity ≤ c.queue.length := by
          have := below.capacity
          rw [oldest] at full
          rw [same]
          omega
        rw [room_of_full fullToo same]
      | inr inside => exact below.sane.room_suffix.trans inside
    · refine fun a dirty => Finset.mem_erase.mpr ⟨?_, left.dirty dirty⟩
      rintro rfl
      have queued := left.sane.dirty a dirty
      have distinct := below.sane'.distinct
      rw [oldest, List.nodup_cons] at distinct
      cases suffix with
      | inl same =>
        have fullToo : c.capacity ≤ c.queue.length := by
          have := below.capacity
          rw [oldest] at full
          rw [same]
          omega
        rw [room_of_full fullToo same] at queued
        exact distinct.1 queued
      | inr inside => exact distinct.1 (inside.subset (below.sane.room_suffix.subset queued))

theorem use (below : Below c c') (a : α) : Below (c.use a) (c'.use a) := by
  have sane := below.sane.use a
  have sane' := below.sane'.use a
  rw [Lru.use, Lru.use] at *
  by_cases member : a ∈ c.queue
  · have member' := below.queue.subset member
    rw [if_pos member, if_pos member'] at *
    obtain ⟨older, same⟩ := below.queue
    refine ⟨sane, sane', below.capacity, ⟨older.filter (· ≠ a), ?_⟩, below.dirty, below.moved⟩
    rw [← same, List.filter_append, List.append_assoc]
  · rw [if_neg member] at *
    have absent : a ∉ c.room.queue := fun inside => member (below.sane.room_suffix.subset inside)
    by_cases member' : a ∈ c'.queue
    · -- the smaller cache lost the value
      rw [if_pos member'] at *
      have left := below.room_left
      obtain ⟨older, same⟩ := left.queue
      refine ⟨sane, sane', left.capacity, ⟨older.filter (· ≠ a), ?_⟩, left.dirty, left.moved⟩
      have kept : c.room.queue.filter (· ≠ a) = c.room.queue := by
        refine List.filter_eq_self.mpr fun b inside => ?_
        have : b ≠ a := fun same => absent (same ▸ inside)
        simpa using this
      rw [← same, List.filter_append, kept, List.append_assoc]
    · rw [if_neg member'] at *
      have both := below.room
      obtain ⟨older, same⟩ := both.queue
      exact ⟨sane, sane', both.capacity, ⟨older, by rw [← same, List.append_assoc]⟩,
        both.dirty, both.moved⟩

theorem read (below : Below c c') (a : α) : Below (c.read a) (c'.read a) := by
  have counted : Below { c with moved := if a ∈ c.queue then c.moved else c.moved + 1 }
      { c' with moved := if a ∈ c'.queue then c'.moved else c'.moved + 1 } := by
    obtain ⟨sane, sane', capacity, queue, dirty, moved⟩ := below
    refine ⟨⟨sane.positive, sane.distinct, sane.size, sane.dirty⟩,
      ⟨sane'.positive, sane'.distinct, sane'.size, sane'.dirty⟩, capacity, queue, dirty, ?_⟩
    by_cases member : a ∈ c.queue
    · simp only [if_pos member, if_pos (queue.subset member)]
      exact moved
    · simp only [if_neg member]
      split <;> omega
  exact counted.use a

theorem write (below : Below c c') (a : α) : Below (c.write a) (c'.write a) := by
  have used := below.use a
  refine ⟨below.sane.step (.write a), below.sane'.step (.write a), used.capacity, used.queue,
    Finset.insert_subset_insert a used.dirty, ?_⟩
  have moved := used.moved
  show (c'.use a).moved + (insert a (c'.use a).dirty).card ≤
    (c.use a).moved + (insert a (c.use a).dirty).card
  by_cases dirty : a ∈ (c.use a).dirty
  · rw [Finset.insert_eq_of_mem dirty, Finset.insert_eq_of_mem (used.dirty dirty)]
    exact moved
  · rw [Finset.card_insert_of_notMem dirty]
    have := Finset.card_insert_le a (c'.use a).dirty
    omega

theorem step (below : Below c c') (op : Op α) : Below (c.step op) (c'.step op) := by
  cases op with
  | read a => exact below.read a
  | write a => exact below.write a
  | flush more =>
    refine ⟨below.sane.step (.flush more), below.sane'.step (.flush more), below.capacity,
      below.queue, Finset.Subset.refl _, ?_⟩
    have moved := below.moved
    show c'.moved + c'.dirty.card + more + 0 ≤ c.moved + c.dirty.card + more + 0
    omega

theorem run (below : Below c c') (ops : List (Op α)) : Below (c.run ops) (c'.run ops) := by
  induction ops generalizing c c' with
  | nil => exact below
  | cons op ops ih => exact ih (below.step op)

end Below

/-! ## Reading lists of values over and over -/

def reads (c : Lru α) (l : List α) : Lru α := c.run (l.map .read)

@[simp] theorem reads_nil (c : Lru α) : c.reads [] = c := rfl
@[simp] theorem reads_cons (c : Lru α) (a : α) (l : List α) : c.reads (a :: l) = (c.read a).reads l := rfl

theorem reads_append (c : Lru α) (l l' : List α) : c.reads (l ++ l') = (c.reads l).reads l' := by
  rw [reads, List.map_append, run, List.foldl_append]
  rfl

/-- Reading a cached value. -/
theorem read_hit (member : a ∈ c.queue) :
    c.read a = { c with queue := c.queue.filter (· ≠ a) ++ [a] } := by
  simp only [read, use, if_pos member]

/-- Reading a value that is not cached. -/
theorem Sane.read_miss (sane : c.Sane) (clean : c.dirty = ∅) (absent : a ∉ c.queue) :
    c.read a = { c with queue := c.room.queue ++ [a], moved := c.moved + 1 } := by
  have counted : c.read a = { { c with moved := c.moved + 1 }.room with
      queue := { c with moved := c.moved + 1 }.room.queue ++ [a] } := by
    rw [read, if_neg absent]
    exact if_neg absent
  rw [counted]
  cases sane.cases with
  | inl space => rw [room_of_lt space, room_of_lt (c := { c with moved := c.moved + 1 }) space]
  | inr full =>
    obtain ⟨full, b, rest, oldest⟩ := full
    rw [room_of_full full oldest, room_of_full (c := { c with moved := c.moved + 1 }) full oldest]
    simp [clean]

theorem Sane.read (sane : c.Sane) (a : α) : (c.read a).Sane := sane.step (.read a)

theorem Sane.reads (sane : c.Sane) (l : List α) : (c.reads l).Sane := by
  induction l generalizing c with
  | nil => exact sane
  | cons a l ih => exact ih (sane.read a)

theorem mem_read {b : α} (sane : c.Sane) (clean : c.dirty = ∅) (member : b ∈ (c.read a).queue) :
    b = a ∨ b ∈ c.queue := by
  by_cases cached : a ∈ c.queue
  · rw [read_hit cached] at member
    simp at member
    tauto
  · rw [sane.read_miss clean cached] at member
    cases List.mem_append.mp member with
    | inl old => exact Or.inr (sane.room_suffix.subset old)
    | inr new => exact Or.inl (List.mem_singleton.mp new)

theorem Sane.dirty_read (sane : c.Sane) (clean : c.dirty = ∅) : (c.read a).dirty = ∅ := by
  by_cases cached : a ∈ c.queue
  · rw [read_hit cached]
    exact clean
  · rw [sane.read_miss clean cached]
    exact clean

/-- Distinct values that are not cached are moved in one by one. -/
theorem Sane.reads_fresh (sane : c.Sane) (clean : c.dirty = ∅) {l : List α} (distinct : l.Nodup)
    (absent : ∀ a ∈ l, a ∉ c.queue) :
    (c.reads l).moved = c.moved + l.length := by
  induction l generalizing c with
  | nil => rfl
  | cons a l ih =>
    rw [List.nodup_cons] at distinct
    have miss := sane.read_miss clean (absent a List.mem_cons_self)
    have later : ∀ b ∈ l, b ∉ (c.read a).queue := by
      intro b member inside
      cases mem_read sane clean inside with
      | inl same => exact distinct.1 (same ▸ member)
      | inr cached => exact absent b (List.mem_cons_of_mem a member) cached
    rw [reads_cons, ih (sane.read a) (sane.dirty_read clean) distinct.2 later, miss, List.length_cons]
    simp only
    omega

/-- Where there is room for all, they stay. -/
theorem Sane.reads_fit (sane : c.Sane) (clean : c.dirty = ∅) {l : List α}
    (distinct : (c.queue ++ l).Nodup) (fit : (c.queue ++ l).length ≤ c.capacity) :
    (c.reads l).queue = c.queue ++ l := by
  induction l generalizing c with
  | nil => exact (List.append_nil _).symm
  | cons a l ih =>
    have absent : a ∉ c.queue := by
      intro member
      exact (List.nodup_append.mp distinct).2.2 a member a List.mem_cons_self rfl
    have space : c.queue.length < c.capacity := by
      rw [List.length_append, List.length_cons] at fit
      omega
    have miss := sane.read_miss clean absent
    rw [room_of_lt space] at miss
    have split : (c.read a).queue ++ l = c.queue ++ a :: l := by simp [miss]
    rw [reads_cons, ih (sane.read a) (sane.dirty_read clean) (by rw [split]; exact distinct)
      (by rw [split, miss]; exact fit), split]

/-- Cached values are not moved. -/
theorem reads_hits {l : List α} (cached : ∀ a ∈ l, a ∈ c.queue) :
    (c.reads l).moved = c.moved ∧ ∀ b, b ∈ (c.reads l).queue ↔ b ∈ c.queue := by
  induction l generalizing c with
  | nil => exact ⟨rfl, fun b => Iff.rfl⟩
  | cons a l ih =>
    have hit := read_hit (cached a List.mem_cons_self)
    have same : ∀ b, b ∈ (c.read a).queue ↔ b ∈ c.queue := by
      intro b
      have member := cached a List.mem_cons_self
      rw [hit]
      by_cases equal : b = a
      · simp [equal, member]
      · simp [equal]
    obtain ⟨moved, kept⟩ :=
      ih (c := c.read a) fun b member => (same b).mpr (cached b (List.mem_cons_of_mem a member))
    rw [reads_cons, moved, hit]
    exact ⟨rfl, fun b => ((hit ▸ kept) b).trans ((hit ▸ same) b)⟩

/-- A cache that is too small for a list holds the end of what was read of it, and misses each next
value. -/
theorem Sane.reads_thrash (sane : c.Sane) (clean : c.dirty = ∅) {next past : List α}
    (distinct : (next ++ past).Nodup) (small : c.capacity < (next ++ past).length)
    (recent : c.queue <:+ next ++ past) :
    (c.reads next).queue <:+ past ++ next ∧ (c.reads next).dirty = ∅ ∧
      (c.reads next).capacity = c.capacity ∧
      (c.reads next).moved = c.moved + next.length := by
  induction next generalizing c past with
  | nil => exact ⟨by simpa using recent, clean, rfl, rfl⟩
  | cons a next ih =>
    have inside : c.queue <:+ next ++ past := by
      cases List.suffix_cons_iff.mp recent with
      | inl whole =>
        have size := sane.size
        rw [whole] at size
        exact absurd small (Nat.not_lt.mpr size)
      | inr inside => exact inside
    have absent : a ∉ c.queue := fun member => (List.nodup_cons.mp distinct).1 (inside.subset member)
    have miss := sane.read_miss clean absent
    have turned : (next ++ (past ++ [a])).Perm (a :: next ++ past) := by
      rw [← List.append_assoc]
      exact List.perm_append_singleton a (next ++ past)
    have recent' : (c.read a).queue <:+ next ++ (past ++ [a]) := by
      obtain ⟨older, same⟩ := sane.room_suffix.trans inside
      rw [miss]
      exact ⟨older, by rw [← List.append_assoc, same, List.append_assoc]⟩
    obtain ⟨queue, dirty, capacity, moved⟩ :=
      ih (sane.read a) (sane.dirty_read clean) (turned.nodup_iff.mpr distinct)
      (by rw [turned.length_eq, miss]; exact small) recent'
    rw [reads_cons]
    refine ⟨by simpa using queue, dirty, by rw [capacity, miss], ?_⟩
    rw [moved, miss, List.length_cons]
    simp only
    omega

/-- Reading distinct values over and over.  A cache that has room for all of them moves each once,
and one that has not moves each in every pass. -/
theorem Sane.reads_passes (sane : c.Sane) (clean : c.dirty = ∅) (empty : c.queue = []) {l : List α}
    (distinct : l.Nodup) (n : Nat) :
    (c.reads (List.replicate (n + 1) l).flatten).moved = c.moved + if l.length ≤
      c.capacity then l.length else (n + 1) * l.length := by
  by_cases fit : l.length ≤ c.capacity
  · rw [if_pos fit, List.replicate_succ, List.flatten_cons, reads_append]
    -- the first pass reads all, and leaves all in the cache
    have first : (c.reads l).queue = l := by
      have filled :=
        sane.reads_fit clean (l := l) (by rw [empty]; exact distinct) (by rw [empty]; exact fit)
      rwa [empty, List.nil_append] at filled
    have again : ∀ a ∈ (List.replicate n l).flatten, a ∈ (c.reads l).queue := by
      intro a member
      obtain ⟨l', copies, inside⟩ := List.mem_flatten.mp member
      rw [List.eq_of_mem_replicate copies] at inside
      rwa [first]
    rw [(reads_hits again).1, sane.reads_fresh clean distinct fun a _ =>
      by rw [empty]; exact List.not_mem_nil]
  · rw [if_neg fit]
    -- each pass moves out what the next one reads first, so every read moves a page
    have passes : ∀ n, (c.reads (List.replicate n l).flatten).queue <:+ l ∧
      (c.reads (List.replicate n l).flatten).dirty = ∅ ∧
        (c.reads (List.replicate n l).flatten).capacity = c.capacity ∧
        (c.reads (List.replicate n l).flatten).moved = c.moved + n * l.length := by
      intro n
      induction n with
      | zero =>
        refine ⟨?_, clean, rfl, by simp⟩
        simp [empty]
      | succ n ih =>
        obtain ⟨queue, dirty, capacity, moved⟩ := ih
        have distinct' : (l ++ []).Nodup := by rwa [List.append_nil]
        have recent : (c.reads (List.replicate n l).flatten).queue <:+ l ++ [] := by rwa [List.append_nil]
        have small : (c.reads (List.replicate n l).flatten).capacity < (l ++ []).length := by
          rw [capacity, List.append_nil]
          omega
        have pass := (sane.reads _).reads_thrash dirty distinct' small recent
        rw [List.replicate_succ', List.flatten_append, List.flatten_singleton, reads_append, Nat.succ_mul]
        obtain ⟨queue', dirty', capacity', moved'⟩ := pass
        exact ⟨by simpa using queue', dirty', capacity'.trans capacity, by omega⟩
    exact (passes (n + 1)).2.2.2

end Lru
