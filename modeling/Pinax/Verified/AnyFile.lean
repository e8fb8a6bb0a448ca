import Pinax.Library.Walk
import Pinax.Verified.Stops
import Pinax.Verified.CopyOnWrite

/-! # Calls on any file

The pages of a file may hold anything, as long as their checksums verify.  A call follows child ids
from the root, and goes on for ever exactly when they lead it back to a page it has been at.
-/

namespace Pinax

open Hoare (Fails Raises final)
open Walk (walk Deep Returns)

variable {env : Env} {ps : PageSize} {file : File} {opened : Pager} {s : BufferPool} {key : I64}

/-! ## Looking changes nothing -/

/-- A program that leaves a pool that was only read from as one. -/
class Rereads {α : Type} (env : Env) (opened : Pager) (file : File) (x : PoolM α) : Prop where
  moves : Hoare.Moves (fun s s' => Reading env opened file s → Reading env opened file s') x

namespace Rereads

variable {α β : Type}

instance pure {a : α} : Rereads env opened file (pure a : PoolM α) := ⟨fun _ reading => reading⟩
instance throw {e : Stop} : Rereads env opened file (throw e : PoolM α) := ⟨fun _ reading => reading⟩
instance res {r : Res α} : Rereads env opened file (liftM r : PoolM α) :=
  ⟨fun s reading => by cases r <;> exact reading⟩

theorem bind {x : PoolM α} {f : α → PoolM β} (first : Rereads env opened file x)
    (rest : ∀ a, Rereads env opened file (f a)) :
    Rereads env opened file (x >>= f) :=
  ⟨Hoare.Moves.bind (fun _ _ _ here there reading => there (here reading)) first.moves
    fun a => (rest a).moves⟩

instance bind_inst {x : PoolM α} {f : α → PoolM β} [first : Rereads env opened file x]
    [rest : ∀ a, Rereads env opened file (f a)] :
    Rereads env opened file (x >>= f) := bind first rest

instance ite_inst {c : Prop} [Decidable c] {x y : PoolM α} [left : Rereads env opened file x]
    [right : Rereads env opened file y] :
    Rereads env opened file (if c then x else y) := by
  split
  · exact left
  · exact right

theorem foldlM {f : β → α → PoolM β} (each : ∀ b a, Rereads env opened file (f b a))
    (l : List α) (b : β) :
    Rereads env opened file (l.foldlM f b) := by
  induction l generalizing b with
  | nil => exact pure
  | cons a l ih =>
    rw [List.foldlM_cons]
    exact bind (each b a) ih

end Rereads

section looking

variable [works : Fact (∀ k, env.fault k = none)]

instance : Rereads env opened file BufferPool.pageSize := ⟨fun _ reading => reading⟩
instance : Rereads env opened file BufferPool.rootPageId := ⟨fun _ reading => reading⟩

instance (id : Nat) : Rereads env opened file (BufferPool.get env id) := ⟨fun s reading => by
  have page := reading.get works.out id
  cases found : rawPage env s.pager.pageSize s.disk.file id with
  | some raw =>
    rw [found] at page
    obtain ⟨t, run, reading'⟩ := page
    rw [run]
    exact reading'
  | none =>
    have read := readDataPage_raw works.out s.pager id s.disk
    rw [found] at read
    obtain ⟨e, read⟩ := read
    rw [BufferPool.get, Hoare.get_bind]
    cases cached : s.entries.lookup id with
    | some raw => cases (reading.cached id raw cached).symm.trans found
    | none =>
      simp only
      rw [Hoare.bind_error (onDisk_error read)]
      exact reading.ticked⟩

instance (bound current need : Nat) (out : Bytes) :
    Rereads env opened file (readChain env bound current need out) := by
  induction bound generalizing current need out with
  | zero => exact .pure
  | succ bound ih => rw [readChain]; infer_instance

instance (cell : LeafCell) : Rereads env opened file (reassemble env cell) := by
  unfold reassemble readOverflowChain; infer_instance

instance (maxLocal : Nat) (buf : Bytes) (found : SearchResult) :
    Rereads env opened file (Btree.getFound env maxLocal buf found) := by
  cases found <;> (unfold Btree.getFound; infer_instance)

instance (fuel current : Nat) (key : I64) :
    Rereads env opened file (Btree.getFrom env fuel current key) := by
  induction fuel generalizing current with
  | zero => exact .throw
  | succ fuel ih => rw [Btree.getFrom_succ]; infer_instance

instance (buf : Bytes) (maxLocal i count : Nat) (out : List (I64 × Row)) :
    Rereads env opened file (Btree.scanLeaf env buf maxLocal i count out) := by
  induction count generalizing i out with
  | zero => exact .pure
  | succ count ih => rw [Btree.scanLeaf]; infer_instance

instance (fuel : Nat) (out : List (I64 × Row)) (id : Nat) :
    Rereads env opened file (Btree.scanNode env fuel out id) := by
  induction fuel generalizing out id with
  | zero => exact .throw
  | succ fuel ih =>
    rw [Btree.scanNode]
    refine .bind inferInstance fun buf => .bind inferInstance fun _ => ?_
    split
    · infer_instance
    · exact .bind inferInstance fun _ => .bind inferInstance fun _ => .foldlM ih _ _

theorem Reading.looked (reading : Reading env opened file s) {call : Call}
    (looks : ¬ call.Mutates) (fuel : Nat) :
    Reading env opened file (final (call.run env fuel s)) := by
  have rereads : Rereads env opened file (call.run env fuel) := by
    cases call with
    | insert key row => exact absurd trivial looks
    | update key row => exact absurd trivial looks
    | delete key => exact absurd trivial looks
    | get key =>
      unfold Call.run Database.get Btree.get
      infer_instance
    | scan =>
      unfold Call.run Database.scan Btree.scan
      infer_instance
  exact rereads.moves s reading

end looking

/-! ## One round of a descent -/

/-- The interior page `id` of the file, if it reads as one. -/
def interiorPage (env : Env) (ps : PageSize) (file : File) (id : Nat) : Option Bytes :=
  (rawPage env ps file id).filter fun raw => readU8 raw 0 = .ok pageTypeInterior

/-- Where the descent for the key goes from page `id`. -/
def nextPage (env : Env) (ps : PageSize) (file : File) (key : I64) (id : Nat) : Option Nat :=
  (interiorPage env ps file id).bind fun raw => (interiorFindChildForKey raw key).toOption

/-- Page `id` has the child. -/
def ChildOf (env : Env) (ps : PageSize) (file : File) (id child : Nat) : Prop :=
  ∃ raw entries, interiorPage env ps file id = some raw ∧ interiorEntries raw = .ok entries ∧
    child ∈ entries.2

/-- The body of the two loops that descend: `leaf` for a leaf, and `rest` for the child. -/
def descendRound {α : Type} (env : Env) (key : I64) (leaf : Bytes → PoolM α) (rest : Nat → PoolM α)
    (current : Nat) : PoolM α := do
  let buf ← BufferPool.get env current
  let pageType ← readU8 buf 0
  if pageType = pageTypeLeaf then leaf buf
  else
    Pager.expectPageType current buf pageTypeInterior "interior"
    let next ← interiorFindChildForKey buf key
    rest next

theorem interiorPage_of_raw {id : Nat} {raw : Bytes} (found : rawPage env ps file id = some raw) :
    interiorPage env ps file id = if readU8 raw 0 = .ok pageTypeInterior then some raw else none := by
  rw [interiorPage, found, Option.filter_some]
  simp only [decide_eq_true_eq]

/-- A round goes on with the child, or ends. -/
theorem descendRound_goes {α : Type} (works : ∀ k, env.fault k = none)
    (reading : Reading env opened file s) (key : I64) (leaf : Bytes → PoolM α)
    (ends : ∀ buf, Raises (fun e => e ≠ .running) (leaf buf)) (rest : Nat → PoolM α) (current : Nat) :
    match nextPage env opened.pageSize file key current with
    | some next => ∃ t, Reading env opened file t ∧ descendRound env key leaf rest current s = rest next t
    | none => ∀ s', descendRound env key leaf rest current s ≠ .error .running s' := by
  have page := reading.get works current
  rw [reading.pager, reading.file] at page
  rw [nextPage, descendRound]
  -- the round ends unless the page is an interior one that names a child
  cases found : rawPage env opened.pageSize file current with
  | none =>
    rw [found] at page
    obtain ⟨e, t, fails⟩ := page
    rw [interiorPage, found]
    intro s' run
    rw [Hoare.bind_error fails] at run
    obtain ⟨rfl, -⟩ := EStateM.Result.error.inj run
    exact Raises.raises (E := fun e => e ≠ .running) s _ t fails rfl
  | some raw =>
    rw [found] at page
    obtain ⟨t, reads, reading'⟩ := page
    rw [interiorPage_of_raw found, Hoare.bind_ok reads]
    cases type : readU8 raw 0 with
    | error e =>
      rw [if_neg (by intro same; cases same)]
      intro s' run
      obtain ⟨rfl, -⟩ := EStateM.Result.error.inj run
      exact Fails.fails (E := fun e => e ≠ .running) _ type rfl
    | ok pageType =>
      rw [liftM_ok, Hoare.bind_ok (Hoare.pure_apply _ _)]
      by_cases isLeaf : pageType = pageTypeLeaf
      · subst isLeaf
        rw [if_pos rfl, if_neg (by decide)]
        exact fun s' run => (ends raw).raises t _ s' run rfl
      · rw [if_neg isLeaf, Pager.expectPageType, type, ok_bind]
        by_cases isInterior : pageType = pageTypeInterior
        · subst isInterior
          rw [if_pos rfl, if_pos rfl, Option.bind_some, pure_eq_ok, liftM_ok,
            Hoare.bind_ok (Hoare.pure_apply _ _)]
          cases child : interiorFindChildForKey raw key with
          | error e =>
            intro s' run
            obtain ⟨rfl, -⟩ := EStateM.Result.error.inj run
            exact Fails.fails (E := fun e => e ≠ .running) _ child rfl
          | ok next => exact ⟨t, reading', rfl⟩
        · rw [if_neg isInterior, if_neg (by intro same; injection same with same; exact isInterior same)]
          intro s' run
          cases run

/-! ## Descents -/

/-- A descent with that many rounds to go runs out of them exactly when the walk goes on for as many. -/
theorem getFrom_running (works : ∀ k, env.fault k = none) (reading : Reading env opened file s)
    (fuel current : Nat) :
    (∃ s', Btree.getFrom env fuel current key s = .error .running s') ↔
      (walk (nextPage env opened.pageSize file key) fuel current).isSome := by
  induction fuel generalizing current s with
  | zero => exact ⟨fun _ => rfl, fun _ => ⟨s, rfl⟩⟩
  | succ fuel ih =>
    have goes := descendRound_goes works reading key
      (fun buf => do Btree.getFound env opened.pageSize.maxLocal buf (← leafSearch buf key))
        (fun buf => inferInstance)
      (fun next => Btree.getFrom env fuel next key) current
    have round : Btree.getFrom env (fuel + 1) current key s = descendRound env key
        (fun buf => do Btree.getFound env opened.pageSize.maxLocal buf (← leafSearch buf key))
        (fun next => Btree.getFrom env fuel next key) current s := by
      rw [Btree.getFrom_succ, BufferPool.pageSize, ← reading.pager]
      rfl
    rw [round, walk]
    cases step : nextPage env opened.pageSize file key current with
    | none =>
      rw [step] at goes
      constructor
      · rintro ⟨s', run⟩
        exact absurd run (goes s')
      · intro none
        cases none
    | some next =>
      rw [step] at goes
      obtain ⟨t, reading', run⟩ := goes
      rw [run, Option.bind_some]
      exact ih reading' next

theorem descendPathFrom_running (works : ∀ k, env.fault k = none)
    (reading : Reading env opened file s) (fuel current : Nat) (path : List Nat) :
    (∃ s', descendPathFrom env fuel current key path s = .error .running s') ↔
      (walk (nextPage env opened.pageSize file key) fuel current).isSome := by
  induction fuel generalizing current s path with
  | zero => exact ⟨fun _ => rfl, fun _ => ⟨s, rfl⟩⟩
  | succ fuel ih =>
    have goes := descendRound_goes works reading key (fun _ => pure path) (fun buf => inferInstance)
      (fun next => descendPathFrom env fuel next key (path ++ [next])) current
    have round : descendPathFrom env (fuel + 1) current key path =
      descendRound env key (fun _ => pure path)
      (fun next => descendPathFrom env fuel next key (path ++ [next])) current := rfl
    rw [round, walk]
    cases step : nextPage env opened.pageSize file key current with
    | none =>
      rw [step] at goes
      constructor
      · rintro ⟨s', run⟩
        exact absurd run (goes s')
      · intro none
        cases none
    | some next =>
      rw [step] at goes
      obtain ⟨t, reading', run⟩ := goes
      rw [run, Option.bind_some]
      exact ih reading' next (path ++ [next])

/-! ## The ids of a file are 32 bits wide -/

/-- The page ids a file can hold. -/
def pageIds : Finset Nat := Finset.range 4294967296

theorem findChildForKeyFrom_lt {raw : Bytes} {i count child : Nat}
    (found : findChildForKeyFrom raw key i count = .ok child) :
    child < 4294967296 := by
  induction count generalizing i with
  | zero => exact readU32_lt found
  | succ count ih =>
    rw [findChildForKeyFrom] at found
    obtain ⟨cellKey, -, found⟩ := Res.bind_ok found
    split at found
    · obtain ⟨offset, -, found⟩ := Res.bind_ok found
      exact readU32_lt found
    · exact ih found

theorem nextPage_lt {id next : Nat} (step : nextPage env ps file key id = some next) :
    next ∈ pageIds := by
  obtain ⟨raw, -, child⟩ := Option.bind_eq_some_iff.mp step
  rw [pageIds, Finset.mem_range]
  cases found : interiorFindChildForKey raw key with
  | error e =>
    rw [found] at child
    cases child
  | ok child' =>
    rw [found] at child
    obtain rfl := Option.some.inj child
    obtain ⟨n, -, found⟩ := Res.bind_ok found
    exact findChildForKeyFrom_lt found

theorem walk_lt {root : Nat} (small : root ∈ pageIds) (i id : Nat)
    (walked : walk (nextPage env ps file key) i root = some id) :
    id ∈ pageIds := by
  induction i generalizing root with
  | zero =>
    obtain rfl := Option.some.inj walked
    exact small
  | succ i ih =>
    obtain ⟨next, step, rest⟩ := Option.bind_eq_some_iff.mp walked
    exact ih (nextPage_lt step) rest

theorem interiorEntriesFrom_lt {raw : Bytes} {i count : Nat} {entries : List I64 × List Nat}
    (found : interiorEntriesFrom raw i count = .ok entries) :
    ∀ child ∈ entries.2, child < 4294967296 := by
  induction count generalizing i entries with
  | zero =>
    obtain rfl := Except.ok.inj found
    exact fun child member => absurd member List.not_mem_nil
  | succ count ih =>
    obtain ⟨cellKey, -, found⟩ := Res.bind_ok found
    obtain ⟨child, read, found⟩ := Res.bind_ok found
    obtain ⟨rest, readRest, found⟩ := Res.bind_ok found
    obtain rfl := Except.ok.inj found
    obtain ⟨offset, -, read⟩ := Res.bind_ok read
    exact List.forall_mem_cons.mpr ⟨readU32_lt read, ih readRest⟩

theorem ChildOf.lt {id child : Nat} (link : ChildOf env ps file id child) : child ∈ pageIds := by
  obtain ⟨raw, entries, -, found, member⟩ := link
  rw [pageIds, Finset.mem_range]
  obtain ⟨n, -, found⟩ := Res.bind_ok found
  obtain ⟨both, readCells, found⟩ := Res.bind_ok found
  obtain ⟨rightmost, read, found⟩ := Res.bind_ok found
  obtain rfl := Except.ok.inj found
  cases List.mem_append.mp member with
  | inl inside => exact interiorEntriesFrom_lt readCells child inside
  | inr last =>
    obtain rfl := List.mem_singleton.mp last
    exact readU32_lt read

/-! ## Scans -/

theorem scanned_children_running (works : ∀ k, env.fault k = none) {fuel : Nat} {deep : Nat → Prop}
    {children : List Nat} (each : ∀ child out s, Reading env opened file s →
      (∃ s', Btree.scanNode env fuel out child s = .error .running s') → deep child)
    (reading : Reading env opened file s) {out : List (I64 × Row)} {s' : BufferPool}
    (run : children.foldlM (Btree.scanNode env fuel) out s = .error .running s') :
    ∃ child ∈ children, deep child := by
  induction children generalizing s out with
  | nil => cases run
  | cons child children ih =>
    rw [List.foldlM_cons] at run
    cases first : Btree.scanNode env fuel out child s with
    | ok out' t =>
      rw [Hoare.bind_ok first] at run
      have : Fact (∀ k, env.fault k = none) := ⟨works⟩
      have below : Rereads env opened file (Btree.scanNode env fuel out child) := inferInstance
      have reading' := below.moves s reading
      rw [first] at reading'
      obtain ⟨child', member, found⟩ := ih reading' run
      exact ⟨child', List.mem_cons_of_mem _ member, found⟩
    | error e t =>
      rw [Hoare.bind_error first] at run
      obtain ⟨rfl, -⟩ := EStateM.Result.error.inj run
      exact ⟨child, List.mem_cons_self, each child out s reading ⟨t, first⟩⟩

/-- A scan that runs out of depth has followed that many links. -/
theorem scanNode_running (works : ∀ k, env.fault k = none) (reading : Reading env opened file s)
    {fuel id : Nat} {out : List (I64 × Row)}
    (run : ∃ s', Btree.scanNode env fuel out id s = .error .running s') :
    Deep (ChildOf env opened.pageSize file) fuel id := by
  -- each round of the run that goes on passes through one page to one of its children
  induction fuel generalizing id out s with
  | zero => trivial
  | succ fuel ih =>
    obtain ⟨s', run⟩ := run
    have page := reading.get works id
    rw [reading.pager, reading.file] at page
    rw [Btree.scanNode] at run
    cases found : rawPage env opened.pageSize file id with
    | none =>
      rw [found] at page
      obtain ⟨e, t, fails⟩ := page
      rw [Hoare.bind_error fails] at run
      obtain ⟨rfl, -⟩ := EStateM.Result.error.inj run
      exact absurd rfl (Raises.raises (E := fun e => e ≠ .running) s _ t fails)
    | some raw =>
      rw [found] at page
      obtain ⟨t, reads, reading'⟩ := page
      rw [Hoare.bind_ok reads] at run
      cases type : readU8 raw 0 with
      | error e =>
        rw [type] at run
        obtain ⟨rfl, -⟩ := EStateM.Result.error.inj run
        exact absurd rfl (Fails.fails (E := fun e => e ≠ .running) _ type)
      | ok pageType =>
        rw [type, liftM_ok, Hoare.bind_ok (Hoare.pure_apply _ _)] at run
        -- scanning a leaf ends, whatever the leaf holds
        by_cases isLeaf : pageType = pageTypeLeaf
        · rw [if_pos isLeaf] at run
          exact absurd rfl (Raises.raises (E := fun e => e ≠ .running) t _ s' run)
        · rw [if_neg isLeaf, Pager.expectPageType, type, ok_bind] at run
          by_cases isInterior : pageType = pageTypeInterior
          · subst isInterior
            rw [if_pos rfl, pure_eq_ok, liftM_ok, Hoare.bind_ok (Hoare.pure_apply _ _)] at run
            cases entries : interiorEntries raw with
            | error e =>
              rw [entries] at run
              obtain ⟨rfl, -⟩ := EStateM.Result.error.inj run
              exact absurd rfl (Fails.fails (E := fun e => e ≠ .running) _ entries)
            | ok both =>
              rw [entries, liftM_ok, Hoare.bind_ok (Hoare.pure_apply _ _)] at run
              obtain ⟨child, member, deep⟩ :=
                scanned_children_running works
                  (fun child out s reading run => ih reading run) reading' run
              refine ⟨child, ⟨raw, both, ?_, entries, member⟩, deep⟩
              rw [interiorPage_of_raw found, if_pos type]
          · rw [if_neg isInterior] at run
            cases run

/-! ## Calls -/

/-- A database that was opened, and only asked for rows since. -/
inductive Asked (env : Env) (file : File) : Database → Prop
  | opened {d d' : Disk} {capacity : Nat} {s : Database} (same : d.file = file)
      (run : Database.openWithCapacity env capacity d = .ok s d') : Asked env file s
  | asked {s : Database} {call : Call} (before : Asked env file s) (looks : ¬ call.Mutates) (fuel : Nat) :
      Asked env file (final (call.run env fuel s))

/-- The call looks for the key. -/
def Call.Seeks (key : I64) : Call → Prop
  | .insert key' _ | .get key' | .update key' _ | .delete key' => key' = key
  | .scan => False

theorem Asked.reading (works : ∀ k, env.fault k = none) (asked : Asked env file s) :
    Reading env s.pager file s ∧ s.pager.rootPageId ∈ pageIds := by
  have : Fact (∀ k, env.fault k = none) := ⟨works⟩
  induction asked with
  | @opened d d' capacity s same run =>
    subst same
    have opened := openWithCapacity_ok run
    have small := (validSlot_fits (File.valid_of_chosen opened.chosen).1).rootPageId
    refine ⟨?_, Finset.mem_range.mpr small⟩
    rw [Database.openWithCapacity] at run
    cases openFile_cases env d with
    | inl found =>
      obtain ⟨slot, content, n, reads, -⟩ := found
      rw [Hoare.bind_ok reads, Hoare.get_bind] at run
      cases made : BufferPool.new (d.ticked n) (content.pager slot) capacity with
      | error e =>
        rw [made] at run
        cases run
      | ok pool =>
        rw [made] at run
        injection run with same
        subst same
        have reading : Reading env (content.pager slot) (d.ticked n).file pool := Reading.new made
        rw [reading.pager]
        exact reading
    | inr failed =>
      obtain ⟨e, n, fails, -⟩ := failed
      rw [Hoare.bind_error fails] at run
      cases run
  | asked before looks fuel ih =>
    obtain ⟨reading, small⟩ := ih
    have reading' := reading.looked looks fuel
    rw [reading'.pager]
    exact ⟨reading', small⟩

/-- What the calls for a key do with the tree: descend, and then work on the leaf. -/
theorem descended_running {α : Type} (works : ∀ k, env.fault k = none)
    (reading : Reading env opened file s) (fuel root : Nat) {first : PoolM α}
    {found : List Nat → PoolM α} (firstEnds : Raises (fun e => e ≠ .running) first)
    (foundEnds : ∀ path, Raises (fun e => e ≠ .running) (found path)) :
    (∃ s', (if root = emptyTreeRoot then first else descendPath env fuel root key >>= found)
      s = .error .running s') ↔
      root ≠ emptyTreeRoot ∧ (walk (nextPage env opened.pageSize file key) fuel root).isSome := by
  by_cases isEmpty : root = emptyTreeRoot
  · rw [if_pos isEmpty]
    exact ⟨fun ⟨s', run⟩ => absurd rfl (firstEnds.raises s _ s' run), fun both => absurd isEmpty both.1⟩
  · rw [if_neg isEmpty, Raises.bind_error_iff foundEnds (fun never => never rfl), descendPath,
      descendPathFrom_running works reading]
    exact ⟨fun walks => ⟨isEmpty, walks⟩, fun both => both.2⟩

section calls

variable {fuel : Nat} {row : Row}

theorem get_running (works : ∀ k, env.fault k = none) (reading : Reading env opened file s) :
    (∃ s', Btree.get env fuel key s = .error .running s') ↔
      s.pager.rootPageId ≠ emptyTreeRoot ∧
        (walk (nextPage env opened.pageSize file key) fuel s.pager.rootPageId).isSome := by
  have rooted : Btree.get env fuel key s =
    (if s.pager.rootPageId = emptyTreeRoot then pure none
      else Btree.getFrom env fuel s.pager.rootPageId key) s := rfl
  rw [rooted]
  by_cases isEmpty : s.pager.rootPageId = emptyTreeRoot
  · rw [if_pos isEmpty]
    constructor
    · rintro ⟨s', run⟩
      cases run
    · exact fun both => absurd isEmpty both.1
  · rw [if_neg isEmpty, getFrom_running works reading]
    exact ⟨fun walks => ⟨isEmpty, walks⟩, fun both => both.2⟩

theorem insert_running (works : ∀ k, env.fault k = none)
    (reading : Reading env opened file s) (row : Row) :
    (∃ s', Btree.insert env fuel key row s = .error .running s') ↔
      s.pager.rootPageId ≠ emptyTreeRoot ∧
        (walk (nextPage env opened.pageSize file key) fuel s.pager.rootPageId).isSome := by
  let found (path : List Nat) : PoolM Nat := do
    let leafId ← Btree.lastOf path
    let leafBuf ← BufferPool.get env leafId
    Btree.insertFound env key row path leafId leafBuf (← leafSearch leafBuf key)
  have foundEnds : ∀ path, Raises (fun e => e ≠ .running) (found path) := fun path => by
    unfold found
    infer_instance
  have firstEnds : Raises (fun e => e ≠ .running) (Btree.insertFirst env key row) := inferInstance
  exact descended_running works reading fuel s.pager.rootPageId firstEnds foundEnds

theorem update_running (works : ∀ k, env.fault k = none)
    (reading : Reading env opened file s) (row : Row) :
    (∃ s', Btree.update env fuel key row s = .error .running s') ↔
      s.pager.rootPageId ≠ emptyTreeRoot ∧
        (walk (nextPage env opened.pageSize file key) fuel s.pager.rootPageId).isSome := by
  let found (path : List Nat) : PoolM Nat := do
    let leafId ← Btree.lastOf path
    let leafBuf ← BufferPool.get env leafId
    Btree.updateFound env key row path leafId leafBuf (← leafSearch leafBuf key)
  have foundEnds : ∀ path, Raises (fun e => e ≠ .running) (found path) := fun path => by
    unfold found
    infer_instance
  have firstEnds : Raises (fun e => e ≠ .running)
    (throw (.permanent (.keyNotFound key)) : PoolM Nat) := .throw nofun
  exact descended_running works reading fuel s.pager.rootPageId firstEnds foundEnds

theorem delete_running (works : ∀ k, env.fault k = none) (reading : Reading env opened file s) :
    (∃ s', Btree.delete env fuel key s = .error .running s') ↔
      s.pager.rootPageId ≠ emptyTreeRoot ∧
        (walk (nextPage env opened.pageSize file key) fuel s.pager.rootPageId).isSome := by
  let found (path : List Nat) : PoolM (Nat × Row) := do
    let leafId ← Btree.lastOf path
    let leafBuf ← BufferPool.get env leafId
    Btree.deleteFound env key s.pager.pageSize.maxLocal path leafId leafBuf (← leafSearch leafBuf key)
  have foundEnds : ∀ path, Raises (fun e => e ≠ .running) (found path) := fun path => by
    unfold found
    infer_instance
  have firstEnds : Raises (fun e => e ≠ .running)
    (throw (.permanent (.keyNotFound key)) : PoolM (Nat × Row)) := .throw nofun
  have rooted : Btree.delete env fuel key s =
    (if s.pager.rootPageId = emptyTreeRoot then throw (.permanent (.keyNotFound key))
      else descendPath env fuel s.pager.rootPageId key >>= found) s := by
    rw [Btree.delete_eq, BufferPool.rootPageId]
    by_cases isEmpty : s.pager.rootPageId = emptyTreeRoot
    · rw [if_pos isEmpty]
      show (if s.pager.rootPageId = emptyTreeRoot then _ else _ : PoolM (Nat × Row)) s = _
      rw [if_pos isEmpty]
    · rw [if_neg isEmpty]
      show (if s.pager.rootPageId = emptyTreeRoot then _ else _ : PoolM (Nat × Row)) s = _
      rw [if_neg isEmpty]
      rfl
  rw [rooted]
  exact descended_running works reading fuel s.pager.rootPageId firstEnds foundEnds

end calls

/-- A call for a key goes on as long as the descent for it does. -/
theorem Call.seeks_running {call : Call} (works : ∀ k, env.fault k = none)
    (reading : Reading env opened file s) (seeks : call.Seeks key) (fuel : Nat) :
    (∃ s', call.run env fuel s = .error .running s') ↔
      s.pager.rootPageId ≠ emptyTreeRoot ∧
        (walk (nextPage env opened.pageSize file key) fuel s.pager.rootPageId).isSome := by
  have never : ¬ (Stop.running ≠ .running) := fun ne => ne rfl
  cases call with
  | get key' =>
    obtain rfl := seeks
    rw [← get_running works reading]
    exact Raises.bind_error_iff (fun _ => .pure) never
  | insert key' row =>
    obtain rfl := seeks
    rw [← insert_running works reading row]
    exact (Raises.bind_error_iff (fun _ => .pure) never).trans
      (Raises.bind_error_iff (fun _ => .pure) never)
  | update key' row =>
    obtain rfl := seeks
    rw [← update_running works reading row]
    exact (Raises.bind_error_iff (fun _ => .pure) never).trans
      (Raises.bind_error_iff (fun _ => .pure) never)
  | delete key' =>
    obtain rfl := seeks
    rw [← delete_running works reading]
    exact (Raises.bind_error_iff (fun _ => .pure) never).trans
      (Raises.bind_error_iff (fun _ => .pure) never)
  | scan => exact absurd seeks id

theorem scan_running (works : ∀ k, env.fault k = none) (reading : Reading env opened file s) {fuel : Nat}
    (run : ∃ s', Call.scan.run env fuel s = .error .running s') :
    Deep (ChildOf env opened.pageSize file) fuel s.pager.rootPageId := by
  have never : ¬ (Stop.running ≠ .running) := fun ne => ne rfl
  obtain ⟨s', run⟩ := (Raises.bind_error_iff (fun _ => .pure) never).mp run
  have rooted : Database.scan env fuel s =
    (if s.pager.rootPageId = emptyTreeRoot then pure []
      else Btree.scanNode env fuel [] s.pager.rootPageId) s := rfl
  rw [rooted] at run
  split at run
  · cases run
  · exact scanNode_running works reading ⟨s', run⟩

/-! ## Panics -/

/-- Whatever the file and the cache hold and whichever I/O calls fail, `get` and `scan` do not
panic, and in a release build no call does. -/
theorem calls_never_panic (call : Call) (fuel : Nat)
    (spared : ¬ call.Mutates ∨ env.profile = .release) (s s' : Database) :
    call.run env fuel s ≠ .error .panic s' := by
  have raises : Raises (fun e => e ≠ .panic) (call.run env fuel) := by
    cases spared with
    | inl looks => exact call.looks_raises looks fuel
    | inr release =>
      have : Overflows env.profile (fun e => e ≠ .panic) := ⟨fun dev => by cases release.symm.trans dev⟩
      exact call.raises fuel
  exact fun run => raises.raises s .panic s' run rfl

/-! ## Any file -/

/-- On a file whose pages hold anything, where no I/O call fails, no lookup panics, nor any call of
a release build.  A call for a key goes on for ever exactly when the child ids it follows from the
root lead back to a page it has been at, and a scan only when some page is below itself. -/
theorem calls_on_any_file (works : ∀ k, env.fault k = none) (asked : Asked env file s) {fuel : Nat}
    (large : u32Max < fuel) :
    (∀ (call : Call) s', ¬ call.Mutates ∨ env.profile = .release →
      call.run env fuel s ≠ .error .panic s') ∧
      (∀ key (call : Call), call.Seeks key → ((∃ s', call.run env fuel s = .error .running s') ↔
        s.pager.rootPageId ≠ emptyTreeRoot ∧
          Returns (nextPage env s.pager.pageSize file key) s.pager.rootPageId)) ∧
      ((∃ s', Call.scan.run env fuel s = .error .running s') →
        ∃ id, Relation.ReflTransGen (ChildOf env s.pager.pageSize file) s.pager.rootPageId id ∧
          Relation.TransGen (ChildOf env s.pager.pageSize file) id id) := by
  obtain ⟨reading, small⟩ := asked.reading works
  have many : pageIds.card ≤ fuel := by
    rw [pageIds, Finset.card_range]
    exact large
  refine ⟨fun call s' spared => calls_never_panic call fuel spared s s',
    fun key call seeks => ?_, fun run => ?_⟩
  · rw [call.seeks_running works reading seeks, Walk.returns_iff (walk_lt small) many]
  · exact (scan_running works reading run).cycle small (fun _ _ link => link.lt) many

/-- Any page can be the root of a file. -/
theorem rooted_opens (profile : Profile) (xxh3 : Bytes → UInt64) (ps : PageSize) {page : Bytes}
    (len : page.length = ps.bytes) :
    ∃ file s d', Database.openWithCapacity (Env.faultless profile xxh3) 1 ⟨true, file, 0, []⟩ = .ok s d' ∧
      s.pager.content = { pageSize := ps, txnId := 1, rootPageId := 2, pageCount := 3 } ∧
      rawPage (Env.faultless profile xxh3) ps file 2 =
        some (stamped (Env.faultless profile xxh3) page) := by
  generalize named : Env.faultless profile xxh3 = env
  have works : ∀ k, env.fault k = none := by
    rw [← named]
    exact fun k => rfl
  let content : MetaContent := { pageSize := ps, txnId := 1, rootPageId := 2, pageCount := 3 }
  let laid := (Disk.laidOut env ps ⟨false, File.empty, 0, []⟩).file
  let file := (laid.write (Pager.slotOffset 1) (metaSlot env content)).write (Pager.fileOffset ps 2)
    (stamped env page)
  have long : 8 ≤ page.length := by
    have := ps.bounds
    omega
  have stampedLen : (stamped env page).length = ps.bytes := (length_stamped long).trans len
  have kept : ∀ slot, file.slot slot =
    (laid.write (Pager.slotOffset 1) (metaSlot env content)).slot slot := by
    have framed : Framed ps (fun id => id = 2)
      (laid.write (Pager.slotOffset 1) (metaSlot env content)) file :=
      Framed.store rfl stampedLen
    exact framed.slot
  have valid : Pager.validSlot env (file.slot 1) = some content := by
    rw [kept, slot_write_same (length_metaSlot content)]
    exact validSlot_metaSlot (by constructor <;> simp only [content] <;> omega)
  -- the second slot is newer than the first, which is that of a new file
  have chosen : file.chosen env = some (1, content) := by
    refine File.chosen_of_newest valid fun other older => ?_
    have first : (laid.store (Pager.slotOffset (1 - 0)) (metaSlot env content)
      (Torn.whole (metaSlot env content))).slot 0 = laid.slot 0 :=
      slot_store_other (length_metaSlot content)
    rw [show (1 - 0 : Fin 2) = 1 by decide] at first
    have initial : laid.slot 0 = metaSlot env (MetaContent.initial ps) := (Disk.laidOut_slots env ps _).1
    rw [show (1 - 1 : Fin 2) = 0 by decide, kept, File.write, first, initial,
      validSlot_metaSlot (MetaContent.initial_fits ps)] at older
    obtain rfl := Option.some.inj older
    exact Nat.zero_lt_one
  have grown : metaRegionLen ≤ file.len := by
    have start : laid.len = metaRegionLen := rfl
    rw [← start]
    exact Nat.le_trans (File.len_le_store _ _ _ _) (File.len_le_store _ _ _ _)
  obtain ⟨s, d', run, pager⟩ :=
    openWithCapacity_works (d := ⟨true, file, 0, []⟩) (fun k _ => works k) rfl
      (Nat.le_refl 1) grown chosen
  refine ⟨file, s, d', run, by rw [pager]; rfl, rawPage_eq_some.mpr ⟨?_, verifies_stamped long, ?_⟩⟩
  · rw [File.len_write (by omega), stampedLen]
    exact Nat.le_max_right _ _
  · exact File.read_write_at stampedLen

theorem rooted_file (profile : Profile) (xxh3 : Bytes → UInt64) (ps : PageSize) {page : Bytes}
    (len : page.length = ps.bytes) :
    ∃ file s, Asked (Env.faultless profile xxh3) file s ∧ s.pager.pageSize = ps ∧ s.pager.rootPageId = 2 ∧
      rawPage (Env.faultless profile xxh3) ps file 2 =
        some (stamped (Env.faultless profile xxh3) page) := by
  obtain ⟨file, s, d', run, content, raw⟩ := rooted_opens profile xxh3 ps len
  exact ⟨file, s, .opened rfl run, congrArg MetaContent.pageSize content,
    congrArg MetaContent.rootPageId content, raw⟩

/-- A page that is its own child, for every key. -/
theorem selfChild_next {rest : Bytes} (key : I64)
    (page : rawPage env ps file 2 = some ([2, 0, 0, 0, 0, 0, 0, 0, 2] ++ rest)) :
    nextPage env ps file key 2 = some 2 := by
  have type : readU8 ([2, 0, 0, 0, 0, 0, 0, 0, 2] ++ rest) 0 = .ok pageTypeInterior := by
    simp [readU8, readBytes, Slice.slice, Functor.map, Except.map, ofBe, BigEndian.ofBe, pageTypeInterior]
  have cells : numCells ([2, 0, 0, 0, 0, 0, 0, 0, 2] ++ rest) = .ok 0 := by
    simp [numCells, readU16, readBytes, Slice.slice, Functor.map, Except.map, ofBe, BigEndian.ofBe]
  have rightmost : interiorRightmost ([2, 0, 0, 0, 0, 0, 0, 0, 2] ++ rest) = .ok 2 := by
    simp [interiorRightmost, readU32, readBytes, Slice.slice, Functor.map, Except.map,
      ofBe, BigEndian.ofBe]
  rw [nextPage, interiorPage_of_raw page, if_pos type, Option.bind_some, interiorFindChildForKey,
    cells, ok_bind, findChildForKeyFrom, rightmost]
  rfl

theorem calls_on_any_file_self_child :
    ∃ file s, Asked (Env.faultless .release fun _ => 0) file s ∧
      ∃ s', (Call.get ⟨1, by decide, by decide⟩).run (Env.faultless .release fun _ => 0)
        (u32Max + 1) s = .error .running s' := by
  obtain ⟨rest, len⟩ : ∃ rest : Bytes, rest.length = 4087 :=
    ⟨List.replicate 4087 0, List.length_replicate⟩
  have long : ([2, 0, 0, 0, 0, 0, 0, 0, 2] ++ rest).length = PageSize.default.bytes := by
    rw [List.length_append, len]
    rfl
  obtain ⟨file, s, asked, pageSize, root, raw⟩ := rooted_file .release (fun _ => 0) PageSize.default long
  have split : stamped (Env.faultless .release fun _ => 0) ([2, 0, 0, 0, 0, 0, 0, 0, 2] ++ rest)
      = [2, 0, 0, 0, 0, 0, 0, 0, 2] ++
        (rest.take 4079 ++ toBe 8 (computeChecksum (Env.faultless .release fun _ => 0)
        ([2, 0, 0, 0, 0, 0, 0, 0, 2] ++ rest))) := by
    rw [stamped, body, List.length_append, len]
    rfl
  rw [split] at raw
  have step := selfChild_next ⟨1, by decide, by decide⟩ raw
  rw [← pageSize] at step
  have hangs :=
    (calls_on_any_file (fun _ => rfl) asked (Nat.lt_succ_self _)).2.1 ⟨1, by decide, by decide⟩
    (.get ⟨1, by decide, by decide⟩) rfl
  rw [root] at hangs
  exact ⟨file, s, asked, hangs.mpr ⟨by decide, 0, 1, 2, Nat.zero_lt_one, rfl,
    Option.bind_eq_some_iff.mpr ⟨2, step, rfl⟩⟩⟩

end Pinax
