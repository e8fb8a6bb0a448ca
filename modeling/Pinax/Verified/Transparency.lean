import Pinax.Verified.Commit

/-! # The pool is transparent

The calls of the pool refine a plain store of pages, `PoolModel`: what a call answers and what the file
holds after a flush depend on the model alone, hence neither on the capacity nor on the order in which
the dirty pages are flushed.
-/

namespace Pinax

open Hoare (Ends final)

inductive PoolCall
  | allocate
  | put (id : Nat) (buf : Bytes)
  | get (id : Nat)
  | flush
  | commit (root : Nat)
  deriving DecidableEq

/-- What a call returns; of a page, its bytes below the checksum. -/
inductive PoolAnswer
  | id (id : Nat)
  | done
  | page (content : Bytes)
  deriving DecidableEq

variable (env : Env)

def PoolCall.run : PoolCall → PoolM PoolAnswer
  | .allocate => do return .id (← BufferPool.allocatePageId env)
  | .put id buf => do BufferPool.putNew env id buf; return .done
  | .get id => do return .page (body (← BufferPool.get env id))
  | .flush => do BufferPool.flushAllDirty env; return .done
  | .commit root => do BufferPool.commit env root; return .done

def answerOf {α : Type} : EStateM.Result Stop BufferPool α → Except Stop α
  | .ok a _ => .ok a
  | .error e _ => .error e

/-- The answer of each call of a sequence, with the state after it. -/
def runCalls : List PoolCall → BufferPool → List (Except Stop PoolAnswer × BufferPool)
  | [], _ => []
  | call :: calls, s =>
    let r := call.run env s
    (answerOf r, final r) :: runCalls calls (final r)

/-- The calls a caller makes: page-sized buffers, and no ids below the first data page. -/
def PoolCall.Sized (ps : PageSize) : PoolCall → Prop
  | .put id buf => firstDataPageId ≤ id ∧ buf.length = ps.bytes
  | .get id => firstDataPageId ≤ id
  | _ => True

/-! ## The model -/

/-- A store of pages: what was last put under each id, the next id and the transaction id. -/
structure PoolModel where
  puts : Nat → Option Bytes
  next : Nat
  txnId : Nat

/-- A model of a pool that was just made over `pager`. -/
def PoolModel.new (pager : Pager) : PoolModel := ⟨fun _ => none, pager.pageCount, pager.txnId⟩

/-- The build checks overflow and there is no next transaction id. -/
def PoolModel.TxnOverflow (m : PoolModel) : Prop := env.profile = .dev ∧ 2 ^ 64 ≤ m.txnId + 1

instance (m : PoolModel) : Decidable (m.TxnOverflow env) := inferInstanceAs (Decidable (_ ∧ _))

def PoolModel.step (m : PoolModel) : PoolCall → PoolModel
  | .allocate => { m with next := m.next + 1 }
  | .put id buf => { m with puts := withPage m.puts id (body buf) }
  | .commit _ => if m.TxnOverflow env then m else { m with txnId := (m.txnId + 1) % 2 ^ 64 }
  | _ => m

/-- The page of `start` under `id`, if it was never put: readable or corrupt. -/
def unseen (ps : PageSize) (start : File) (id : Nat) : Except Stop PoolAnswer :=
  let page := start.read (Pager.fileOffset ps id) ps.bytes
  if verifies env page = true then .ok (.page (body page))
  else .error (.fatal (.corruption id (storedChecksum page) (computeChecksum env page)))

/-- What is known of page `id`: what was put, or what the file held at the start. -/
def PoolModel.page (ps : PageSize) (start : File) (m : PoolModel) (id : Nat) : Option Bytes :=
  if firstDataPageId ≤ id then (m.puts id).or (diskPage env ps start id) else none

/-- The answers of a call.  A page that was never put and was unreadable at the start may lie outside
the file. -/
def PoolModel.Answers (ps : PageSize) (start : File) (m : PoolModel) (call : PoolCall)
    (answer : Except Stop PoolAnswer) : Prop :=
  match call with
  | .allocate => answer = .ok (.id m.next)
  | .put _ _ => answer = .ok .done
  | .flush => answer = .ok .done
  | .commit _ => answer = if m.TxnOverflow env then .error .panic else .ok .done
  | .get id =>
    match m.page env ps start id with
    | some content => answer = .ok (.page content)
    | none => m.puts id = none ∧ (answer = .error Stop.io ∨ answer = unseen env ps start id)

/-- The pool holds the pages of the model, over a file that is as `start` elsewhere. -/
structure Holding (ps : PageSize) (start : File) (m : PoolModel) (s : BufferPool) : Prop where
  sound : Sound env s
  pageSize : s.pager.pageSize = ps
  next : s.nextPageId = m.next
  txnId : s.pager.txnId = m.txnId
  dirty : ∀ id ∈ s.dirty, m.puts id ≠ none
  high : ∀ id, m.puts id ≠ none → firstDataPageId ≤ id
  agree : ∀ id content, m.page env ps start id = some content → s.page env id = some content
  grown : start.len ≤ s.disk.file.len
  same : ∀ i, metaRegionLen ≤ i →
    (∀ id, m.puts id ≠ none → i < Pager.fileOffset ps id ∨ Pager.fileOffset ps id + ps.bytes ≤ i) →
    s.disk.file.byte i = start.byte i

variable {env} {ps : PageSize} {start : File} {m : PoolModel} {s : BufferPool}

/-- The origin of the next call, which may write the pages `writable`. -/
def callOrigin (s : BufferPool) (writable : Nat → Prop) (two : ∀ id, writable id → firstDataPageId ≤ id) :
    Origin where
  start := s
  writable
  base := fun _ => none
  two
  safe := fun _ _ none => absurd none nofun

theorem Holding.during (h : Holding env ps start m s) {writable : Nat → Prop}
    (two : ∀ id, writable id → firstDataPageId ≤ id) (more : ∀ id, m.puts id ≠ none → writable id) :
    During env (callOrigin s writable two) (m.page env ps start) m.next s := by
  rw [← h.next]
  refine During.init h.sound rfl (fun id dirty => more id (h.dirty id dirty)) ?_
    (fun _ _ none => by cases none)
  intro id content known
  refine ⟨?_, h.agree id content known⟩
  simp only [PoolModel.page] at known
  split at known
  next low => exact low
  next => cases known

/-- What a call below `commit` leaves is held by the model that puts the same pages. -/
theorem Holding.of_during (h : Holding env ps start m s) (m' : PoolModel) {writable : Nat → Prop}
    {two : ∀ id, writable id → firstDataPageId ≤ id} {v : Nat → Option Bytes} {s' : BufferPool}
    (during : During env (callOrigin s writable two) v m'.next s') (txn : m'.txnId = m.txnId)
    (exact : ∀ id, writable id ↔ m'.puts id ≠ none) (more : ∀ id, m.puts id ≠ none → m'.puts id ≠ none)
    (known : ∀ id content, m'.page env ps start id = some content → v id = some content) :
    Holding env ps start m' s' where
  sound := during.sound
  pageSize := (congrArg Pager.pageSize during.pager).trans h.pageSize
  next := during.next
  txnId := (congrArg Pager.txnId during.pager).trans (h.txnId.trans txn.symm)
  dirty := fun id dirty => (exact id).mp (during.dirty id dirty)
  high := fun id put => two id ((exact id).mpr put)
  agree := fun id content page => (during.agree id content (known id content page)).2
  grown := Nat.le_trans h.grown during.framed.grown
  same := fun i past outside => by
    have sizes : s.pager.pageSize = ps := h.pageSize
    have before := h.same i past (fun id put => outside id (more id put))
    have after := during.framed.same i (fun id may => by
      show i < Pager.fileOffset s.pager.pageSize id ∨
        Pager.fileOffset s.pager.pageSize id + s.pager.pageSize.bytes ≤ i
      rw [sizes]
      exact outside id ((exact id).mp may))
    exact after.trans before

/-- The bytes of a page that was never put. -/
theorem Holding.read_unput (h : Holding env ps start m s) {id : Nat} (low : firstDataPageId ≤ id)
    (never : m.puts id = none) :
    s.disk.file.read (Pager.fileOffset ps id) ps.bytes =
      start.read (Pager.fileOffset ps id) ps.bytes := by
  apply File.read_congr
  intro i inside
  have past := metaRegionLen_le_fileOffset ps id
  refine h.same _ (by omega) (fun id' put => ?_)
  have ne : id' ≠ id := by
    rintro rfl
    exact put never
  have := fileOffset_disjoint ps (h.high id' put) low ne
  omega

theorem Holding.get (works : ∀ k, env.fault k = none) (h : Holding env ps start m s) {id : Nat}
    (low : firstDataPageId ≤ id) :
    m.Answers env ps start (.get id) (answerOf (PoolCall.run env (.get id) s)) ∧
      Holding env ps start m (final (PoolCall.run env (.get id) s)) := by
  have during := h.during h.high (fun _ put => put)
  have reached := get_ends during id
  have back : ∀ {s' : BufferPool}, During env (callOrigin s (fun id => m.puts id ≠ none) h.high)
      (m.page env ps start) m.next s' → Holding env ps start m s' :=
    fun during' => h.of_during m during' rfl (fun _ => Iff.rfl) (fun _ put => put)
      (fun _ _ known => known)
  have pageNone : m.page env ps start id = none → m.puts id = none ∧ diskPage env ps start id = none := by
    intro unknown
    simp only [PoolModel.page, if_pos low] at unknown
    exact Option.or_eq_none_iff.mp unknown
  cases run : BufferPool.get env id s with
  | ok buf s' =>
    rw [run] at reached
    obtain ⟨during', len, found⟩ := reached
    have ran : PoolCall.run env (.get id) s = .ok (.page (body buf)) s' := Hoare.bind_ok run
    rw [ran]
    refine ⟨?_, back during'⟩
    simp only [PoolModel.Answers, answerOf]
    cases known : m.page env ps start id with
    | some content =>
      rw [h.agree id content known, Option.some.injEq] at found
      rw [found]
    | none =>
      obtain ⟨never, -⟩ := pageNone known
      refine ⟨never, Or.inr ?_⟩
      -- the page was never put, so it is clean and the file still has its first content
      have onDisk : diskPage env ps s.disk.file id = some (body buf) := by
        rw [← h.pageSize]
        cases cached : s.entries.lookup id with
        | some buf' =>
          rw [page_cached cached, Option.some.injEq] at found
          rw [← found]
          exact h.sound.clean id buf' low cached (fun dirty => h.dirty id dirty never)
        | none => rwa [page_uncached cached] at found
      simp only [diskPage, h.read_unput low never] at onDisk
      split at onDisk
      next readable =>
        simp only [unseen, if_pos readable.2]
        rw [Option.some.inj onDisk]
      next => cases onDisk
  | error e s' =>
    rw [run] at reached
    have ran : PoolCall.run env (.get id) s = .error e s' := Hoare.bind_error run
    rw [ran]
    rcases reached with ⟨-, ⟨k, -, -, fails⟩, -⟩ | ⟨during', none, why⟩
    · rw [works k] at fails
      cases fails
    · refine ⟨?_, back during'⟩
      simp only [PoolModel.Answers, answerOf]
      cases known : m.page env ps start id with
      | some content => cases (h.agree id content known).symm.trans none
      | none =>
        obtain ⟨never, -⟩ := pageNone known
        refine ⟨never, ?_⟩
        have bytes := h.read_unput low never
        simp only [Unreadable, Pager.Unreadable, h.pageSize, bytes] at why
        rcases why with ⟨rfl, -⟩ | ⟨rfl, bad⟩
        · exact Or.inl rfl
        · simp only [unseen, bad]
          exact Or.inr rfl

theorem Holding.put (works : ∀ k, env.fault k = none) (h : Holding env ps start m s)
    {id : Nat} {buf : Bytes} (low : firstDataPageId ≤ id) (len : buf.length = ps.bytes) :
    answerOf (PoolCall.run env (.put id buf) s) = .ok .done ∧
      Holding env ps start (m.step env (.put id buf)) (final (PoolCall.run env (.put id buf) s)) := by
  -- the id that is put is one of a data page, as those put before are
  have two : ∀ id', (m.step env (.put id buf)).puts id' ≠ none → firstDataPageId ≤ id' := by
    intro id' put
    by_cases same : id' = id
    · rw [same]; exact low
    · refine h.high id' ?_
      simpa only [PoolModel.step, withPage_other same] using put
  have more : ∀ id', m.puts id' ≠ none → (m.step env (.put id buf)).puts id' ≠ none := by
    intro id' put
    by_cases same : id' = id
    · simp only [same, PoolModel.step, withPage_same, ne_eq, reduceCtorEq, not_false_eq_true]
    · simpa only [PoolModel.step, withPage_other same] using put
  have during := h.during two more
  have may : (callOrigin s _ two).writable id := by
    show (m.step env (.put id buf)).puts id ≠ none
    simp only [PoolModel.step, withPage_same, ne_eq, reduceCtorEq, not_false_eq_true]
  have reached := putNew_ends during may (by rw [len, ← h.pageSize]; rfl)
  cases run : BufferPool.putNew env id buf s with
  | error e s' =>
    rw [run] at reached
    obtain ⟨-, ⟨k, -, -, fails⟩, -⟩ := reached
    rw [works k] at fails
    cases fails
  | ok _ s' =>
    rw [run] at reached
    have ran : PoolCall.run env (.put id buf) s = .ok .done s' := Hoare.bind_ok run
    rw [ran]
    refine ⟨rfl, h.of_during (m.step env (.put id buf)) reached rfl (fun _ => Iff.rfl) more ?_⟩
    intro id' content known
    by_cases same : id' = id
    · subst same
      rw [withPage_same]
      simpa only [PoolModel.page, PoolModel.step, if_pos low, withPage_same, Option.some_or] using known
    · rw [withPage_other same]
      simpa only [PoolModel.page, PoolModel.step, withPage_other same] using known

theorem Holding.allocate (h : Holding env ps start m s) (fits : m.next + 1 < 2 ^ 32) :
    answerOf (PoolCall.run env .allocate s) = .ok (.id m.next) ∧
      Holding env ps start (m.step env .allocate) (final (PoolCall.run env .allocate s)) := by
  rcases allocatePageId_apply env s with ⟨-, run⟩ | ⟨large, -⟩
  · have ran : PoolCall.run env .allocate s = .ok (.id s.nextPageId) s.handedOut := Hoare.bind_ok run
    rw [ran]
    have during := (h.during h.high (fun _ put => put)).handedOut
    exact ⟨by rw [h.next]; rfl, h.of_during (m.step env .allocate) during rfl (fun _ => Iff.rfl)
      (fun _ put => put) (fun _ _ known => known)⟩
  · rw [h.next] at large
    omega

theorem Holding.flush (works : ∀ k, env.fault k = none) (h : Holding env ps start m s) :
    answerOf (PoolCall.run env .flush s) = .ok .done ∧
      Holding env ps start m (final (PoolCall.run env .flush s)) ∧
      (final (PoolCall.run env .flush s)).dirty = ∅ := by
  have reached := flushAllDirty_ends (h.during h.high (fun _ put => put))
  cases run : BufferPool.flushAllDirty env s with
  | error e s' =>
    rw [run] at reached
    obtain ⟨-, ⟨k, -, -, fails⟩, -⟩ := reached
    rw [works k] at fails
    cases fails
  | ok _ s' =>
    rw [run] at reached
    have ran : PoolCall.run env .flush s = .ok .done s' := Hoare.bind_ok run
    rw [ran]
    exact ⟨rfl, h.of_during m reached.1 rfl (fun _ => Iff.rfl) (fun _ put => put)
      (fun _ _ known => known), reached.2.1⟩

theorem Holding.commit (works : ∀ k, env.fault k = none) (h : Holding env ps start m s) (root : Nat) :
    answerOf (PoolCall.run env (.commit root) s) =
      (if m.TxnOverflow env then .error .panic else .ok .done) ∧
      Holding env ps start (m.step env (.commit root)) (final (PoolCall.run env (.commit root) s)) ∧
      (final (PoolCall.run env (.commit root) s)).dirty = ∅ := by
  have reached := commit_ends (h.during h.high (fun _ put => put)) root
  have overflow : (callOrigin s _ h.high).start.pager.TxnOverflow env ↔ m.TxnOverflow env := by
    simp only [Pager.TxnOverflow, PoolModel.TxnOverflow, ← h.txnId]
    rfl
  cases run : BufferPool.commit env root s with
  | error e s' =>
    rw [run] at reached
    -- no I/O call fails, so only the transaction id can overflow
    rcases reached with ⟨-, ⟨k, -, -, fails⟩, -⟩ | ⟨-, ⟨k, -, -, fails⟩, -⟩ | ⟨rfl, noNext, during, clean⟩
    · rw [works k] at fails
      cases fails
    · rw [works k] at fails
      cases fails
    · have ran : PoolCall.run env (.commit root) s = .error .panic s' := Hoare.bind_error run
      rw [ran, PoolModel.step, if_pos (overflow.mp noNext), if_pos (overflow.mp noNext)]
      exact ⟨rfl, h.of_during m during rfl (fun _ => Iff.rfl) (fun _ put => put)
        (fun _ _ known => known), clean⟩
  | ok _ s' =>
    rw [run] at reached
    obtain ⟨fits, committed⟩ := reached
    have ran : PoolCall.run env (.commit root) s = .ok .done s' := Hoare.bind_ok run
    rw [ran, PoolModel.step, if_neg (fun no => fits (overflow.mpr no)),
      if_neg (fun no => fits (overflow.mpr no))]
    simp only [Hoare.final_ok]
    refine ⟨rfl, ⟨committed.sound, ?_, committed.next, ?_, ?_, h.high, ?_, ?_, ?_⟩, committed.dirty⟩
    · exact (congrArg Pager.pageSize committed.pager).trans h.pageSize
    · refine (congrArg Pager.txnId committed.pager).trans ?_
      show (s.pager.txnId + 1) % 2 ^ 64 = _
      rw [h.txnId]
    · intro id dirty
      show m.puts id ≠ none
      rw [committed.dirty] at dirty
      exact absurd dirty (Finset.notMem_empty id)
    · exact fun id content known => (committed.agree id content known).2
    · obtain ⟨flushed, ext, framed, file, -⟩ := committed.file
      rw [file]
      exact Nat.le_trans h.grown (Nat.le_trans framed.grown (File.len_le_store _ _ _ _))
    -- the commit writes the pages that were put and a slot
    · intro i past outside
      obtain ⟨flushed, ext, framed, file, -⟩ := committed.file
      have slot := slotOffset_bound (callOrigin s _ h.high).start.pager.spare
      have sizes : (callOrigin s _ h.high).start.pager.pageSize = ps := h.pageSize
      rw [file, File.byte_write, if_neg (by rw [length_metaSlot]; omega),
        framed.same i (by rw [sizes]; exact outside)]
      exact h.same i past outside

/-- What the file holds of page `id` when nothing is dirty. -/
def PoolModel.filePage (env : Env) (ps : PageSize) (start : File) (m : PoolModel) (id : Nat) : Bytes :=
  match m.puts id with
  | some content => content ++ toBe 8 (env.xxh3 content).toNat
  | none => start.read (Pager.fileOffset ps id) ps.bytes

theorem Holding.filePage (h : Holding env ps start m s) (clean : s.dirty = ∅) {id : Nat}
    (low : firstDataPageId ≤ id) :
    s.disk.file.read (Pager.fileOffset ps id) ps.bytes = m.filePage env ps start id := by
  simp only [PoolModel.filePage]
  cases put : m.puts id with
  | none => exact h.read_unput low put
  | some content =>
    have known : m.page env ps start id = some content := by
      simp only [PoolModel.page, if_pos low, put, Option.some_or]
    have found := h.agree id content known
    have onDisk : diskPage env ps s.disk.file id = some content := by
      rw [← h.pageSize]
      cases cached : s.entries.lookup id with
      | some buf =>
        rw [page_cached cached, Option.some.injEq] at found
        rw [← found]
        exact h.sound.clean id buf low cached (by rw [clean]; exact Finset.notMem_empty id)
      | none => rwa [page_uncached cached] at found
    simp only [diskPage] at onDisk
    split at onDisk
    next readable =>
      have page := ps.bounds.1
      have same := eq_stamped_of_verifies (by rw [File.length_read]; omega) readable.2
      rw [same, stamped, Option.some.inj onDisk, computeChecksum]
      congr 3
      exact congrArg env.xxh3 (Option.some.inj onDisk)
    next => cases onDisk

/-! ## Sequences of calls -/

theorem Holding.call (works : ∀ k, env.fault k = none) (h : Holding env ps start m s) {call : PoolCall}
    (sized : call.Sized ps) (fits : call = .allocate → m.next + 1 < 2 ^ 32) :
    m.Answers env ps start call (answerOf (call.run env s)) ∧
      Holding env ps start (m.step env call) (final (call.run env s)) ∧
      ((call = .flush ∨ ∃ root, call = .commit root) → (final (call.run env s)).dirty = ∅) := by
  cases call with
  | allocate =>
    obtain ⟨answer, holding⟩ := h.allocate (fits rfl)
    exact ⟨answer, holding, by rintro (same | ⟨root, same⟩) <;> cases same⟩
  | put id buf =>
    obtain ⟨answer, holding⟩ := h.put works sized.1 sized.2
    exact ⟨answer, holding, by rintro (same | ⟨root, same⟩) <;> cases same⟩
  | get id =>
    obtain ⟨answer, holding⟩ := h.get works sized
    exact ⟨answer, holding, by rintro (same | ⟨root, same⟩) <;> cases same⟩
  | flush =>
    obtain ⟨answer, holding, clean⟩ := h.flush works
    exact ⟨answer, holding, fun _ => clean⟩
  | commit root =>
    obtain ⟨answer, holding, clean⟩ := h.commit works root
    exact ⟨answer, holding, fun _ => clean⟩

/-- The model after a sequence of calls. -/
def PoolModel.after (env : Env) (m : PoolModel) (calls : List PoolCall) : PoolModel :=
  calls.foldl (PoolModel.step env) m

theorem runCalls_holding (works : ∀ k, env.fault k = none) (calls : List PoolCall)
    (h : Holding env ps start m s) (sized : ∀ call ∈ calls, call.Sized ps)
    (fits : m.next + calls.count .allocate < 2 ^ 32) {i : Nat} {call : PoolCall}
    (at' : calls[i]? = some call) :
    ∃ answer s', (runCalls env calls s)[i]? = some (answer, s') ∧
      (m.after env (calls.take i)).Answers env ps start call answer ∧
      Holding env ps start (m.after env (calls.take (i + 1))) s' ∧
      ((call = .flush ∨ ∃ root, call = .commit root) → s'.dirty = ∅) := by
  induction calls generalizing m s i with
  | nil => cases at'
  | cons first calls ih =>
    have step := h.call works (sized first List.mem_cons_self) (by
      rintro rfl
      rw [List.count_cons_self] at fits
      omega)
    cases i with
    | zero =>
      obtain rfl : first = call := Option.some.inj at'
      exact ⟨_, _, rfl, step.1, step.2.1, step.2.2⟩
    | succ i =>
      -- only an allocation takes an id
      have next : (m.step env first).next + calls.count .allocate < 2 ^ 32 := by
        cases first with
        | allocate =>
          rw [List.count_cons_self] at fits
          simp only [PoolModel.step]
          omega
        | commit root =>
          rw [List.count_cons_of_ne (by simp)] at fits
          rw [PoolModel.step]
          split <;> exact fits
        | put id buf => rw [List.count_cons_of_ne (by simp)] at fits; exact fits
        | get id => rw [List.count_cons_of_ne (by simp)] at fits; exact fits
        | flush => rw [List.count_cons_of_ne (by simp)] at fits; exact fits
      exact ih step.2.1 (fun call member => sized call (List.mem_cons_of_mem _ member)) next at'

/-- What was last put under `id`. -/
def lastPut (calls : List PoolCall) (id : Nat) : Option Bytes :=
  calls.reverse.findSome? fun
    | .put id' buf => if id' = id then some (body buf) else none
    | _ => none

theorem after_puts (env : Env) (m : PoolModel) (calls : List PoolCall) (id : Nat) :
    (m.after env calls).puts id = (lastPut calls id).or (m.puts id) := by
  induction calls using List.reverseRecOn with
  | nil => rfl
  | append_singleton calls call ih =>
    have step : m.after env (calls ++ [call]) = (m.after env calls).step env call := by
      simp only [PoolModel.after, List.foldl_append, List.foldl_cons, List.foldl_nil]
    rw [step, lastPut, List.reverse_append, List.reverse_singleton, List.singleton_append,
      List.findSome?_cons]
    cases call with
    | put id' buf =>
      by_cases same : id' = id
      · subst same
        simp only [PoolModel.step, withPage_same, if_true, Option.some_or]
      · simp only [PoolModel.step, withPage_other (Ne.symm same), if_neg same]
        exact ih
    | commit root =>
      rw [PoolModel.step]
      split <;> exact ih
    | allocate => exact ih
    | get id' => exact ih
    | flush => exact ih

theorem Holding.new (env : Env) {disk : Disk} {pager : Pager} {capacity : Nat}
    (opened : BufferPool.new disk pager capacity = .ok s) :
    Holding env pager.pageSize disk.file (PoolModel.new pager) s := by
  rw [BufferPool.new] at opened
  split at opened
  next positive =>
    rw [Except.ok.injEq] at opened
    subst opened
    refine ⟨⟨List.Perm.nil, positive, Nat.zero_le _, ?_, ?_⟩, rfl, rfl, rfl, ?_, ?_, ?_, Nat.le_refl _,
      fun _ _ _ => rfl⟩
    · exact fun id buf found => by rw [AList.lookup_empty] at found; cases found
    · exact fun id buf _ found => by rw [AList.lookup_empty] at found; cases found
    · exact fun id dirty => absurd dirty (Finset.notMem_empty id)
    · exact fun id put => absurd rfl put
    · intro id content known
      rw [page_uncached (AList.lookup_empty id)]
      simp only [PoolModel.page, PoolModel.new, Option.none_or] at known
      split at known
      next => exact known
      next => cases known
  next => cases opened

theorem Answers.agree {env' : Env} (sameHash : env'.xxh3 = env.xxh3)
    (sameProfile : env'.profile = env.profile) {call : PoolCall} {a a' : Except Stop PoolAnswer}
    (answers : m.Answers env ps start call a) (answers' : m.Answers env' ps start call a') :
    a = a' ∨ ∃ id, call = .get id ∧ m.puts id = none ∧ (a = .error Stop.io ∨ a' = .error Stop.io) := by
  have checks : ∀ buf, verifies env' buf = verifies env buf := fun buf => by
    simp only [verifies, computeChecksum, sameHash]
  have page : m.page env' ps start = m.page env ps start := by
    funext id
    simp only [PoolModel.page, diskPage, checks]
  have overflow : m.TxnOverflow env' ↔ m.TxnOverflow env := by
    simp only [PoolModel.TxnOverflow, sameProfile]
  cases call with
  | allocate => exact Or.inl (answers.trans answers'.symm)
  | put id buf => exact Or.inl (answers.trans answers'.symm)
  | flush => exact Or.inl (answers.trans answers'.symm)
  | commit root =>
    simp only [PoolModel.Answers, overflow] at answers answers'
    exact Or.inl (answers.trans answers'.symm)
  | get id =>
    simp only [PoolModel.Answers, page] at answers answers'
    cases known : m.page env ps start id with
    | some content =>
      simp only [known] at answers answers'
      exact Or.inl (answers.trans answers'.symm)
    | none =>
      simp only [known] at answers answers'
      obtain ⟨never, eof | seen⟩ := answers
      · exact Or.inr ⟨id, rfl, never, Or.inl eof⟩
      · rcases answers'.2 with eof | seen'
        · exact Or.inr ⟨id, rfl, never, Or.inr eof⟩
        · refine Or.inl (seen.trans (Eq.trans ?_ seen'.symm))
          simp only [unseen, checks, computeChecksum, sameHash]

theorem after_congr {env' : Env} (sameProfile : env'.profile = env.profile) (calls : List PoolCall) :
    m.after env' calls = m.after env calls := by
  have step : PoolModel.step env' = PoolModel.step env := by
    funext m call
    have overflow : m.TxnOverflow env' ↔ m.TxnOverflow env := by
      simp only [PoolModel.TxnOverflow, sameProfile]
    cases call with
    | commit root =>
      by_cases noNext : m.TxnOverflow env
      · rw [PoolModel.step, PoolModel.step, if_pos noNext, if_pos (overflow.mpr noNext)]
      · rw [PoolModel.step, PoolModel.step, if_neg noNext, if_neg (fun no => noNext (overflow.mp no))]
    | allocate => rfl
    | put id buf => rfl
    | get id => rfl
    | flush => rfl
  simp only [PoolModel.after, step]

/-- Two pools over the same file that run the same calls without a failing I/O call, with whatever
capacities and whatever order of flushing: a page that was put is returned as it was put last, the
answers are the same, and so are the data pages in the file after every flush and commit.  The one
difference a capacity can make is whether a page that nobody put, and that the file did not hold, lies
outside the file. -/
theorem pool_transparent (env env' : Env) (sameHash : env'.xxh3 = env.xxh3)
    (sameProfile : env'.profile = env.profile) (works : ∀ k, env.fault k = none)
    (works' : ∀ k, env'.fault k = none) {disk : Disk} {pager : Pager} {capacity capacity' : Nat}
    {pool pool' : BufferPool} (opened : BufferPool.new disk pager capacity = .ok pool)
    (opened' : BufferPool.new disk pager capacity' = .ok pool') {calls : List PoolCall}
    (sized : ∀ call ∈ calls, call.Sized pager.pageSize)
    (fits : pager.pageCount + calls.count .allocate ≤ u32Max) {i : Nat} {call : PoolCall}
    (at' : calls[i]? = some call) :
    ∃ a s a' s', (runCalls env calls pool)[i]? = some (a, s) ∧
      (runCalls env' calls pool')[i]? = some (a', s') ∧
      (∀ id content, call = .get id → lastPut (calls.take i) id = some content →
        a = .ok (.page content) ∧ a' = .ok (.page content)) ∧
      (a = a' ∨ ∃ id, call = .get id ∧ lastPut (calls.take i) id = none ∧
        (a = .error Stop.io ∨ a' = .error Stop.io)) ∧
      ((call = .flush ∨ ∃ root, call = .commit root) → ∀ id, firstDataPageId ≤ id →
        s.disk.file.read (Pager.fileOffset pager.pageSize id) pager.pageSize.bytes
          = s'.disk.file.read (Pager.fileOffset pager.pageSize id) pager.pageSize.bytes) := by
  have small : (PoolModel.new pager).next + calls.count .allocate < 2 ^ 32 := by
    simp only [PoolModel.new, u32Max] at *
    omega
  -- both pools stay with the one model, which has no capacity
  obtain ⟨a, s, run, answers, holding, clean⟩ :=
    runCalls_holding works calls (Holding.new env opened) sized small at'
  obtain ⟨a', s', run', answers', holding', clean'⟩ :=
    runCalls_holding works' calls (Holding.new env' opened') sized small at'
  rw [after_congr sameProfile] at answers' holding'
  have puts : ∀ id, ((PoolModel.new pager).after env (calls.take i)).puts id =
    lastPut (calls.take i) id :=
    fun id => (after_puts env _ _ id).trans Option.or_none
  refine ⟨a, s, a', s', run, run', ?_, ?_, ?_⟩
  · rintro id content rfl put
    have low : firstDataPageId ≤ id := sized _ (List.mem_of_getElem? at')
    -- a page that was put is known to the model, whatever the hash
    have known : ∀ env'' : Env, ((PoolModel.new pager).after env (calls.take i)).page env''
      pager.pageSize disk.file id
        = some content := fun env'' => by
      simp only [PoolModel.page, if_pos low, puts, put, Option.some_or]
    simp only [PoolModel.Answers, known] at answers answers'
    exact ⟨answers, answers'⟩
  · rcases Answers.agree sameHash sameProfile answers answers' with same | ⟨id, rfl, never, eof⟩
    · exact Or.inl same
    · exact Or.inr ⟨id, rfl, (puts id).symm.trans never, eof⟩
  · intro flushes id low
    rw [holding.filePage (clean flushes) low, holding'.filePage (clean' flushes) low]
    simp only [PoolModel.filePage, sameHash]

/-- A pool of one page evicts page 2 when page 3 is put, a pool of nine keeps both: page 2 is found
by either. -/
theorem pool_transparent_evicted :
    let env := Env.faultless .dev fun _ => 0
    let pager : Pager := ⟨PageSize.default, 0, 0, 0, 2⟩
    let sevens : Bytes := List.replicate 4096 7
    let calls := [.allocate, .allocate, .put 2 sevens, .put 3 (List.replicate 4096 8), .get 2]
    ∃ pool pool' a s a' s', BufferPool.new ⟨true, File.empty, 0, []⟩ pager 1 = .ok pool ∧
      BufferPool.new ⟨true, File.empty, 0, []⟩ pager 9 = .ok pool' ∧
      (runCalls env calls pool)[4]? = some (a, s) ∧ (runCalls env calls pool')[4]? = some (a', s') ∧
      a = .ok (.page (body sevens)) ∧ a' = .ok (.page (body sevens)) := by
  intro env pager sevens calls
  obtain ⟨pool, opened⟩ : ∃ pool, BufferPool.new ⟨true, File.empty, 0, []⟩ pager 1 = .ok pool := ⟨_, rfl⟩
  obtain ⟨pool', opened'⟩ :
    ∃ pool, BufferPool.new ⟨true, File.empty, 0, []⟩ pager 9 = .ok pool := ⟨_, rfl⟩
  have sized : ∀ call ∈ calls, call.Sized pager.pageSize := by
    intro call member
    simp only [calls, List.mem_cons, List.not_mem_nil, or_false] at member
    rcases member with rfl | rfl | rfl | rfl | rfl
    · trivial
    · trivial
    · exact ⟨Nat.le_refl 2, List.length_replicate⟩
    · exact ⟨by decide, List.length_replicate⟩
    · exact Nat.le_refl 2
  obtain ⟨a, s, a', s', run, run', put, -⟩ :=
    pool_transparent env env rfl rfl (fun _ => rfl) (fun _ => rfl)
    opened opened' sized (by decide) (show calls[4]? = some (.get 2) from rfl)
  exact ⟨pool, pool', a, s, a', s', opened, opened', run, run', put 2 _ rfl rfl⟩

end Pinax
