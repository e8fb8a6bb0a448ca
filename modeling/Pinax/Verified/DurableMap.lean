import Pinax.Library.Simulation
import Pinax.Verified.FirstInsert

/-! # A database is a durable map

What is observed of a session are the calls with what they returned, and when the database was
dropped and opened. `DurableMap` is what a database is for: each call happens as a whole or not at
all, what was acknowledged stays, and of the calls that failed with an I/O error at most the last
one is in doubt, until the next change or opening.
-/

namespace Pinax

open Hoare (final)

inductive Observation
  | call (call : Call) (result : Except Stop Reply)
  | drop
  | opened
  | unopened (e : Stop)

/-! ## The map -/

/-- The reply of a call on the rows. -/
def Call.reply (rows : List (I64 × Row)) : Call → Except Stop Reply
  | .insert key row =>
    if (rows.lookup key).isSome then .error (.permanent (.keyAlreadyExists key))
    else (row.encode key).map fun _ => .done
  | .get key => .ok (.binding (rows.lookup key))
  | .update key row =>
    if (rows.lookup key).isSome then (row.encode key).map fun _ => .done
    else .error (.permanent (.keyNotFound key))
  | .delete key =>
    match rows.lookup key with
    | some row => .ok (.removed row)
    | none => .error (.permanent (.keyNotFound key))
  | .scan => .ok (.rows rows)

/-- The rows, those that opening the database may find instead, and whether it is open. -/
structure DurableMap where
  rows : List (I64 × Row)
  doubt : Option (List (I64 × Row))
  isOpen : Bool

namespace DurableMap

inductive Step : DurableMap → Observation → DurableMap → Prop
  | looked {rows : List (I64 × Row)} {doubt : Option (List (I64 × Row))} {call : Call} {reply : Reply}
      (looks : ¬ call.Mutates)
      (replies : call.reply rows = .ok reply) :
      Step ⟨rows, doubt, true⟩ (.call call (.ok reply)) ⟨rows, doubt, true⟩
  | changed {rows : List (I64 × Row)} {doubt : Option (List (I64 × Row))} {call : Call}
      {reply : Reply} (mutates : call.Mutates)
      (replies : call.reply rows = .ok reply) :
      Step ⟨rows, doubt, true⟩ (.call call (.ok reply)) ⟨call.rowsAfter rows, none, true⟩
  | refused {rows : List (I64 × Row)} {doubt : Option (List (I64 × Row))} {call : Call} {e : Stop}
      (replies : call.reply rows = .error e) :
      Step ⟨rows, doubt, true⟩ (.call call (.error e)) ⟨rows, doubt, true⟩
  | failed {rows : List (I64 × Row)} {doubt : Option (List (I64 × Row))} {call : Call} :
      Step ⟨rows, doubt, true⟩ (.call call (.error .io)) ⟨rows, doubt, true⟩
  | doubted {rows : List (I64 × Row)} {doubt : Option (List (I64 × Row))} {call : Call}
      {reply : Reply} (mutates : call.Mutates)
      (replies : call.reply rows = .ok reply) :
      Step ⟨rows, doubt, true⟩ (.call call (.error .io)) ⟨rows, some (call.rowsAfter rows), true⟩
  | dropped {rows : List (I64 × Row)} {doubt : Option (List (I64 × Row))} :
      Step ⟨rows, doubt, true⟩ .drop ⟨rows, doubt, false⟩
  | found {rows : List (I64 × Row)} {doubt : Option (List (I64 × Row))} :
      Step ⟨rows, doubt, false⟩ .opened ⟨rows, none, true⟩
  | resolved {rows rows' : List (I64 × Row)} : Step ⟨rows, some rows', false⟩ .opened ⟨rows', none, true⟩
  | unopened {rows : List (I64 × Row)} {doubt : Option (List (I64 × Row))} {e : Stop} :
      Step ⟨rows, doubt, false⟩ (.unopened e) ⟨rows, doubt, false⟩

end DurableMap

def durableMap : Simulation.Machine DurableMap Observation where
  start m := m = ⟨[], none, true⟩
  step := DurableMap.Step

/-! ## The sessions -/

/-- One step of a session whose calls the guard allows, and what is observed of it. -/
inductive Session.Step (env : Env) (guard : CallGuard) : Session → Observation → Session → Prop
  | call {s : Database} {lineage : List Snapshot} {half : Option File} {since : Nat}
      (c : Call) (fuel : Nat)
      (within : ¬ Exhausted (final (c.run env fuel s)))
      (caught : TornSlotCaught env s.disk (final (c.run env fuel s)).disk)
      (allowed : guard c fuel s) :
      Step env guard ⟨.running s, lineage, half, since⟩ (.call c (answerOf (c.run env fuel s)))
        (.called s (final (c.run env fuel s)) lineage half since)
  | drop {s : Database} {lineage : List Snapshot} {half : Option File} {since : Nat} :
      Step env guard ⟨.running s, lineage, half, since⟩ .drop ⟨.closed s.disk, lineage, half, since⟩
  | reopen {d d' : Disk} {s : Database} {lineage : List Snapshot} {half : Option File}
      {since capacity : Nat}
      (run : Database.openWithCapacity env capacity d = .ok s d') :
      Step env guard ⟨.closed d, lineage, half, since⟩ .opened (.opened d s lineage half)
  | refused {d d' : Disk} {e : Stop} {lineage : List Snapshot} {half : Option File} {since capacity : Nat}
      (run : Database.openWithCapacity env capacity d = .error e d') :
      Step env guard ⟨.closed d, lineage, half, since⟩ (.unopened e) ⟨.closed d', lineage, half, since⟩

def guardedSessions (env : Env) (guard : CallGuard) : Simulation.Machine Session Observation where
  start session :=
    ∃ ps capacity d d' s, d.trace = [] ∧ Database.createWithCapacity env ps capacity d = .ok s d' ∧
    session = .created s
  step := Session.Step env guard

/-- The sessions whose calls are fitting. -/
def sessions (env : Env) : Simulation.Machine Session Observation := guardedSessions env (fitting env)

def Machine.isRunning : Machine → Bool
  | .running _ => true
  | .closed _ => false

/-- The newest state holds the rows of the map, and the file that a failed commit left holds those
in doubt. -/
structure Session.Shows (env : Env) (session : Session) (m : DurableMap) : Prop where
  current : ∀ cur ∈ session.lineage.head?, ∃ c, cur.Holds env c ∧ c.rows = m.rows
  doubt : ∀ f slot content, session.half = some f →
    Pager.validSlot env (session.machine.disk.file.slot slot) = some content →
    (∀ cur ∈ session.lineage.head?, content ≠ cur.content) → ∃ c, Snapshot.Holds env ⟨content, f⟩ c ∧
      m.doubt = some c.rows
  isOpen : m.isOpen = session.machine.isRunning

variable {env : Env} {s s' : Database} {session session' : Session} {log : List Call} {cur : Snapshot}
  {past : List Snapshot} {half : Option File} {floor fuel since : Nat} {c : Content} {call : Call}
  {m : DurableMap}

theorem Content.answer_eq_reply (c : Content) (call : Call) : c.answer call = call.reply c.rows := by
  cases call <;> rfl

/-! ## Each step of a session is one of the map -/

/-- A call that did not commit shows what was shown before. -/
theorem Session.Shows.failed (shows : Session.Shows env ⟨.running s, cur :: past, half, since⟩ m)
    (failed : Failed env (callFrom env s floor) s') :
    (Session.called s s' (cur :: past) half since).Shows env m := by
  obtain ⟨n, during⟩ := failed
  have pager : s'.pager = s.pager := during.pager
  have slots : ∀ slot, s'.disk.file.slot slot = s.disk.file.slot slot := during.framed.slot
  rw [Session.called, if_pos pager, if_pos (slots _)]
  refine ⟨shows.current, fun f slot content isHalf valid other => shows.doubt f slot content isHalf
    ?_ other, shows.isOpen⟩
  show Pager.validSlot env (s.disk.file.slot slot) = some content
  rw [← slots slot]
  exact valid

/-- A commit shows the new rows, and nothing in doubt. -/
theorem Session.Shows.committed {n root : Nat} {rows : List (I64 × Row)}
    (settled : Settled env cur past half floor s)
    (committed : Committed env (callFrom env s floor) (callFrom env s floor).base n root s')
    (holds : Snapshot.Holds env ⟨s'.pager.content, s'.disk.file⟩ c) (same : c.rows = rows) :
    (Session.called s s' (cur :: past) half since).Shows env ⟨rows, none, true⟩ := by
  rw [Session.called, if_neg (settled.pager_ne committed.pager)]
  refine ⟨fun cur' head => ?_, fun f slot content isHalf => (by cases isHalf), rfl⟩
  cases head
  exact ⟨c, holds, same⟩

/-- A commit that failed half-way leaves in doubt what was so before, or the new rows. -/
theorem Session.Shows.pending {n root : Nat} (settled : Settled env cur past half floor s)
    (shows : Session.Shows env ⟨.running s, cur :: past, half, since⟩ m)
    (committed : HalfCommitted env (callFrom env s floor) (callFrom env s floor).base n root s')
    (next : s.nextPageId < n) (small : root < 4294967296) (within : ¬ Exhausted s')
    (caught : TornSlotCaught env s.disk s'.disk)
    (holds : Snapshot.Holds env ⟨(s.pager.committed root n).content, s'.disk.file⟩ c) :
    ∃ doubt, (doubt = m.doubt ∨ doubt = some c.rows) ∧
      (Session.called s s' (cur :: past) half since).Shows env ⟨m.rows, doubt, true⟩ := by
  have pager : s'.pager = s.pager := committed.pager
  rw [Session.called, if_pos pager]
  by_cases unchanged : s'.disk.file.slot s.pager.spare = s.disk.file.slot s.pager.spare
  · rw [if_pos unchanged]
    refine ⟨m.doubt, Or.inl rfl, shows.current, fun f slot content isHalf valid other => ?_, rfl⟩
    have valid : Pager.validSlot env (s'.disk.file.slot slot) = some content := valid
    obtain ⟨rfl, -⟩ := settled.half_valid committed next small within caught valid (other cur rfl)
    rw [unchanged] at valid
    exact shows.doubt f _ content isHalf valid other
  · rw [if_neg unchanged]
    refine ⟨some c.rows, Or.inr rfl, shows.current, fun f slot content isHalf valid other => ?_, rfl⟩
    have valid : Pager.validSlot env (s'.disk.file.slot slot) = some content := valid
    obtain ⟨rfl, new⟩ := settled.half_valid committed next small within caught valid (other cur rfl)
    obtain rfl := Option.some.inj isHalf
    rw [new unchanged]
    exact ⟨c, holds, rfl⟩

/-- A call of a session is one of the map. -/
theorem Session.Shows.called (settled : Settled env cur past half floor s)
    (shows : Session.Shows env ⟨.running s, cur :: past, half, since⟩ m)
    (within : ¬ Exhausted (final (call.run env fuel s)))
    (caught : TornSlotCaught env s.disk (final (call.run env fuel s)).disk)
    (allowed : fitting env call fuel s) :
    ∃ m', DurableMap.Step m (.call call (answerOf (call.run env fuel s))) m' ∧
      (Session.called s (final (call.run env fuel s)) (cur :: past) half since).Shows env m' := by
  obtain ⟨rows, doubt, isOpen⟩ := m
  obtain rfl : isOpen = true := shows.isOpen
  obtain ⟨c, holds, same⟩ := shows.current cur rfl
  obtain rfl : c.rows = rows := same
  obtain ⟨deep, sized, fits⟩ := allowed
  have outcome :=
    settled.call_outcome holds (settled.shallow holds deep) sized (fits c (settled.contains holds)) within
  have replies := c.answer_eq_reply call
  generalize call.run env fuel s = result at outcome within caught
  cases outcome with
  | io faulted failed => exact ⟨_, .failed, shows.failed failed⟩
  | refused answer failed => exact ⟨_, .refused (replies.symm.trans answer), shows.failed failed⟩
  | replied looks answer failed =>
    exact ⟨_, .looked looks (replies.symm.trans answer), shows.failed failed⟩
  | committed mutates answer next small rows committed holds' =>
    exact ⟨_, .changed mutates (replies.symm.trans answer),
      Session.Shows.committed settled committed holds' rows⟩
  | half faulted mutates answer next small rows committed holds' =>
    obtain ⟨doubt', either, shows'⟩ := shows.pending settled committed next small within caught holds'
    rw [rows] at either
    cases either with
    | inl kept =>
      rw [kept] at shows'
      exact ⟨_, .failed, shows'⟩
    | inr new =>
      rw [new] at shows'
      exact ⟨_, .doubted mutates (replies.symm.trans answer), shows'⟩

/-- Opening finds the rows of the map, or those in doubt. -/
theorem Session.Shows.opened {d d' : Disk} {slot : Fin 2} {capacity : Nat}
    (recorded : Recorded env cur past half slot floor d.file)
    (shows : Session.Shows env ⟨.closed d, cur :: past, half, since⟩ m)
    (opened : Opened env d capacity s d') :
    ∃ m', DurableMap.Step m .opened m' ∧ (Session.opened d s (cur :: past) half).Shows env m' := by
  obtain ⟨rows, doubt, isOpen⟩ := m
  obtain rfl : isOpen = false := shows.isOpen
  rw [Session.opened]
  by_cases same : (cur :: past).head?.map Snapshot.content = some s.pager.content
  · rw [if_pos same]
    exact ⟨_, .found, shows.current, fun f slot content isHalf => (by cases isHalf), rfl⟩
  · rw [if_neg same]
    have other : cur.content ≠ s.pager.content := fun equal => same (congrArg some equal)
    obtain ⟨f, isHalf, valid⟩ := recorded.opened_half opened other
    have isHalf : half = some f := isHalf
    obtain ⟨c, holds, inDoubt⟩ := shows.doubt f _ _ isHalf valid fun cur' head equal => by
      cases head
      exact other equal.symm
    have inDoubt : doubt = some c.rows := inDoubt
    rw [inDoubt, isHalf]
    refine ⟨_, .resolved, fun cur' head => ?_, fun f slot content isHalf => (by cases isHalf), rfl⟩
    cases head
    exact ⟨c, holds, rfl⟩

/-- The session has a history, and shows what the map does. -/
def Session.Agrees (env : Env) (session : Session) (m : DurableMap) : Prop :=
  (∃ log, History env (fitting env) session log) ∧ session.Shows env m

theorem Session.Agrees.step {observed : Observation} (agrees : session.Agrees env m)
    (step : session.Step env (fitting env) observed session') :
    ∃ m', m.Step observed m' ∧ session'.Agrees env m' := by
  obtain ⟨⟨log, history⟩, shows⟩ := agrees
  cases step with
  | call call fuel within caught allowed =>
    obtain ⟨cur, past, rfl, floor, settled⟩ := history.reachable.good
    obtain ⟨m', step', shows'⟩ := shows.called settled within caught allowed
    exact ⟨m', step', ⟨_, .call call fuel history within caught allowed⟩, shows'⟩
  | drop =>
    obtain ⟨rows, doubt, isOpen⟩ := m
    obtain rfl : isOpen = true := shows.isOpen
    exact ⟨_, .dropped, ⟨log, .drop history⟩, shows.current, shows.doubt, rfl⟩
  | reopen run =>
    obtain ⟨cur, past, rfl, present, slot, floor, recorded⟩ := history.reachable.good
    obtain ⟨m', step', shows'⟩ := shows.opened recorded (openWithCapacity_ok run)
    exact ⟨m', step', ⟨log, .reopen history run⟩, shows'⟩
  | refused run =>
    obtain ⟨rows, doubt, isOpen⟩ := m
    obtain rfl : isOpen = false := shows.isOpen
    have later := History.refused history run
    obtain ⟨n, rfl⟩ := openWithCapacity_error run
    exact ⟨_, .unopened, ⟨log, later⟩, shows.current, shows.doubt, rfl⟩

theorem sessions_simulated (env : Env) : (sessions env).Simulates durableMap (Session.Agrees env) where
  start := by
    rintro session ⟨ps, capacity, d, d', s, blank, run, rfl⟩
    obtain ⟨-, created⟩ := createWithCapacity_ok run
    obtain ⟨c, holds, rfl⟩ := (created.filled (P := (· = none)) rfl).lineage _ List.mem_cons_self
    refine ⟨_, rfl, ⟨[], .create blank run⟩, fun cur head => ?_,
      fun f slot content isHalf => (by cases isHalf), rfl⟩
    cases head
    exact ⟨none, holds, rfl⟩
  step := fun agrees step => agrees.step step

/-- Whatever I/O calls fail and however often the database is dropped and opened again, what is
observed of a session could be observed of the durable map, and the newest state holds the rows of
the map. -/
theorem sessions_refine_durable_map {observed : List Observation}
    (trace : (sessions env).Trace observed session) :
    ∃ m, durableMap.Trace observed m ∧ session.Shows env m := by
  obtain ⟨m, trace', -, shows⟩ := (sessions_simulated env).trace trace
  exact ⟨m, trace', shows⟩

theorem rootPageId_empty (root : s.pager.rootPageId = emptyTreeRoot) :
    BufferPool.rootPageId s = .ok emptyTreeRoot s := by
  rw [← root]
  rfl

/-- On an empty tree a call other than an insertion does nothing. -/
theorem run_empty (root : s.pager.rootPageId = emptyTreeRoot)
    (other : ∀ key row, call ≠ .insert key row) :
    answerOf (call.run env fuel s) = call.reply [] ∧ final (call.run env fuel s) = s := by
  have read := rootPageId_empty root
  cases call with
  | insert key row => exact absurd rfl (other key row)
  | get key =>
    have found : (Call.get key).run env fuel s = .ok (.binding none) s := by
      rw [Call.run, Database.get, Btree.get, bind_assoc, Hoare.bind_ok read, if_pos rfl]
      rfl
    rw [found]
    exact ⟨rfl, rfl⟩
  | update key row =>
    have refused : (Call.update key row).run env fuel s = .error (.permanent (.keyNotFound key)) s := by
      rw [run_update, Btree.update, bind_assoc, Hoare.bind_ok read, if_pos rfl]
      rfl
    rw [refused]
    exact ⟨rfl, rfl⟩
  | delete key =>
    have refused : (Call.delete key).run env fuel s = .error (.permanent (.keyNotFound key)) s := by
      rw [run_delete, Btree.delete, bind_assoc, Hoare.bind_ok read, if_pos rfl]
      rfl
    rw [refused]
    exact ⟨rfl, rfl⟩
  | scan =>
    have found : Call.scan.run env fuel s = .ok (.rows []) s := by
      rw [Call.run, Database.scan, Btree.scan, bind_assoc, Hoare.bind_ok read, if_pos rfl]
      rfl
    rw [found]
    exact ⟨rfl, rfl⟩

section steps

variable {ps : PageSize} {lineage : List Snapshot} {guard : CallGuard} {reply : Reply}
  {answer : Except Stop Reply}

theorem Session.Step.advances (step : Advances env ps lineage s c call fuel reply s')
    (allowed : guard call fuel s) :
    Session.Step env guard ⟨.running s, lineage, half, since⟩ (.call call (.ok reply))
      ⟨.running s', ⟨s'.pager.content, s'.disk.file⟩ :: lineage, none, since⟩ := by
  have next : Session.Step env guard ⟨.running s, lineage, half, since⟩ _ _ :=
    .call call fuel (by rw [step.run]; exact step.steady.fresh)
      (by rw [step.run]; exact step.caught) allowed
  rwa [step.run, Hoare.final_ok, step.called] at next

theorem Session.Step.stays (step : Stays env ps lineage s c call fuel answer s')
    (allowed : guard call fuel s) :
    Session.Step env guard ⟨.running s, lineage, half, since⟩ (.call call answer)
      ⟨.running s', lineage, half, since⟩ := by
  have next : Session.Step env guard ⟨.running s, lineage, half, since⟩ _ _ :=
    .call call fuel (by rw [step.left]; exact step.steady.fresh)
      (by rw [step.left]; exact step.caught) allowed
  rwa [step.answered, step.left, step.called] at next

end steps

/-- The insertion of one row fails, that of another one does not, and the database is dropped,
opened again and asked for it. -/
theorem guardedSessions_kept (profile : Profile) (xxh3 : Bytes → UInt64) (guard : CallGuard)
    {row : Row} {encoded : Bytes} (one two : I64) (encodes : ∀ key, row.encode key = .ok encoded)
    (brief : encoded.length ≤ 24) (allowed : ∀ call s,
      call ∈ [.insert two row, .insert one row, .get one] → s.pager.pageSize = PageSize.default →
      fitting (Env.failingAt profile xxh3 4) call u32Max s → guard call u32Max s) :
    ∃ session, (guardedSessions (Env.failingAt profile xxh3 4) guard).Trace
      [.call (.insert two row) (.error .io), .call (.insert one row) (.ok .done), .drop, .opened,
        .call (.get one) (.ok (.binding (some row)))] session := by
  let env := Env.failingAt profile xxh3 4
  have small : encoded.length ≤ u32Max := Nat.le_trans brief (by decide)
  -- an insert in the empty tree splits no leaf
  have first : ∀ key (s : Database), s.pager.rootPageId = emptyTreeRoot →
    fitting env (.insert key row) u32Max s :=
    fun key s root => ⟨Nat.le_refl _, (Call.sized_of_encodes (encodes key) small).1,
      BufferPool.splitsFit_empty root _⟩
  -- the first insert fails at the first step of its commit, the second succeeds
  obtain ⟨s₀, s₁, create, fails, -, next₀, next₁⟩ :=
    first_insert_fails profile xxh3 PageSize.default (Nat.le_refl 1) (encodes two)
    (Nat.le_trans brief (by decide)) u32Max
  have root₀ : s₀.pager.rootPageId = emptyTreeRoot := by
    rw [← fails.pager]
    exact fails.steady.contains.root.symm
  have size₀ : s₀.pager.pageSize = PageSize.default := by
    rw [← fails.pager]
    exact fails.steady.size
  have root₁ : s₁.pager.rootPageId = emptyTreeRoot := fails.steady.contains.root.symm
  obtain ⟨s₂, step₂, short₂, -⟩ :=
    fails.steady.first_short (Nat.le_refl _) (encodes one) brief (by rw [next₁]; decide)
  -- the row is read in the next session, from the file
  obtain ⟨s₃, d, opened, steady₃, session, -⟩ := step₂.steady.reopened (show 1 ≤ 9 by decide)
  obtain ⟨s₄, step₄, -⟩ : ∃ s, Stays env _ _ s₃ _ (.get one) u32Max _ s ∧ _ :=
    steady₃.looked (Nat.le_refl _) id
  have bound : Call.rowsAfter (Content.rows none) (.insert one row) = [(one, row)] := rfl
  rw [Content.answer, step₂.rows, bound, List.lookup_cons_self] at step₄
  have insertTwo : Session.Step env guard (.created s₀) _ _ :=
    .stays fails (allowed _ _ (by simp) size₀ (first two s₀ root₀))
  have insertOne : Session.Step env guard ⟨.running s₁, _, none, 0⟩ _ _ :=
    .advances step₂ (allowed _ _ (by simp) fails.steady.size (first one s₁ root₁))
  have started : (guardedSessions env guard).Trace [] (.created s₀) :=
    .start ⟨_, _, _, _, s₀, rfl, create, rfl⟩
  have reopened := (((started.step insertTwo).step insertOne).step .drop).step (.reopen opened)
  rw [session none] at reopened
  exact ⟨_, reopened.step (.stays step₄
    (allowed _ _ (by simp) steady₃.size ⟨Nat.le_refl _, trivial, fun _ _ => trivial⟩))⟩

theorem sessions_kept (profile : Profile) (xxh3 : Bytes → UInt64) (one two : I64) :
    ∃ session, (sessions (Env.failingAt profile xxh3 4)).Trace ([.call (.insert two ⟨[]⟩) (.error .io),
      .call (.insert one ⟨[]⟩) (.ok .done), .drop, .opened] ++
        [.call (.get one) (.ok (.binding (some ⟨[]⟩)))]) session :=
  guardedSessions_kept profile xxh3 _ one two (fun _ => rfl) (by decide) fun _ _ _ _ fits => fits

theorem sessions_refine_durable_map_kept :
    let one : I64 := ⟨1, by decide, by decide⟩
    let two : I64 := ⟨2, by decide, by decide⟩
    ∃ (session : Session) (m : DurableMap),
      durableMap.Trace [.call (.insert two ⟨[]⟩) (.error .io), .call (.insert one ⟨[]⟩) (.ok .done),
      .drop, .opened, .call (.get one) (.ok (.binding (some ⟨[]⟩)))] m ∧
        session.Shows (Env.failingAt .dev (fun _ => 0) 4) m := by
  intro one two
  obtain ⟨session, trace⟩ := sessions_kept .dev (fun _ => 0) one two
  exact ⟨session, sessions_refine_durable_map trace⟩

/-! ## What was acknowledged -/

/-- The row of the key after the call, when it was `row` before. -/
def Call.binds (key : I64) (row : Option Row) : Call → Option Row
  | .insert key' row' | .update key' row' => if key = key' then some row' else row
  | .delete key' => if key = key' then none else row
  | .get _ | .scan => row

/-- The call changes the row of the key. -/
def Call.Writes (key : I64) : Call → Prop
  | .insert key' _ | .update key' _ | .delete key' => key = key'
  | .get _ | .scan => False

def Observation.acknowledge (key : I64) (row : Option Row) : Observation → Option Row
  | .call call (.ok _) => call.binds key row
  | .call _ (.error _) | .drop | .opened | .unopened _ => row

/-- The row that the acknowledged calls leave under the key. -/
def acknowledged (key : I64) (observed : List Observation) : Option Row :=
  observed.foldl (Observation.acknowledge key) none

/-- No call that changes the row of the key failed with an I/O error. -/
def Certain (key : I64) (observed : List Observation) : Prop :=
  ∀ call, .call call (.error .io) ∈ observed → ¬ call.Writes key

variable {key : I64} {observed : List Observation}

theorem acknowledged_snoc (observation : Observation) :
    acknowledged key (observed ++ [observation]) =
      observation.acknowledge key (acknowledged key observed) := by
  rw [acknowledged, List.foldl_append]
  rfl

theorem Call.binds_of_not_writes (elsewhere : ¬ call.Writes key) (row : Option Row) :
    call.binds key row = row := by
  cases call with
  | insert key' row' => exact if_neg elsewhere
  | get key' => rfl
  | update key' row' => exact if_neg elsewhere
  | delete key' => exact if_neg elsewhere
  | scan => rfl

theorem Call.binds_of_looks (looks : ¬ call.Mutates) (row : Option Row) : call.binds key row = row := by
  cases call with
  | insert key' row' => exact absurd trivial looks
  | get key' => rfl
  | update key' row' => exact absurd trivial looks
  | delete key' => exact absurd trivial looks
  | scan => rfl

theorem lookup_filter_keys (keep : I64 → Bool) (key : I64) (rows : List (I64 × Row)) :
    (rows.filter fun r => keep r.1).lookup key = if keep key then rows.lookup key else none := by
  induction rows with
  | nil => cases keep key <;> rfl
  | cons r rows ih =>
    obtain ⟨key', row⟩ := r
    by_cases same : key = key'
    · subst same
      cases kept : keep key with
      | true => simp [kept]
      | false => simpa [kept] using ih
    · have different : (key == key') = false := by simpa using same
      cases kept : keep key' with
      | true => simpa [kept, List.lookup_cons, different] using ih
      | false => simpa [kept, List.lookup_cons, different] using ih

theorem lookup_bindRow (key key' : I64) (row : Row) (rows : List (I64 × Row)) :
    (bindRow key' row rows).lookup key = if key = key' then some row else rows.lookup key := by
  have below := lookup_filter_keys (fun k => decide (k.val < key'.val)) key rows
  have above := lookup_filter_keys (fun k => decide (key'.val < k.val)) key rows
  rw [bindRow, List.lookup_append, List.lookup_cons, below, above]
  by_cases same : key = key'
  · subst same
    simp
  · have different : (key == key') = false := by simpa using same
    rw [different, if_neg same]
    by_cases less : key.val < key'.val
    · simp [less, Int.not_lt.mpr (Int.le_of_lt less)]
    · have more : key'.val < key.val := by
        have apart : key.val ≠ key'.val := fun equal => same (I64.ext equal)
        omega
      simp [less, more]

theorem lookup_unbindRow (key key' : I64) (rows : List (I64 × Row)) :
    (unbindRow key' rows).lookup key = if key = key' then none else rows.lookup key := by
  have kept := lookup_filter_keys (fun k => decide (k ≠ key')) key rows
  rw [unbindRow, kept]
  by_cases same : key = key'
  · simp [same]
  · simp [same]

theorem Call.lookup_rowsAfter (call : Call) (key : I64) (rows : List (I64 × Row)) :
    (call.rowsAfter rows).lookup key = call.binds key (rows.lookup key) := by
  cases call with
  | insert key' row => exact lookup_bindRow key key' row rows
  | get key' => rfl
  | update key' row => exact lookup_bindRow key key' row rows
  | delete key' => exact lookup_unbindRow key key' rows
  | scan => rfl

/-- The key has the row that was acknowledged last, and would have it after an opening that finds
what is in doubt. -/
def DurableMap.Keeps (m : DurableMap) (key : I64) (row : Option Row) : Prop :=
  m.rows.lookup key = row ∧ ∀ rows ∈ m.doubt, rows.lookup key = row

theorem DurableMap.Keeps.step {m m' : DurableMap} {row : Option Row} {observation : Observation}
    (keeps : m.Keeps key row) (step : m.Step observation m')
    (certain : ∀ call, observation = .call call (.error .io) → ¬ call.Writes key) :
    m'.Keeps key (observation.acknowledge key row) := by
  obtain ⟨current, doubted⟩ := keeps
  cases step with
  | looked looks replies =>
    rw [Observation.acknowledge, Call.binds_of_looks looks]
    exact ⟨current, doubted⟩
  | @changed rows doubt call reply mutates replies =>
    refine ⟨?_, fun rows none => by cases none⟩
    rw [call.lookup_rowsAfter, current]
    rfl
  | refused replies => exact ⟨current, doubted⟩
  | failed => exact ⟨current, doubted⟩
  | @doubted rows doubt call reply mutates replies =>
    refine ⟨current, fun rows' inDoubt => ?_⟩
    obtain rfl := Option.some.inj inDoubt
    -- the call in doubt is one of another key
    rw [call.lookup_rowsAfter, Call.binds_of_not_writes (certain call rfl)]
    exact current
  | dropped => exact ⟨current, doubted⟩
  | found => exact ⟨current, fun rows none => by cases none⟩
  | resolved => exact ⟨doubted _ rfl, fun rows none => by cases none⟩
  | unopened => exact ⟨current, doubted⟩

theorem durableMap_keeps (key : I64) :
    durableMap.Invariant fun observed m => Certain key observed →
      m.Keeps key (acknowledged key observed) where
  start := by
    rintro m rfl _
    exact ⟨rfl, fun rows none => by cases none⟩
  step := by
    intro observed m observation m' ih step certain
    have before := ih fun call member => certain call (List.mem_append_left _ member)
    rw [acknowledged_snoc]
    exact before.step step fun call same => certain call
      (List.mem_append_right _ (List.mem_singleton.mpr same.symm))

/-- A call of the map that does not fail replies what its rows do. -/
theorem DurableMap.Step.result {m m' : DurableMap} {result : Except Stop Reply}
    (step : m.Step (.call call result) m') :
    result = .error .io ∨ result = call.reply m.rows := by
  cases step with
  | looked looks replies => exact Or.inr replies.symm
  | changed mutates replies => exact Or.inr replies.symm
  | refused replies => exact Or.inr replies.symm
  | failed => exact Or.inl rfl
  | doubted mutates replies => exact Or.inl rfl

/-- What was acknowledged is never lost, and nothing else ever appears: whatever I/O calls fail and
however often the database is dropped and opened again, a call fails with an I/O error, or replies
on rows that bind every key to what was acknowledged last, the keys apart for which a change failed
with an I/O error. -/
theorem acknowledged_writes_kept {result : Except Stop Reply}
    (trace : (sessions env).Trace (observed ++ [.call call result]) session) :
    result = .error .io ∨ ∃ rows : List (I64 × Row), result = call.reply rows ∧
      rows.Pairwise (fun a b => a.1.val < b.1.val) ∧ ∀ key, Certain key observed →
        rows.lookup key = acknowledged key observed := by
  obtain ⟨session₀, before, step⟩ := trace.last
  obtain ⟨m, trace', agrees⟩ := (sessions_simulated env).trace before
  obtain ⟨m', step', -⟩ := agrees.step step
  cases step'.result with
  | inl failed => exact Or.inl failed
  | inr replied =>
    obtain ⟨⟨log, history⟩, shows⟩ := agrees
    obtain ⟨cur, past, lineage, -⟩ := history.reachable.good
    obtain ⟨c, holds, same⟩ := shows.current cur (by rw [lineage]; rfl)
    refine Or.inr ⟨m.rows, replied, ?_,
      fun key certain => ((durableMap_keeps key).trace trace' certain).1⟩
    rw [← same]
    exact holds.sorted

/-- The row that was acknowledged is kept, the one whose insertion failed is of another key. -/
theorem acknowledged_writes_kept_first :
    let one : I64 := ⟨1, by decide, by decide⟩
    let two : I64 := ⟨2, by decide, by decide⟩
    let observed : List Observation :=
      [.call (.insert two ⟨[]⟩) (.error .io), .call (.insert one ⟨[]⟩) (.ok .done), .drop, .opened]
    acknowledged one observed = some ⟨[]⟩ ∧ ∃ rows : List (I64 × Row),
      Except.ok (.binding (some ⟨[]⟩)) = (Call.get one).reply rows ∧ rows.lookup one = some ⟨[]⟩ := by
  intro one two observed
  obtain ⟨session, trace⟩ := sessions_kept .dev (fun _ => 0) one two
  have kept : acknowledged one observed = some ⟨[]⟩ := by decide
  have certain : Certain one observed := by
    intro call member writes
    simp only [observed, List.mem_cons, List.not_mem_nil, or_false, Observation.call.injEq,
      reduceCtorEq, and_true, and_false] at member
    subst member
    exact absurd (show one = two from writes) (by decide)
  cases acknowledged_writes_kept trace with
  | inl failed => cases failed
  | inr replied =>
    obtain ⟨rows, replies, -, bound⟩ := replied
    exact ⟨kept, rows, replies, (bound one certain).trans kept⟩

/-! ## Failed calls -/

/-- What the calls of a sequence return. -/
def replies (env : Env) (fuel : Nat) : List Call → Database → List (Except Stop Reply)
  | [], _ => []
  | call :: calls, s =>
    answerOf (call.run env fuel s) :: replies env fuel calls (final (call.run env fuel s))

/-- The state after a sequence of calls. -/
def afterCalls (env : Env) (fuel : Nat) (calls : List Call) (s : Database) : Database :=
  calls.foldl (fun s call => final (call.run env fuel s)) s

/-- The calls of the sequence are fitting, exhaust no page ids, and meet no I/O failure. -/
def Served (env : Env) (fuel : Nat) : List Call → Database → Prop
  | [], _ => True
  | call :: calls, s => fitting env call fuel s ∧ ¬ Exhausted (final (call.run env fuel s)) ∧
      answerOf (call.run env fuel s) ≠ .error .io ∧ Served env fuel calls (final (call.run env fuel s))

/-- The rows of the database that a call leaves. -/
def Call.effect (rows : List (I64 × Row)) (call : Call) : List (I64 × Row) :=
  match call.reply rows with
  | .ok _ => call.rowsAfter rows
  | .error _ => rows

/-- The database has committed the rows. -/
def BufferPool.Keeps (env : Env) (s : Database) (rows : List (I64 × Row)) : Prop :=
  ∃ cur past half floor c, Settled env cur past half floor s ∧ cur.Holds env c ∧ c.rows = rows

theorem Call.rowsAfter_of_looks (looks : ¬ call.Mutates) (rows : List (I64 × Row)) :
    call.rowsAfter rows = rows := by
  cases call with
  | insert key row => exact absurd trivial looks
  | get key => rfl
  | update key row => exact absurd trivial looks
  | delete key => exact absurd trivial looks
  | scan => rfl

/-- A call that meets no I/O failure replies and changes what the rows tell. -/
theorem BufferPool.Keeps.served {rows : List (I64 × Row)} (keeps : s.Keeps env rows)
    (allowed : fitting env call fuel s) (within : ¬ Exhausted (final (call.run env fuel s)))
    (works : answerOf (call.run env fuel s) ≠ .error .io) :
    answerOf (call.run env fuel s) = call.reply rows ∧
      (final (call.run env fuel s)).Keeps env (call.effect rows) := by
  obtain ⟨cur, past, half, floor, c, settled, holds, rfl⟩ := keeps
  obtain ⟨deep, sized, fits⟩ := allowed
  have outcome :=
    settled.call_outcome holds (settled.shallow holds deep) sized (fits c (settled.contains holds)) within
  have replies := c.answer_eq_reply call
  generalize call.run env fuel s = result at outcome within works
  rw [Call.effect, ← replies]
  cases outcome with
  | io faulted failed => exact absurd rfl works
  | half faulted => exact absurd rfl works
  | refused answer failed =>
    rw [answer]
    exact ⟨rfl, cur, past, half, floor, c, settled.of_failed failed, holds, rfl⟩
  | replied looks answer failed =>
    rw [answer, Call.rowsAfter_of_looks looks]
    exact ⟨rfl, cur, past, half, floor, c, settled.of_failed failed, holds, rfl⟩
  | committed mutates answer next small rows committed holds' =>
    rw [answer]
    exact ⟨rfl, _, _, _, _, _, settled.of_committed committed next small within, holds', rows⟩

/-- A call that returns an error leaves the rows, whatever it did before. -/
theorem BufferPool.Keeps.failed {rows : List (I64 × Row)} {e : Stop} (keeps : s.Keeps env rows)
    (allowed : fitting env call fuel s) (within : ¬ Exhausted s')
    (caught : TornSlotCaught env s.disk s'.disk) (fails : call.run env fuel s = .error e s') :
    s'.Keeps env rows := by
  obtain ⟨cur, past, half, floor, c, settled, holds, rfl⟩ := keeps
  obtain ⟨deep, sized, fits⟩ := allowed
  have inside : ¬ Exhausted (final (call.run env fuel s)) := by
    rw [fails]
    exact within
  have outcome :=
    settled.call_outcome holds (settled.shallow holds deep) sized (fits c (settled.contains holds)) inside
  rw [fails] at outcome
  cases outcome with
  | io faulted failed => exact ⟨cur, past, half, floor, c, settled.of_failed failed, holds, rfl⟩
  | refused answer failed => exact ⟨cur, past, half, floor, c, settled.of_failed failed, holds, rfl⟩
  | half faulted mutates answer next small rows committed holds' =>
    exact ⟨cur, past, _, _, c, settled.of_half committed next small within caught, holds, rfl⟩

/-- Two databases of the same rows reply the same, as long as they meet no I/O failure. -/
theorem BufferPool.Keeps.replies_eq {rows : List (I64 × Row)} {calls : List Call}
    (keeps : s.Keeps env rows) (keeps' : s'.Keeps env rows) (served : Served env fuel calls s)
    (served' : Served env fuel calls s') :
    replies env fuel calls s' = replies env fuel calls s := by
  induction calls generalizing s s' rows with
  | nil => rfl
  | cons call calls ih =>
    obtain ⟨allowed, within, works, rest⟩ := served
    obtain ⟨allowed', within', works', rest'⟩ := served'
    obtain ⟨reply, later⟩ := keeps.served allowed within works
    obtain ⟨reply', later'⟩ := keeps'.served allowed' within' works'
    rw [replies, replies, reply, reply', ih later later' rest rest']

/-- A call that returns an error is invisible: whatever I/O call of it failed, and whatever it had
written before, any later calls of the process return what they would have returned without it, as
long as they meet no I/O failure. -/
theorem failed_calls_invisible {lineage : List Snapshot} {e : Stop} {calls : List Call} {bound : Nat}
    (history : History env (fitting env) ⟨.running s, lineage, half, since⟩ log)
    (allowed : fitting env call fuel s) (within : ¬ Exhausted s')
    (caught : TornSlotCaught env s.disk s'.disk) (fails : call.run env fuel s = .error e s')
    (served : Served env bound calls s) (served' : Served env bound calls s') :
    replies env bound calls s' = replies env bound calls s := by
  obtain ⟨cur, past, rfl, floor, settled⟩ := history.reachable.good
  have filled := history.filled (I := fun _ _ => True) ⟨trivial, fun _ _ _ _ => trivial,
    fun _ _ _ _ _ _ => trivial⟩ fun _ _ _ guard => guard
  obtain ⟨c, holds, -⟩ := filled.lineage cur List.mem_cons_self
  have keeps : s.Keeps env c.rows := ⟨cur, past, half, floor, c, settled, holds, rfl⟩
  exact keeps.replies_eq (keeps.failed allowed within caught fails) served served'

theorem served_empty {calls : List Call} (root : s.pager.rootPageId = emptyTreeRoot)
    (fresh : ¬ Exhausted s) (others : ∀ call ∈ calls, call.Sized ∧ ∀ key row, call ≠ .insert key row) :
    Served env u32Max calls s ∧ replies env u32Max calls s = calls.map (Call.reply []) := by
  induction calls with
  | nil => exact ⟨trivial, rfl⟩
  | cons call calls ih =>
    obtain ⟨sized, other⟩ := others call List.mem_cons_self
    obtain ⟨answer, same⟩ : answerOf (call.run env u32Max s) = _ ∧ _ := run_empty root other
    obtain ⟨served, replied⟩ := ih fun call member => others call (List.mem_cons_of_mem _ member)
    have works : call.reply [] ≠ .error .io := by
      intro fails
      cases call with
      | insert key row => exact other key row rfl
      | get key => cases fails
      | update key row => cases fails
      | delete key => cases fails
      | scan => cases fails
    rw [Served, replies, answer, same, replied]
    exact ⟨⟨⟨Nat.le_refl _, sized, BufferPool.splitsFit_empty root _⟩, fresh, works, served⟩, rfl⟩

/-- The first insertion fails when it writes its page.  It has taken a page id, but what is asked
then gets the replies of the new database. -/
theorem failed_calls_invisible_first_insert :
    let env := Env.failingAt .dev (fun _ => 0) 4
    let one : I64 := ⟨1, by decide, by decide⟩
    let calls : List Call := [.get one, .scan, .delete one]
    ∃ s s', (Call.insert one ⟨[]⟩).run env u32Max s = .error .io s' ∧ s.nextPageId = 2 ∧
      s'.nextPageId = 3 ∧
      replies env u32Max calls s = [.ok (.binding none), .ok (.rows []),
        .error (.permanent (.keyNotFound one))] ∧
      replies env u32Max calls s' = replies env u32Max calls s := by
  intro env one calls
  have encodes : Row.encode ⟨[]⟩ one = .ok [0, 0, 0, 0] := rfl
  obtain ⟨s, s', create, fails, -, next, next'⟩ :=
    first_insert_fails .dev (fun _ => 0) PageSize.default (Nat.le_refl 1) encodes
    (by decide) u32Max
  have root' : s'.pager.rootPageId = emptyTreeRoot := fails.steady.contains.root.symm
  have root : s.pager.rootPageId = emptyTreeRoot := by rw [← fails.pager, root']
  have others : ∀ call ∈ calls, call.Sized ∧ ∀ key row, call ≠ .insert key row := by
    intro call member
    simp only [calls, List.mem_cons, List.not_mem_nil, or_false] at member
    rcases member with rfl | rfl | rfl <;> exact ⟨trivial, fun _ _ same => by cases same⟩
  have history : History env (fitting env) (.created s) [] := .create rfl create
  obtain ⟨-, created⟩ := createWithCapacity_ok create
  obtain ⟨served, replied⟩ : Served env u32Max calls s ∧ _ := served_empty root (created.fresh rfl) others
  obtain ⟨served', -⟩ : Served env u32Max calls s' ∧ _ := served_empty root' fails.steady.fresh others
  have sized := (Call.sized_of_encodes encodes (by decide)).1
  exact ⟨s, s', fails.failed, next, next', replied, failed_calls_invisible history
    ⟨Nat.le_refl _, sized, BufferPool.splitsFit_empty root _⟩ fails.steady.fresh fails.caught
      fails.failed served served'⟩

end Pinax
