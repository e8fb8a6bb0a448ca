import Pinax.Verified.Contents

/-! # Histories

A `History` is a session with the calls that were made.  As long as no leaf is split into halves
that do not fit, every state of the session holds a content, and `CallOutcome` says which one a call
leaves, whatever fails.
-/

namespace Pinax

open Hoare (Ends final)

/-- What is asked of the calls of a history: the call, the bound of its run, and the state it starts
in. -/
abbrev CallGuard := Call → Nat → Database → Prop

/-- The sessions in which the page ids were never exhausted and every torn meta slot was caught,
with the calls that were made. -/
inductive History (env : Env) (guard : CallGuard) : Session → List Call → Prop
  | create {ps : PageSize} {capacity : Nat} {d d' : Disk} {s : Database} (blank : d.trace = [])
      (run : Database.createWithCapacity env ps capacity d = .ok s d') : History env guard (.created s) []
  | call {s : Database} {lineage : List Snapshot} {half : Option File} {since : Nat} {log : List Call}
      (c : Call) (fuel : Nat)
      (before : History env guard ⟨.running s, lineage, half, since⟩ log)
      (within : ¬ Exhausted (final (c.run env fuel s)))
      (caught : TornSlotCaught env s.disk (final (c.run env fuel s)).disk) (allowed : guard c fuel s) :
      History env guard (.called s (final (c.run env fuel s)) lineage half since) (log ++ [c])
  | drop {s : Database} {lineage : List Snapshot} {half : Option File} {since : Nat} {log : List Call}
      (before : History env guard ⟨.running s, lineage, half, since⟩ log) :
      History env guard ⟨.closed s.disk, lineage, half, since⟩ log
  | reopen {d d' : Disk} {s : Database} {lineage : List Snapshot} {half : Option File}
      {since capacity : Nat} {log : List Call}
      (before : History env guard ⟨.closed d, lineage, half, since⟩ log)
      (run : Database.openWithCapacity env capacity d = .ok s d') :
      History env guard (.opened d s lineage half) log
  | refused {d d' : Disk} {e : Stop} {lineage : List Snapshot} {half : Option File}
      {since capacity : Nat} {log : List Call}
      (before : History env guard ⟨.closed d, lineage, half, since⟩ log)
      (run : Database.openWithCapacity env capacity d = .error e d') :
      History env guard ⟨.closed d', lineage, half, since⟩ log

/-- The tree of the database holds the content. -/
def BufferPool.Contains (env : Env) (s : BufferPool) (c : Content) : Prop :=
  c.Planted s.pager.pageSize (s.known env) s.nextPageId s.pager.rootPageId

/-- The call splits no leaf of the database into halves that do not fit their pages. -/
def BufferPool.SplitsFit (env : Env) (s : BufferPool) (call : Call) : Prop :=
  ∀ c, s.Contains env c → c.SplitsFit s.pager.pageSize call

/-- Calls with rows of at most `u32::MAX` bytes that split no leaf into halves that do not fit, and
a bound that no path of a tree exceeds. -/
def fitting (env : Env) : CallGuard :=
  fun call fuel s => u32Max ≤ fuel ∧ call.Sized ∧ s.SplitsFit env call

variable {env : Env} {guard : CallGuard} {s s' : Database} {session : Session} {log : List Call}
  {cur : Snapshot} {past lineage : List Snapshot} {half : Option File} {floor fuel since : Nat}
  {c : Content} {call : Call}

theorem History.reachable (h : History env guard session log) : Reachable env session := by
  induction h with
  | create blank run => exact .create blank run
  | call c fuel _ within caught _ ih => exact .call c fuel ih within caught
  | drop _ ih => exact .drop ih
  | reopen _ run ih => exact .reopen ih run
  | refused _ run ih => exact .refused ih run

/-! ## How deep a tree is -/

/-- A tree has a page at every level. -/
theorem Tree.height_lt {h : Nat} (t : Tree h) : h < t.pages.length := by
  induction h with
  | zero => exact Nat.succ_pos _
  | succ h ih =>
    have child := ih (t.child ⟨0, by decide, by decide⟩)
    have parts := (Tree.flat_perm Tree.pages ⟨0, by decide, by decide⟩ t).length_eq
    show h + 1 < (Inner.id t :: t.node.flat fun c => c.pages).length
    rw [List.length_cons, parts, List.length_append]
    omega

/-- The pages of a tree have different ids. -/
theorem Tree.WellFormed.height_lt {nested : Bool} {ps : PageSize} {v : Pages} {n h : Nat} {t : Tree h}
    (wellFormed : t.WellFormed nested ps v n) : h < n := by
  have inside : t.pages.toFinset ⊆ Finset.range n := fun id member =>
    Finset.mem_range.mpr (wellFormed.range id (List.mem_toFinset.mp member)).2
  have card := Finset.card_le_card inside
  rw [List.toFinset_card_of_nodup wellFormed.distinct, Finset.card_range] at card
  exact Nat.lt_of_lt_of_le t.height_lt card

theorem Content.Planted.height_lt {ps : PageSize} {v : Pages} {n root : Nat}
    (planted : c.Planted ps v n root) (positive : 0 < n) :
    c.height < n := by
  cases c with
  | none => exact positive
  | some t => exact (planted.wellFormed t rfl).height_lt

theorem Content.Planted.root_le {ps : PageSize} {v : Pages} {n root : Nat}
    (planted : c.Planted ps v n root) : root ≤ n := by
  rw [← planted.root]
  cases c with
  | none => exact Nat.zero_le n
  | some t => exact Nat.le_of_lt ((planted.wellFormed t rfl).range _ t.2.id_mem_pages).2

/-! ## The content of a database -/

/-- Without dirty pages, what can be read is in the file. -/
theorem Sound.disk {s : BufferPool} (sound : Sound env s) {id : Nat} {content : Bytes}
    (low : firstDataPageId ≤ id) (clean : id ∉ s.dirty) (found : s.page env id = some content) :
    diskPage env s.pager.pageSize s.disk.file id = some content := by
  cases cached : s.entries.lookup id with
  | none => rwa [page_uncached cached] at found
  | some buf =>
    rw [page_cached cached] at found
    rw [sound.clean id buf low cached clean, found]

theorem Settled.page (settled : Settled env cur past half floor s) {id : Nat} {content : Bytes}
    (low : firstDataPageId ≤ id) (below : id < floor)
    (found : diskPage env s.pager.pageSize s.disk.file id = some content) :
    s.page env id = some content := by
  have clean : id ∉ s.dirty := fun dirty => by
    have := settled.dirty id dirty
    omega
  cases cached : s.entries.lookup id with
  | none => rwa [page_uncached cached]
  | some buf =>
    rw [settled.sound.clean id buf low cached clean] at found
    rw [page_cached cached, found]

/-- The committed content is planted in what can be read of the pages below `floor`. -/
theorem Settled.planted (settled : Settled env cur past half floor s)
    (holds : cur.Holds env c) {v : Pages}
    (known : ∀ id content, firstDataPageId ≤ id → id < floor → s.page env id = some content →
      v id = some content) :
    c.Planted s.pager.pageSize v s.nextPageId s.pager.rootPageId := by
  have below := settled.recorded.below
  have next := settled.next
  have kept := settled.recorded.kept cur List.mem_cons_self
  have root : s.pager.rootPageId = cur.content.rootPageId :=
    congrArg MetaContent.rootPageId settled.content
  rw [root, settled.pageSize]
  refine (holds.kept kept).mono (fun id content low under found => ?_) (by omega)
  refine known id content low (by omega) (settled.page low (by omega) ?_)
  rw [settled.pageSize]
  exact found

theorem Settled.contains (settled : Settled env cur past half floor s) (holds : cur.Holds env c) :
    s.Contains env c :=
  settled.planted holds fun _ _ low _ found => (known_of_low low).trans found

/-! ## Calls -/

/-- How a call ends that starts with the content `c`. -/
inductive CallOutcome (env : Env) (s : Database) (floor : Nat) (c : Content) (call : Call) :
    EStateM.Result Stop BufferPool Reply → Prop
  | io {s' : Database} (faulted : Faulted env (callFrom env s floor) s')
      (failed : Failed env (callFrom env s floor) s') :
      CallOutcome env s floor c call (.error .io s')
  | refused {e : Stop} {s' : Database} (answer : c.answer call = .error e)
      (failed : Failed env (callFrom env s floor) s') :
      CallOutcome env s floor c call (.error e s')
  | replied {reply : Reply} {s' : Database} (looks : ¬ call.Mutates) (answer : c.answer call = .ok reply)
      (failed : Failed env (callFrom env s floor) s') : CallOutcome env s floor c call (.ok reply s')
  | committed {reply : Reply} {n root : Nat} {s' : Database} (mutates : call.Mutates)
      (answer : c.answer call = .ok reply)
      (next : s.nextPageId < n) (small : root < 4294967296)
      (rows : (c.after s.pager.pageSize s.nextPageId call).rows = call.rowsAfter c.rows)
      (committed : Committed env (callFrom env s floor) (callFrom env s floor).base n root s')
      (holds : Snapshot.Holds env ⟨s'.pager.content, s'.disk.file⟩
        (c.after s.pager.pageSize s.nextPageId call)) :
      CallOutcome env s floor c call (.ok reply s')
  | half {reply : Reply} {n root : Nat} {s' : Database}
      (faulted : Faulted env (callFrom env s floor) s') (mutates : call.Mutates)
      (answer : c.answer call = .ok reply) (next : s.nextPageId < n) (small : root < 4294967296)
      (rows : (c.after s.pager.pageSize s.nextPageId call).rows = call.rowsAfter c.rows)
      (committed : HalfCommitted env (callFrom env s floor) (callFrom env s floor).base n root s')
      (holds : Snapshot.Holds env ⟨(s.pager.committed root n).content, s'.disk.file⟩
        (c.after s.pager.pageSize s.nextPageId call)) :
      CallOutcome env s floor c call (.error .io s')

theorem Committed.weaken {o : Origin} {v : Pages} {n root : Nat}
    (committed : Committed env o v n root s) :
    Committed env o o.base n root s :=
  { committed with
    agree := fun id content known => committed.agree id content (committed.keeps id content known)
    keeps := fun _ _ known => known }

theorem HalfCommitted.weaken {o : Origin} {v : Pages} {n root : Nat}
    (committed : HalfCommitted env o v n root s) :
    HalfCommitted env o o.base n root s :=
  { committed with
    agree := fun id content known => committed.agree id content (committed.keeps id content known)
    keeps := fun _ _ known => known }

/-- The transaction id of a recorded state is far from its bound. -/
theorem Settled.fits_txn (settled : Settled env cur past half floor s) : ¬ s.pager.TxnOverflow env := by
  rintro ⟨-, overflow⟩
  have txn : s.pager.txnId = cur.content.txnId := congrArg MetaContent.txnId settled.content
  have := settled.recorded.txnId
  have := settled.recorded.fits.pageCount
  omega

/-- A bound of `u32::MAX` exceeds the height of every tree. -/
theorem Settled.shallow (settled : Settled env cur past half floor s) (holds : cur.Holds env c)
    (deep : u32Max ≤ fuel) :
    c.height < fuel := by
  have two := settled.recorded.two
  have count := settled.recorded.fits.pageCount
  have height := holds.height_lt (Nat.lt_of_lt_of_le (by decide) two)
  simp only [u32Max] at deep
  omega

theorem Settled.call_outcome (settled : Settled env cur past half floor s) (holds : cur.Holds env c)
    (deep : c.height < fuel) (sized : call.Sized) (fits : c.SplitsFit s.pager.pageSize call)
    (within : ¬ Exhausted (final (call.run env fuel s))) :
    CallOutcome env s floor c call (call.run env fuel s) := by
  obtain ⟨n₀, -, during⟩ := settled.start
  obtain rfl : s.nextPageId = n₀ := during.next
  let o := callFrom env s floor
  have planted : c.Planted o.start.pager.pageSize o.base s.nextPageId o.start.pager.rootPageId :=
    settled.planted holds fun _ _ low below found => (if_pos ⟨low, below⟩).trans found
  have two : firstDataPageId ≤ s.nextPageId := Nat.le_trans settled.recorded.two
    (Nat.le_trans settled.recorded.below settled.next)
  by_cases mutates : call.Mutates
  · have ends := planted.changed settled.fresh two deep mutates sized fits s during within
    cases run : call.run env fuel s with
    | ok reply s' =>
      rw [run] at ends within
      obtain ⟨-, v, n, root, -, ⟨answer, next, rows, planted'⟩, committed⟩ := ends
      obtain ⟨flushed, ext, -, -, trace, -, ids⟩ := committed.file
      have count := count_le_of_within within trace ids next
      have low := planted'.root_le
      simp only [u32Max] at count
      -- the commit flushed everything, so the tree is found in the file
      refine .committed mutates answer next (by omega) rows committed.weaken ?_
      have pager : s'.pager = s.pager.committed root n := committed.pager
      have size : s'.pager.pageSize = s.pager.pageSize := by rw [pager]; rfl
      rw [pager]
      refine planted'.mono (fun id content low _ known => ?_) (Nat.le_refl n)
      have found := committed.sound.disk low (by rw [committed.dirty]; exact Finset.notMem_empty id)
        (committed.agree id content known).2
      rw [size] at found
      exact found
    | error e s' =>
      rw [run] at ends within
      cases ends with
      | overflow _ overflows => exact absurd overflows settled.fits_txn
      | io failed =>
        obtain ⟨rfl, faulted, failed⟩ := failed
        exact .io faulted failed
      | @half fails faulted reply v n root grown holds' committed =>
        obtain ⟨answer, next, rows, planted'⟩ := holds'
        obtain ⟨flushed, ext, torn, -, -, trace, -, ids⟩ := committed.file
        have count := count_le_of_within within trace ids next
        have low := planted'.root_le
        simp only [u32Max] at count
        rw [fails]
        -- the slot may hold the new state, whose pages were flushed before it was written
        refine .half faulted mutates answer next (by omega) rows committed.weaken ?_
        have size : s'.pager.pageSize = s.pager.pageSize := congrArg Pager.pageSize committed.pager
        refine planted'.mono (fun id content low _ known => ?_) (Nat.le_refl n)
        have found := committed.sound.disk low (by rw [committed.dirty]; exact Finset.notMem_empty id)
          (committed.agree id content known).2
        rw [size] at found
        exact found
      | error answer grown during' =>
        exact .refused answer ⟨_, during'.weaken during'.keeps fun _ _ known => known⟩
  -- a lookup or a scan changes nothing
  · have ends := planted.looked (E := fun _ => False) deep mutates s during
    cases run : call.run env fuel s with
    | ok reply s' =>
      rw [run] at ends
      exact .replied mutates ends.1 ⟨_, ends.2⟩
    | error e s' =>
      rw [run] at ends
      rcases ends with ⟨rfl, faulted, failed⟩ | none
      · exact .io faulted failed
      · exact none.1.elim

/-! ## The contents of a session -/

/-- Every state of the lineage holds a content with `P`, and so does the one that a failed commit
left in a meta slot. -/
structure Session.Filled (env : Env) (P : Content → Prop) (session : Session) : Prop where
  lineage : ∀ sn ∈ session.lineage, ∃ c, sn.Holds env c ∧ P c
  half : ∀ f slot content, session.half = some f →
    Pager.validSlot env (session.machine.disk.file.slot slot) = some content →
    (∀ cur ∈ session.lineage.head?, content ≠ cur.content) → ∃ c, Snapshot.Holds env ⟨content, f⟩ c ∧ P c

theorem Session.Filled.imp {P Q : Content → Prop} (filled : session.Filled env P)
    (weaker : ∀ c, P c → Q c) : session.Filled env Q where
  lineage := fun sn member => by
    obtain ⟨c, holds, has⟩ := filled.lineage sn member
    exact ⟨c, holds, weaker c has⟩
  half := fun f slot content isHalf valid other => by
    obtain ⟨c, holds, has⟩ := filled.half f slot content isHalf valid other
    exact ⟨c, holds, weaker c has⟩

/-- A property of the calls made so far and the contents, which every call keeps. -/
structure Tracks (env : Env) (guard : CallGuard) (I : List Call → Content → Prop) : Prop where
  empty : I [] none
  skip : ∀ log c call, I log c → I (log ++ [call]) c
  step : ∀ {log : List Call} {c : Content} {call : Call} {reply : Reply} {fuel : Nat} {s : Database},
    s.Contains env c →
    guard call fuel s → I log c → call.Mutates → c.answer call = .ok reply →
    (c.after s.pager.pageSize s.nextPageId call).rows = call.rowsAfter c.rows →
    I (log ++ [call]) (c.after s.pager.pageSize s.nextPageId call)

theorem Created.filled {ps : PageSize} {capacity : Nat} {d : Disk}
    (created : Created env ps capacity d s) {P : Content → Prop} (empty : P none) :
    (Session.created s).Filled env P where
  lineage := fun sn member => by
    rw [List.mem_singleton.mp member]
    refine ⟨none, ⟨?_, fun t none => ?_⟩, empty⟩
    · show emptyTreeRoot = s.pager.rootPageId
      rw [created.pager]
      rfl
    · cases none
  half := fun f slot content isHalf => by cases isHalf

/-- A call that did not commit leaves the contents. -/
theorem Session.Filled.failed {P : Content → Prop}
    (filled : Session.Filled env P ⟨.running s, cur :: past, half, since⟩)
    (failed : Failed env (callFrom env s floor) s') :
    (Session.called s s' (cur :: past) half since).Filled env P := by
  obtain ⟨n, during⟩ := failed
  have pager : s'.pager = s.pager := during.pager
  have slots : ∀ slot, s'.disk.file.slot slot = s.disk.file.slot slot := during.framed.slot
  rw [Session.called, if_pos pager, if_pos (slots _)]
  refine ⟨filled.lineage, fun f slot content isHalf valid other =>
    filled.half f slot content isHalf ?_ other⟩
  show Pager.validSlot env (s.disk.file.slot slot) = some content
  rw [← slots slot]
  exact valid

/-- A commit that failed half-way leaves in the spare slot what was there before or the new state,
if anything valid. -/
theorem Settled.half_valid {n root : Nat} (settled : Settled env cur past half floor s)
    (committed : HalfCommitted env (callFrom env s floor) (callFrom env s floor).base n root s')
    (next : s.nextPageId < n) (small : root < 4294967296) (within : ¬ Exhausted s')
    (caught : TornSlotCaught env s.disk s'.disk) {slot : Fin 2} {content : MetaContent}
    (valid : Pager.validSlot env (s'.disk.file.slot slot) = some content)
    (other : content ≠ cur.content) :
    slot = s.pager.spare ∧ (s'.disk.file.slot slot ≠ s.disk.file.slot slot →
      content = (s.pager.committed root n).content) := by
  have pager : s'.pager = s.pager := committed.pager
  have after := settled.of_half committed next small within caught
  obtain ⟨flushed, ext, torn, -, -, trace, -, ids⟩ := committed.file
  have count := count_le_of_within within trace ids next
  rcases slot_cases s.pager.activeSlot slot with rfl | spare
  · have active := after.recorded.valid
    rw [pager, valid, Option.some.injEq] at active
    exact absurd active other
  have isSpare : slot = s.pager.spare := spare
  subst isSpare
  refine ⟨rfl, fun changed => ?_⟩
  have written := caught s.pager.spare (metaSlot env (s.pager.committed root n).content) (by
    rw [trace]
    show _ ∈ List.drop s.disk.trace.length (s.disk.trace ++ ext ++ _)
    rw [List.append_assoc, List.drop_left]
    exact List.mem_append_right _ (List.mem_cons_of_mem _ List.mem_cons_self))
  rcases written with same | new | invalid
  · exact absurd same changed
  · rw [new, validSlot_metaSlot (committed_fits settled small count), Option.some.injEq] at valid
    exact valid.symm
  · rw [Pager.validSlot, invalid] at valid
    cases valid

/-- A commit that failed half-way leaves the contents and a pending one. -/
theorem Session.Filled.pending {P : Content → Prop} {n root : Nat}
    (settled : Settled env cur past half floor s)
    (filled : Session.Filled env P ⟨.running s, cur :: past, half, since⟩)
    (committed : HalfCommitted env (callFrom env s floor) (callFrom env s floor).base n root s')
    (next : s.nextPageId < n) (small : root < 4294967296) (within : ¬ Exhausted s')
    (caught : TornSlotCaught env s.disk s'.disk)
    (holds : Snapshot.Holds env ⟨(s.pager.committed root n).content, s'.disk.file⟩ c) (has : P c) :
    (Session.called s s' (cur :: past) half since).Filled env P := by
  have pager : s'.pager = s.pager := committed.pager
  rw [Session.called, if_pos pager]
  refine ⟨filled.lineage, fun f slot content isHalf valid other => ?_⟩
  have valid : Pager.validSlot env (s'.disk.file.slot slot) = some content := valid
  obtain ⟨rfl, new⟩ := settled.half_valid committed next small within caught valid (other cur rfl)
  by_cases unchanged : s'.disk.file.slot s.pager.spare = s.disk.file.slot s.pager.spare
  · rw [if_pos unchanged] at isHalf
    rw [unchanged] at valid
    exact filled.half f _ content isHalf valid other
  · rw [if_neg unchanged] at isHalf
    obtain rfl := Option.some.inj isHalf
    rw [new unchanged]
    exact ⟨c, holds, has⟩

/-- `open` that does not find the committed state finds the pending one. -/
theorem Recorded.opened_half {d d' : Disk} {slot : Fin 2} {capacity : Nat}
    (recorded : Recorded env cur past half slot floor d.file) (opened : Opened env d capacity s d')
    (other : cur.content ≠ s.pager.content) :
    ∃ f, half = some f ∧ Pager.validSlot env (d.file.slot s.pager.activeSlot) = some s.pager.content := by
  have spare : s.pager.activeSlot = 1 - slot := by
    rcases slot_cases slot s.pager.activeSlot with active | spare
    · exact absurd (recorded.opened_active opened active).content.symm other
    · exact spare
  obtain ⟨f, isHalf, -⟩ := (recorded.opened_spare opened spare).kept
  exact ⟨f, isHalf, (File.valid_of_chosen opened.chosen).1⟩

/-- The run lemma: every state of a history holds a content. -/
theorem History.filled {I : List Call → Content → Prop} (h : History env guard session log)
    (tracks : Tracks env guard I)
    (guards : ∀ call fuel s, guard call fuel s → fitting env call fuel s) :
    session.Filled env (I log) := by
  induction h with
  | create blank run =>
    obtain ⟨-, created⟩ := createWithCapacity_ok run
    exact created.filled tracks.empty
  | @call s lineage half since log call fuel before within caught allowed ih =>
    obtain ⟨cur, past, rfl, floor, settled⟩ := before.reachable.good
    obtain ⟨c, holds, has⟩ := ih.lineage cur List.mem_cons_self
    obtain ⟨deep, sized, fits⟩ := guards _ _ _ allowed
    have contains := settled.contains holds
    -- unless the call changes the rows, what held of them holds with the call in the log
    have later : Session.Filled env (I (log ++ [call])) ⟨.running s, cur :: past, half, since⟩ :=
      ih.imp fun c => tracks.skip log c call
    have outcome := settled.call_outcome holds (settled.shallow holds deep) sized (fits c contains) within
    generalize call.run env fuel s = result at outcome within caught
    cases outcome with
    | io faulted failed => exact later.failed failed
    | refused answer failed => exact later.failed failed
    | replied looks answer failed => exact later.failed failed
    | half faulted mutates answer next small rows committed holds' =>
      exact later.pending settled committed next small within caught holds'
        (tracks.step contains allowed has mutates answer rows)
    | @committed reply n root s' mutates answer next small rows committed holds' =>
      have changed := settled.pager_ne committed.pager
      show (Session.called s s' (cur :: past) half since).Filled env _
      rw [Session.called, if_neg changed]
      refine ⟨fun sn member => ?_, fun f slot content isHalf => by cases isHalf⟩
      rcases List.mem_cons.mp member with rfl | older
      · exact ⟨_, holds', tracks.step contains allowed has mutates answer rows⟩
      · exact later.lineage sn older
  | drop _ ih => exact ⟨ih.lineage, ih.half⟩
  | @reopen d d' s lineage half since capacity log before run ih =>
    obtain ⟨cur, past, rfl, present, slot, floor, recorded⟩ := before.reachable.good
    have opened := openWithCapacity_ok run
    rw [Session.opened]
    by_cases same : (cur :: past).head?.map Snapshot.content = some s.pager.content
    · rw [if_pos same]
      exact ⟨ih.lineage, fun f slot content isHalf => by cases isHalf⟩
    · rw [if_neg same]
      refine ⟨fun sn member => ?_, fun f slot content isHalf => by cases isHalf⟩
      rcases List.mem_cons.mp member with rfl | older
      -- the opening took the state of the half commit, which held the rows of its call
      · have other : cur.content ≠ s.pager.content := fun equal => same (congrArg some equal)
        obtain ⟨f, isHalf, valid⟩ := recorded.opened_half opened other
        have isHalf : half = some f := isHalf
        rw [isHalf, Option.getD_some]
        refine ih.half f _ _ isHalf valid fun cur' head equal => ?_
        cases head
        exact other equal.symm
      · exact ih.lineage sn older
  | refused _ run ih =>
    obtain ⟨n, rfl⟩ := openWithCapacity_error run
    exact ⟨ih.lineage, ih.half⟩

end Pinax
