import Pinax.Verified.Crash

/-! # Losing a meta slot

Two slots are written in turn, so that the spare slot holds the state before the last change.  When a
slot no longer verifies, `open` takes the other one, and the next change writes the damaged slot first.
-/

namespace Pinax

open Hoare (final)

variable (env : Env)

/-- `g` is `f` with the bytes of `slot` replaced by some that do not verify. -/
structure Damaged (slot : Fin 2) (f g : File) : Prop where
  len : g.len = f.len
  same : ∀ i, i < Pager.slotOffset slot ∨ Pager.slotOffset slot + metaSlotLen ≤ i → g.byte i = f.byte i
  broken : verifies env (g.slot slot) = false

/-- A database all of whose operations succeeded and that lost a meta slot now and then, with the states
it descends from and the number of changes since it was created or damaged.  A state whose slot was lost
is no longer descended from. -/
inductive Weathered : Machine → List Snapshot → Nat → Prop
  | create {ps : PageSize} {capacity : Nat} {d d' : Disk} {s : Database} (blank : d.trace = [])
      (run : Database.createWithCapacity env ps capacity d = .ok s d') :
      Weathered (.running s) [⟨s.pager.content, s.disk.file⟩] 0
  | read {s s' : Database} {lineage : List Snapshot} {m : Nat} {c : Call} {fuel : Nat} {reply : Reply}
      (before : Weathered (.running s) lineage m) (reads : ¬ c.Mutates)
      (run : c.run env fuel s = .ok reply s') (within : ¬ Exhausted s') :
      Weathered (.running s') lineage m
  | mutate {s s' : Database} {lineage : List Snapshot} {m : Nat} {c : Call} {fuel : Nat} {reply : Reply}
      (before : Weathered (.running s) lineage m) (mutates : c.Mutates)
      (run : c.run env fuel s = .ok reply s') (within : ¬ Exhausted s') :
      Weathered (.running s') (⟨s'.pager.content, s'.disk.file⟩ :: lineage) (m + 1)
  | drop {s : Database} {lineage : List Snapshot} {m : Nat} (before : Weathered (.running s) lineage m) :
      Weathered (.closed s.disk) lineage m
  | reopen {d d' : Disk} {s : Database} {lineage : List Snapshot} {m capacity : Nat}
      (before : Weathered (.closed d) lineage m)
      (run : Database.openWithCapacity env capacity d = .ok s d') : Weathered (.running s) lineage m
  | damage {d : Disk} {lineage : List Snapshot} {m : Nat} {active slot : Fin 2} {content : MetaContent}
      {file : File} (before : Weathered (.closed d) lineage (m + 1))
      (chosen : d.file.chosen env = some (active, content)) (damaged : Damaged env slot d.file file) :
      Weathered (.closed { d with file }) (if slot = active then lineage.tail else lineage) 0

/-- The spare slot holds the state before the last change. -/
structure Twin (cur : Snapshot) (past : List Snapshot) (slot : Fin 2) (file : File) (prev : Snapshot)
    (rest : List Snapshot) : Prop where
  past : past = prev :: rest
  slot : file.slot (1 - slot) = metaSlot env prev.content
  fits : prev.content.Fits
  two : firstDataPageId ≤ prev.content.pageCount
  count : prev.content.txnId + 2 ≤ prev.content.pageCount
  txnId : cur.content.txnId = prev.content.txnId + 1

variable {env} {s s' : Database} {cur : Snapshot} {past : List Snapshot} {floor : Nat} {slot : Fin 2}
  {file : File}

/-- After a change both slots hold the last two states. -/
theorem Settled.twin (h : Settled env cur past none floor s) {n root : Nat}
    (committed : Committed env (callFrom env s floor) (callFrom env s floor).base n root s') :
    Twin env ⟨s'.pager.content, s'.disk.file⟩
      (cur :: past) s'.pager.activeSlot s'.disk.file cur past := by
  obtain ⟨flushed, ext, framed, file, -⟩ := committed.file
  have spare : s'.pager.activeSlot = 1 - s.pager.activeSlot := by rw [committed.pager]; rfl
  have sized : (metaSlot env s'.pager.content).length = metaSlotLen := length_metaSlot _
  obtain ⟨-, active, -⟩ := h.recorded.kept_store sized (h.pageSize ▸ framed) (fun id may => may.2) file
  refine ⟨rfl, ?_, h.recorded.fits, h.recorded.two, h.recorded.txnId, ?_⟩
  · rw [spare, one_sub_one_sub, active]
    exact h.recorded.active
  · show s'.pager.content.txnId = _
    rw [committed.pager]
    show (s.pager.committed root n).content.txnId = _
    rw [h.committed_content]

theorem Twin.slots {file' : File} {prev : Snapshot} {rest : List Snapshot}
    (h : Twin env cur past slot file prev rest) (same : file'.slot (1 - slot) = file.slot (1 - slot)) :
    Twin env cur past slot file' prev rest := { h with slot := same.trans h.slot }

/-- Damage leaves the data pages alone. -/
theorem Damaged.sameBelow {ps : PageSize} {count : Nat} {f g : File} (h : Damaged env slot f g) :
    SameBelow ps count f g :=
  ⟨Nat.le_of_eq h.len.symm, fun i low _ => h.same i (Or.inr (Nat.le_trans (slotOffset_bound slot) low))⟩

theorem Damaged.other {f g : File} (h : Damaged env slot f g) :
    g.slot (1 - slot) = f.slot (1 - slot) := by
  have apart := slotOffset_apart slot
  unfold File.slot
  exact File.read_congr fun i inside => h.same _ (by omega)

theorem Damaged.invalid {f g : File} (h : Damaged env slot f g) :
    Pager.validSlot env (g.slot slot) = none := by
  rw [Pager.validSlot, h.broken]
  rfl

/-- Losing the spare slot loses nothing. -/
theorem Recorded.spare_damaged {f g : File} (h : Recorded env cur past none slot floor f)
    (damaged : Damaged env (1 - slot) f g) : Recorded env cur past none slot floor g :=
  { h with
    len := by rw [damaged.len]; exact h.len
    active := by
      have other := damaged.other
      rw [one_sub_one_sub] at other
      rw [other]
      exact h.active
    kept := fun sn member => (h.kept sn member).trans damaged.sameBelow
    spare := fun content valid => absurd (damaged.invalid.symm.trans valid) nofun }

/-- Losing the active slot falls back to the state before the last change. -/
theorem Recorded.active_damaged {f g : File} {prev : Snapshot} {rest : List Snapshot}
    (h : Recorded env cur past none slot floor f) (twin : Twin env cur past slot f prev rest)
    (damaged : Damaged env slot f g) :
    Recorded env prev rest none (1 - slot) prev.content.pageCount g where
  len := by rw [damaged.len]; exact h.len
  active := damaged.other.trans twin.slot
  fits := twin.fits
  two := twin.two
  txnId := twin.count
  below := Nat.le_refl _
  kept := fun sn member => (h.kept sn (by rw [twin.past]; exact List.mem_cons_of_mem _ member)).trans
    damaged.sameBelow
  pageSize := fun sn member => by
    have older := h.pageSize sn (by rw [twin.past]; exact List.mem_cons_of_mem _ member)
    have newer := h.pageSize prev (by rw [twin.past]; exact List.mem_cons_self)
    rw [older, newer]
  ordered := by
    have ordered := h.ordered
    rw [twin.past] at ordered
    exact (List.pairwise_cons.mp ordered).2
  spare := fun content valid => by
    rw [one_sub_one_sub] at valid
    cases damaged.invalid.symm.trans valid

/-- The invariant of the databases that lose a slot now and then. -/
theorem Weathered.twins {machine : Machine} {lineage : List Snapshot} {m : Nat}
    (h : Weathered env machine lineage m) :
    ∃ cur past floor, lineage = cur :: past ∧
      match machine with
      | .running s => Settled env cur past none floor s ∧
          (1 ≤ m → ∃ prev rest, Twin env cur past s.pager.activeSlot s.disk.file prev rest)
      | .closed d => ∃ slot, d.present = true ∧ Recorded env cur past none slot floor d.file ∧
          (1 ≤ m → ∃ prev rest, Twin env cur past slot d.file prev rest) := by
  induction h with
  | create blank run =>
    obtain ⟨-, created⟩ := createWithCapacity_ok run
    exact ⟨_, [], firstDataPageId, rfl, Settled.of_created created, fun some => absurd some (by omega)⟩
  | read _ reads run within ih =>
    obtain ⟨cur, past, floor, rfl, settled, twins⟩ := ih
    obtain ⟨n, during⟩ := settled.read_ok reads run within
    refine ⟨cur, past, floor, rfl, settled.of_failed ⟨n, during⟩, fun some => ?_⟩
    obtain ⟨prev, rest, twin⟩ := twins some
    have pager := during.pager
    rw [pager]
    exact ⟨prev, rest, twin.slots (during.framed.slot _)⟩
  -- the change leaves the state before it in the other slot
  | mutate _ mutates run within ih =>
    obtain ⟨cur, past, floor, rfl, settled, -⟩ := ih
    obtain ⟨n, root, grown, small, -, committed⟩ := settled.mutate_ok mutates run within
    exact ⟨_, _, n, rfl, settled.of_committed committed grown small within,
      fun _ => ⟨cur, past, settled.twin committed⟩⟩
  | drop _ ih =>
    obtain ⟨cur, past, floor, same, settled, twins⟩ := ih
    exact ⟨cur, past, floor, same, _, settled.present, settled.recorded, twins⟩
  | reopen _ run ih =>
    obtain ⟨cur, past, floor, same, slot, present, recorded, twins⟩ := ih
    have opened := openWithCapacity_ok run
    have active := recorded.activeSlot opened
    refine ⟨cur, past, _, same, recorded.opened_active opened active, fun some => ?_⟩
    obtain ⟨n, idle⟩ := opened.idle
    rw [active, opened.disk, idle]
    exact twins some
  | @damage d lineage m active lost content file _ chosen damaged ih =>
    obtain ⟨cur, past, floor, rfl, slot, present, recorded, twins⟩ := ih
    obtain ⟨prev, rest, twin⟩ := twins (Nat.succ_le_succ (Nat.zero_le _))
    rw [recorded.chosen, Option.some.injEq, Prod.mk.injEq] at chosen
    obtain ⟨rfl, -⟩ := chosen
    -- the active slot is lost, and its twin is all there is; or the twin is lost
    by_cases lostActive : lost = slot
    · subst lostActive
      rw [if_pos rfl, List.tail_cons, twin.past]
      exact ⟨prev, rest, _, rfl, 1 - lost, present, recorded.active_damaged twin damaged,
        fun some => absurd some (by omega)⟩
    · rw [if_neg lostActive]
      obtain rfl : lost = 1 - slot := (slot_cases slot lost).resolve_left lostActive
      exact ⟨cur, past, floor, rfl, slot, present, recorded.spare_damaged damaged,
        fun some => absurd some (by omega)⟩

/-- The two meta slots hold the last two states. -/
structure HoldsLastTwo (env : Env) (file : File) (active : Fin 2) (cur prev : Snapshot) : Prop where
  newest : file.slot active = metaSlot env cur.content
  other : file.slot (1 - active) = metaSlot env prev.content
  txnId : cur.content.txnId = prev.content.txnId + 1

theorem HoldsLastTwo.active_eq {active : Fin 2} {prev : Snapshot}
    (h : HoldsLastTwo env file active cur prev)
    (recorded : Recorded env cur past none slot floor file) : active = slot := by
  refine (slot_cases slot active).resolve_right fun other => ?_
  have valid : Pager.validSlot env (file.slot (1 - slot)) = some cur.content := by
    rw [← other, h.newest]
    exact validSlot_metaSlot recorded.fits
  exact absurd (recorded.older valid) (Nat.lt_irrefl _)

/-- `open` returns the state `state`, all of it, in slot `slot`. -/
structure FallsBack (env : Env) (d : Disk) (slot : Fin 2) (state : Snapshot) : Prop where
  opens : ∃ d', Pager.openFile env d = .ok (state.content.pager slot) d'
  pages : ∀ id, firstDataPageId ≤ id → id < state.content.pageCount →
    d.file.read (Pager.fileOffset state.content.pageSize id) state.content.pageSize.bytes =
      state.file.read (Pager.fileOffset state.content.pageSize id) state.content.pageSize.bytes

/-- A change writes pages the committed state does not have, and the spare slot. -/
def ChangeEvent (s : Database) : Event → Prop
  | .pageWrite id count => count = s.pager.pageCount ∧ s.pager.pageCount ≤ id
  | .write off data =>
    (∃ id, s.pager.pageCount ≤ id ∧ off = Pager.fileOffset s.pager.pageSize id ∧
      data.length = s.pager.pageSize.bytes) ∨ off = Pager.slotOffset s.pager.spare
  | _ => True

theorem Recorded.fallsBack {d : Disk} (h : Recorded env cur past none slot floor d.file)
    (present : d.present = true) (works : ∀ k, d.clock ≤ k → env.fault k = none) :
    FallsBack env d slot cur :=
  ⟨h.openFile works present, fun _ low lt => (h.kept cur List.mem_cons_self).read low lt⟩

theorem Settled.change_events (h : Settled env cur past none floor s) {c : Call}
    {fuel : Nat} {reply : Reply} (run : c.run env fuel s = .ok reply s') (within : ¬ Exhausted s') :
    ∃ ext, s'.disk.trace = s.disk.trace ++ ext ∧ ∀ e ∈ ext, ChangeEvent s e := by
  have count : s.pager.pageCount = cur.content.pageCount := congrArg MetaContent.pageCount h.content
  have below := h.recorded.below
  have events := h.call_trace c fuel (by rw [run]; exact within)
  rw [run] at events
  obtain ⟨ext, trace, events, -⟩ := events
  refine ⟨ext, trace, fun e member => ?_⟩
  have event := events e member
  cases e with
  | alloc id => trivial
  | pageWrite id pages => exact ⟨event.2.2, by have := event.2.1; omega⟩
  | write off data =>
    rcases event with ⟨id, -, high, at', len⟩ | ⟨at', -⟩
    · exact Or.inl ⟨id, by omega, at', len⟩
    · exact Or.inr at'
  | sync file => trivial

/-- After at least one change, losing either slot loses at most that change: `open` returns the last
state, or the one before it if the active slot was lost.  Every later change writes the slot that is
spare then, which after a loss is the lost one, and the two slots hold the last two states again. -/
theorem lost_slot_loses_at_most_one_change (env : Env) :
    (∀ d lineage m, Weathered env (.closed d) lineage (m + 1) → (∀ k, d.clock ≤ k → env.fault k = none) →
      ∃ cur prev rest active, lineage = cur :: prev :: rest ∧ HoldsLastTwo env d.file active cur prev ∧
        ∀ lost file, Damaged env lost d.file file →
          FallsBack env { d with file } (1 - lost) (if lost = active then prev else cur)) ∧
    (∀ s lineage m, Weathered env (.running s) lineage m → ∀ c fuel reply s', Call.Mutates c →
      c.run env fuel s = .ok reply s' → ¬ Exhausted s' →
      ∃ cur past ext, lineage = cur :: past ∧ s'.pager.activeSlot = s.pager.spare ∧
        HoldsLastTwo env s'.disk.file s'.pager.activeSlot ⟨s'.pager.content, s'.disk.file⟩ cur ∧
        s'.disk.trace = s.disk.trace ++ ext ∧ ∀ e ∈ ext, ChangeEvent s e) := by
  refine ⟨fun d lineage m weathered works => ?_,
    fun s lineage m weathered c fuel reply s' mutates run within => ?_⟩
  · obtain ⟨cur, past, floor, rfl, slot, present, recorded, twins⟩ := weathered.twins
    obtain ⟨prev, rest, twin⟩ := twins (Nat.succ_le_succ (Nat.zero_le _))
    refine ⟨cur, prev, rest, slot, by rw [twin.past], ⟨recorded.active, twin.slot, twin.txnId⟩, ?_⟩
    intro lost file damaged
    by_cases lostActive : lost = slot
    · subst lostActive
      rw [if_pos rfl]
      exact Recorded.fallsBack (d := { d with file }) (recorded.active_damaged twin damaged) present works
    · rw [if_neg lostActive]
      obtain rfl : lost = 1 - slot := (slot_cases slot lost).resolve_left lostActive
      rw [one_sub_one_sub]
      exact Recorded.fallsBack (d := { d with file }) (recorded.spare_damaged damaged) present works
  · obtain ⟨cur, past, floor, rfl, settled, -⟩ := weathered.twins
    obtain ⟨n, root, grown, small, -, committed⟩ := settled.mutate_ok mutates run within
    obtain ⟨ext, trace, events⟩ := settled.change_events run within
    have next := settled.of_committed committed grown small within
    have twin := settled.twin committed
    exact ⟨cur, past, ext, rfl, by rw [committed.pager]; rfl,
      ⟨next.recorded.active, twin.slot, twin.txnId⟩, trace, events⟩

/-- A slot full of sevens does not verify where every checksum is 0. -/
theorem damaged_of_sevens {profile : Profile} (slot : Fin 2) (long : metaRegionLen ≤ file.len) :
    Damaged (Env.faultless profile fun _ => 0) slot file
      (file.write (Pager.slotOffset slot) (List.replicate metaSlotLen 7)) where
  len := by
    have bound := slotOffset_bound slot
    rw [File.len_write (by rw [List.length_replicate]; decide), List.length_replicate]
    exact Nat.max_eq_left (Nat.le_trans bound long)
  same := fun i outside => File.byte_store_outside (by rwa [List.length_replicate])
  broken := by
    have stored : storedChecksum (List.replicate metaSlotLen 7) = 506381209866536711 := by
      refine storedChecksum_of_slice List.length_replicate ?_ (by decide)
      rw [slice, List.drop_replicate, List.take_replicate]
      decide
    rw [slot_write_same List.length_replicate, verifies, stored]
    rfl

/-- Two rows are inserted and the active slot is lost, and with it the second row.  A third row is
inserted then, which writes the lost slot, and the two slots hold the last two states again. -/
theorem lost_slot_loses_at_most_one_change_two_rows :
    let env := Env.faultless .dev fun _ => 0
    let one : I64 := ⟨1, by decide, by decide⟩
    let two : I64 := ⟨2, by decide, by decide⟩
    let three : I64 := ⟨3, by decide, by decide⟩
    ∃ s₀ s₁ s₂ file s₃ d s₄, Database.createWithCapacity env PageSize.default 1
      ⟨false, File.empty, 0, []⟩ = .ok s₀ s₀.disk ∧
      (Call.insert one ⟨[]⟩).run env u32Max s₀ = .ok .done s₁ ∧
        (Call.insert two ⟨[]⟩).run env u32Max s₁ = .ok .done s₂ ∧
      Damaged env s₂.pager.activeSlot s₂.disk.file file ∧
      FallsBack env { s₂.disk with file } (1 - s₂.pager.activeSlot) ⟨s₁.pager.content, s₁.disk.file⟩ ∧
      Database.openWithCapacity env 1 { s₂.disk with file } = .ok s₃ d ∧
        s₃.pager.spare = s₂.pager.activeSlot ∧
      (Call.insert three ⟨[]⟩).run env u32Max s₃ = .ok .done s₄ ∧ s₄.pager.activeSlot = s₃.pager.spare ∧
      HoldsLastTwo env s₄.disk.file s₄.pager.activeSlot ⟨s₄.pager.content, s₄.disk.file⟩
        ⟨s₁.pager.content, s₁.disk.file⟩ ∧
      answerOf (Call.scan.run env u32Max s₄) = .ok (.rows [(one, ⟨[]⟩), (three, ⟨[]⟩)]) := by
  intro env one two three
  have encodes : ∀ key, Row.encode ⟨[]⟩ key = .ok [0, 0, 0, 0] := fun _ => rfl
  have brief : List.length ([0, 0, 0, 0] : Bytes) ≤ 24 := by decide
  obtain ⟨s₀, create, steady₀, next₀⟩ : ∃ s, _ ∧ Steady env PageSize.default _ s none ∧ _ :=
    Steady.created (fun _ => rfl) (Nat.le_refl 1)
  obtain ⟨s₁, step₁, short₁, next₁⟩ :=
    steady₀.first_short (Nat.le_refl _) (encodes one) brief (by rw [next₀]; decide)
  have rows₁ := step₁.rows
  rw [next₀] at next₁
  obtain ⟨s₂, step₂, -, next₂⟩ :=
    step₁.steady.insert_short short₁ (by decide) (Nat.le_refl _) (encodes two) brief
      (by rw [rows₁]; decide)
    (Nat.le_trans (Nat.add_le_add_right next₁ 3) (by decide))
  have weathered₂ : Weathered env (.running s₂) _ 2 :=
    .mutate (.mutate (.create rfl create)
      (show Call.Mutates (.insert _ _) from trivial) step₁.run step₁.steady.fresh)
      (show Call.Mutates (.insert _ _) from trivial) step₂.run step₂.steady.fresh
  obtain ⟨cur, past, floor, same, settled₂, twins⟩ := weathered₂.twins
  obtain ⟨rfl, rfl⟩ := List.cons.inj same
  obtain ⟨prev, rest, twin⟩ := twins (by decide)
  obtain ⟨rfl, rfl⟩ := List.cons.inj twin.past
  -- the active slot is lost
  let file := s₂.disk.file.write (Pager.slotOffset s₂.pager.activeSlot) (List.replicate metaSlotLen 7)
  have damaged : Damaged env s₂.pager.activeSlot s₂.disk.file file :=
    damaged_of_sevens _ settled₂.recorded.len
  have closed₂ := weathered₂.drop
  obtain ⟨_, _, _, active, lineage, newest, falls⟩ :=
    (lost_slot_loses_at_most_one_change env).1 _ _ 1 closed₂ step₂.steady.works
  obtain ⟨rfl, rest⟩ := List.cons.inj lineage
  obtain ⟨rfl, -⟩ := List.cons.inj rest
  obtain rfl := newest.active_eq settled₂.recorded
  have back := falls _ _ damaged
  rw [if_pos rfl] at back
  -- what is left is a database with the first row
  have recorded := settled₂.recorded.active_damaged twin damaged
  clear_value file
  obtain ⟨s₃, d, opened, steady₃, pager₃, next₃⟩ :=
    Recorded.reopens (d := { s₂.disk with file }) recorded step₁.steady.holds settled₂.present
    step₂.steady.works step₂.steady.fresh (Nat.le_refl 1)
  have spare₃ : s₃.pager.spare = s₂.pager.activeSlot := by
    rw [pager₃]
    exact one_sub_one_sub _
  have size₁ : s₁.pager.content.pageSize = PageSize.default := step₁.steady.size
  rw [size₁] at steady₃
  have few : s₃.nextPageId ≤ 5 := (Nat.le_of_eq next₃).trans (step₁.steady.count_le.trans next₁)
  obtain ⟨s₄, step₄, -, -⟩ :=
    steady₃.insert_short short₁ (by decide) (Nat.le_refl _) (encodes three) brief (by rw [rows₁]; decide)
    (Nat.le_trans (Nat.add_le_add_right few 3) (by decide))
  have rows₄ := step₄.rows
  rw [rows₁] at rows₄
  have weathered₃ : Weathered env (.running s₃) _ 0 :=
    (closed₂.damage settled₂.recorded.chosen damaged).reopen opened
  rw [if_pos rfl, List.tail_cons] at weathered₃
  obtain ⟨_, _, _, lineage₃, turned, last, -, -⟩ :=
    (lost_slot_loses_at_most_one_change env).2 _ _ 0 weathered₃ _ _ _ _
    (show Call.Mutates (.insert _ _) from trivial) step₄.run step₄.steady.fresh
  obtain ⟨rfl, -⟩ := List.cons.inj lineage₃
  obtain ⟨s₅, scan, -⟩ : ∃ s, Stays env _ _ s₄ _ .scan u32Max _ s ∧ _ :=
    step₄.steady.looked (Nat.le_refl _) id
  have found := scan.answered
  rw [Content.answer, rows₄] at found
  exact ⟨s₀, s₁, s₂, file, s₃, d, s₄, create, step₁.run, step₂.run, damaged, back, opened, spare₃,
    step₄.run, turned, last, found⟩

end Pinax
