import Pinax.Database
import Pinax.Verified.Commit

/-! # Opening a file

`open` reads the two meta slots and nothing else, and takes the valid one with the larger
transaction id.
-/

namespace Pinax

variable {env : Env}

/-- The pager over the file's slot `slot`, whose content is `content`. -/
def MetaContent.pager (content : MetaContent) (slot : Fin 2) : Pager where
  pageSize := content.pageSize
  activeSlot := slot
  txnId := content.txnId
  rootPageId := content.rootPageId
  pageCount := content.pageCount

/-- The slot `open` would take. -/
def File.chosen (env : Env) (file : File) : Option (Fin 2 × MetaContent) :=
  Pager.chooseSlot (Pager.validSlot env (file.slot 0)) (Pager.validSlot env (file.slot 1))

/-! ## Which slot is taken -/

/-- The slot with `content` is taken over one that is invalid or older. -/
theorem File.chosen_of_newest {file : File} {slot : Fin 2} {content : MetaContent}
    (valid : Pager.validSlot env (file.slot slot) = some content)
    (older : ∀ other, Pager.validSlot env (file.slot (1 - slot)) = some other →
      other.txnId < content.txnId) :
    file.chosen env = some (slot, content) := by
  unfold File.chosen
  match slot with
  | 0 =>
    rw [valid]
    cases spare : Pager.validSlot env (file.slot 1) with
    | none => simp only [Pager.chooseSlot]
    | some other =>
      have := older other spare
      simp only [Pager.chooseSlot]
      rw [if_neg (by omega)]
  | 1 =>
    rw [valid]
    cases spare : Pager.validSlot env (file.slot 0) with
    | none => simp only [Pager.chooseSlot]
    | some other =>
      have := older other spare
      simp only [Pager.chooseSlot]
      rw [if_pos (by omega)]

/-- The slot that is taken is valid, and no valid slot is newer. -/
theorem File.valid_of_chosen {file : File} {slot : Fin 2} {content : MetaContent}
    (chosen : file.chosen env = some (slot, content)) :
    Pager.validSlot env (file.slot slot) = some content ∧
      ∀ other, Pager.validSlot env (file.slot (1 - slot)) = some other → other.txnId ≤ content.txnId := by
  unfold File.chosen at chosen
  cases first : Pager.validSlot env (file.slot 0) with
  | none =>
    cases second : Pager.validSlot env (file.slot 1) with
    | none =>
      rw [first, second] at chosen
      cases chosen
    | some b =>
      rw [first, second] at chosen
      simp only [Pager.chooseSlot, Option.some.injEq, Prod.mk.injEq] at chosen
      obtain ⟨rfl, rfl⟩ := chosen
      exact ⟨second, fun other found => by cases first.symm.trans found⟩
  | some a =>
    cases second : Pager.validSlot env (file.slot 1) with
    | none =>
      rw [first, second] at chosen
      simp only [Pager.chooseSlot, Option.some.injEq, Prod.mk.injEq] at chosen
      obtain ⟨rfl, rfl⟩ := chosen
      exact ⟨first, fun other found => by cases second.symm.trans found⟩
    | some b =>
      rw [first, second] at chosen
      simp only [Pager.chooseSlot] at chosen
      -- the newer slot is chosen, the first one when they are equal
      by_cases newer : b.txnId > a.txnId
      · rw [if_pos newer] at chosen
        simp only [Option.some.injEq, Prod.mk.injEq] at chosen
        obtain ⟨rfl, rfl⟩ := chosen
        refine ⟨second, fun other found => ?_⟩
        obtain rfl := Option.some.inj (first.symm.trans found)
        omega
      · rw [if_neg newer] at chosen
        simp only [Option.some.injEq, Prod.mk.injEq] at chosen
        obtain ⟨rfl, rfl⟩ := chosen
        refine ⟨first, fun other found => ?_⟩
        obtain rfl := Option.some.inj (second.symm.trans found)
        omega

/-! ## `Pager::open` -/

/-- The disk after `n` calls that changed nothing. -/
def Disk.ticked (d : Disk) (n : Nat) : Disk := { d with clock := d.clock + n }

/-- A read inside the file fails with its I/O call only. -/
theorem readExactAt_inside (env : Env) {off n : Nat} {d : Disk} (inside : off + n ≤ d.file.len) :
    readExactAt env off n d = .ok (d.file.read off n) d.tick ∨
    ((env.fault d.clock).isSome = true ∧ readExactAt env off n d = .error Stop.io d.tick) := by
  rw [readExactAt_apply]
  by_cases fails : (env.fault d.clock).isSome = true
  · rw [if_pos (Or.inl fails)]
    exact Or.inr ⟨fails, rfl⟩
  · rw [if_neg (not_or.mpr ⟨fails, by omega⟩)]
    exact Or.inl rfl

/-- `open` leaves the file alone, and what it returns is the chosen slot. -/
theorem openFile_cases (env : Env) (d : Disk) :
    (∃ slot content n, Pager.openFile env d = .ok (content.pager slot) (d.ticked n) ∧ d.present = true ∧
      metaRegionLen ≤ d.file.len ∧ d.file.chosen env = some (slot, content)) ∨
    (∃ e n, Pager.openFile env d = .error e (d.ticked n) ∧
      ((∃ k, d.clock ≤ k ∧ (env.fault k).isSome = true) ∨ d.present = false ∨ d.file.len < metaRegionLen ∨
        d.file.chosen env = none)) := by
  rw [Pager.openFile, ioCall_bind, Hoare.get_bind, Disk.tick_present]
  -- the file is opened, its length asked for, and the two slots are read; each may fail
  by_cases refused : (env.fault d.clock).isSome = true ∨ d.present = false
  · refine Or.inr ⟨Stop.io, 1, ?_, ?_⟩
    · rw [if_pos refused]; rfl
    · rcases refused with fails | absent
      · exact Or.inl ⟨_, Nat.le_refl _, fails⟩
      · exact Or.inr (Or.inl absent)
  · rw [if_neg refused]
    obtain ⟨-, present⟩ := not_or.mp refused
    rw [ioCall_bind]
    by_cases fails : (env.fault (d.clock + 1)).isSome = true
    · refine Or.inr ⟨Stop.io, 2, ?_, Or.inl ⟨_, Nat.le_succ _, fails⟩⟩
      rw [Disk.tick_clock, if_pos fails]; rfl
    · rw [Disk.tick_clock, if_neg fails, Hoare.get_bind]
      by_cases short : d.file.len < metaRegionLen
      · refine Or.inr ⟨.fatal (.fileTooSmall d.file.len metaRegionLen), 2, ?_,
          Or.inr (Or.inr (Or.inl short))⟩
        rw [Disk.tick_file, Disk.tick_file, if_pos short]; rfl
      · rw [Disk.tick_file, Disk.tick_file, if_neg short]
        have long : metaRegionLen ≤ d.file.len := Nat.not_lt.mp short
        -- both slots are inside a file that is long enough
        have halves : metaSlotLen + metaSlotLen = metaRegionLen := rfl
        have insideA : 0 + metaSlotLen ≤ d.tick.tick.file.len := by
          rw [Disk.tick_file, Disk.tick_file]
          omega
        have insideB : metaSlotLen + metaSlotLen ≤ d.tick.tick.tick.file.len := by
          rw [Disk.tick_file, Disk.tick_file, Disk.tick_file]
          omega
        rcases readExactAt_inside env insideA with readA | ⟨fails, readA⟩
        · rw [Hoare.bind_ok readA]
          rcases readExactAt_inside env insideB with readB | ⟨fails, readB⟩
          · rw [Hoare.bind_ok readB]
            have slotA : d.tick.tick.file.read 0 metaSlotLen = d.file.slot 0 := by
              rw [File.slot_zero, Disk.tick_file, Disk.tick_file]
            have slotB : d.tick.tick.tick.file.read metaSlotLen metaSlotLen = d.file.slot 1 := by
              rw [File.slot_one, Disk.tick_file, Disk.tick_file, Disk.tick_file]
            rw [slotA, slotB]
            cases chosen : Pager.chooseSlot (Pager.validSlot env (d.file.slot 0))
                (Pager.validSlot env (d.file.slot 1)) with
            | none => exact Or.inr ⟨.fatal .noValidMetaPage, 4, rfl, Or.inr (Or.inr (Or.inr chosen))⟩
            | some pair =>
              exact Or.inl ⟨pair.1, pair.2, 4, rfl, (Bool.not_eq_false _).mp present, long, chosen⟩
          · refine Or.inr ⟨Stop.io, 4, ?_, Or.inl ⟨d.clock + 3, by omega, fails⟩⟩
            rw [Hoare.bind_error readB]; rfl
        · refine Or.inr ⟨Stop.io, 3, ?_, Or.inl ⟨d.clock + 2, by omega, fails⟩⟩
          rw [Hoare.bind_error readA]; rfl

/-- `open` succeeds on a file with a chosen slot. -/
theorem openFile_works {d : Disk} {slot : Fin 2} {content : MetaContent}
    (works : ∀ k, d.clock ≤ k → env.fault k = none) (present : d.present = true)
    (long : metaRegionLen ≤ d.file.len) (chosen : d.file.chosen env = some (slot, content)) :
    ∃ n, Pager.openFile env d = .ok (content.pager slot) (d.ticked n) := by
  rcases openFile_cases env d with ⟨slot', content', n, run, -, -, chosen'⟩ | ⟨e, n, -, why⟩
  · rw [chosen, Option.some.injEq, Prod.mk.injEq] at chosen'
    obtain ⟨rfl, rfl⟩ := chosen'
    exact ⟨n, run⟩
  · rcases why with ⟨k, later, fails⟩ | absent | short | none
    · rw [works k later] at fails
      cases fails
    · rw [present] at absent
      cases absent
    · omega
    · rw [chosen] at none
      cases none

/-- A pool that was just made over a file is sound. -/
theorem new_ok (env : Env) {d : Disk} {pager : Pager} {capacity : Nat} {s : Database}
    (made : BufferPool.new d pager capacity = .ok s) :
    s =
      { disk := d, pager, capacity, entries := ∅, dirty := ∅, recency := [], nextPageId := pager.pageCount } ∧
      Sound env s := by
  rw [BufferPool.new] at made
  split at made
  next positive =>
    rw [Except.ok.injEq] at made
    subst made
    have absent : ∀ id, (∅ : Entries).lookup id = none := fun id =>
      AList.lookup_eq_none.mpr (AList.notMem_empty id)
    refine ⟨rfl, ⟨?_, positive, Nat.zero_le _, ?_, ?_⟩⟩
    · exact List.Perm.refl _
    · intro id buf found
      cases (absent id).symm.trans found
    · intro id buf _ found
      cases (absent id).symm.trans found
  next => cases made

/-- What a database that was just opened looks like. -/
structure Opened (env : Env) (d : Disk) (capacity : Nat) (s : Database) (d' : Disk) : Prop where
  disk : s.disk = d'
  idle : ∃ n, d' = d.ticked n
  present : d.present = true
  long : metaRegionLen ≤ d.file.len
  chosen : d.file.chosen env = some (s.pager.activeSlot, s.pager.content)
  capacity : s.capacity = capacity
  dirty : s.dirty = ∅
  next : s.nextPageId = s.pager.pageCount
  sound : Sound env s

theorem openWithCapacity_ok {d d' : Disk} {capacity : Nat} {s : Database}
    (run : Database.openWithCapacity env capacity d = .ok s d') : Opened env d capacity s d' := by
  rw [Database.openWithCapacity] at run
  rcases openFile_cases env d with ⟨slot, content, n, opened, present, long, chosen⟩ | ⟨e, n, opened, -⟩
  · rw [Hoare.bind_ok opened, Hoare.get_bind] at run
    cases made : BufferPool.new (d.ticked n) (content.pager slot) capacity with
    | error e =>
      rw [made] at run
      cases run
    | ok pool =>
      rw [made] at run
      injection run with same sameDisk
      subst same sameDisk
      obtain ⟨rfl, sound⟩ := new_ok env made
      exact ⟨rfl, ⟨n, rfl⟩, present, long, chosen, rfl, rfl, rfl, sound⟩
  · rw [Hoare.bind_error opened] at run
    cases run

/-- Opening works when the I/O does. -/
theorem openWithCapacity_works {d : Disk} {capacity : Nat} {slot : Fin 2} {content : MetaContent}
    (works : ∀ k, d.clock ≤ k → env.fault k = none) (present : d.present = true) (positive : 1 ≤ capacity)
    (long : metaRegionLen ≤ d.file.len) (chosen : d.file.chosen env = some (slot, content)) :
    ∃ s d', Database.openWithCapacity env capacity d = .ok s d' ∧ s.pager = content.pager slot := by
  obtain ⟨n, opened⟩ := openFile_works works present long chosen
  rw [Database.openWithCapacity, Hoare.bind_ok opened, Hoare.get_bind, BufferPool.new, if_pos positive]
  exact ⟨_, _, rfl, rfl⟩

/-- A failed open leaves the file as it was. -/
theorem openWithCapacity_error {d d' : Disk} {capacity : Nat} {e : Stop}
    (run : Database.openWithCapacity env capacity d = .error e d') : ∃ n, d' = d.ticked n := by
  rw [Database.openWithCapacity] at run
  rcases openFile_cases env d with ⟨slot, content, n, opened, -⟩ | ⟨e, n, opened, -⟩
  · rw [Hoare.bind_ok opened, Hoare.get_bind] at run
    cases made : BufferPool.new (d.ticked n) (content.pager slot) capacity with
    | error e =>
      rw [made] at run
      injection run with _ same
      exact ⟨n, same.symm⟩
    | ok pool =>
      rw [made] at run
      cases run
  · rw [Hoare.bind_error opened] at run
    injection run with _ same
    exact ⟨n, same.symm⟩

/-! ## `Pager::create` -/

/-- The content of the first meta slot of a new file. -/
def MetaContent.initial (pageSize : PageSize) : MetaContent where
  pageSize
  txnId := 0
  rootPageId := emptyTreeRoot
  pageCount := firstDataPageId

theorem MetaContent.initial_fits (pageSize : PageSize) : (MetaContent.initial pageSize).Fits where
  txnId := show 0 < 18446744073709551616 by decide
  rootPageId := show emptyTreeRoot < 4294967296 by decide
  pageCount := show firstDataPageId < 4294967296 by decide

/-- What a database that was just created looks like. -/
structure Created (env : Env) (pageSize : PageSize) (capacity : Nat) (d : Disk)
    (s : Database) : Prop where
  absent : d.present = false
  present : s.disk.present = true
  pager : s.pager = (MetaContent.initial pageSize).pager 0
  len : s.disk.file.len = metaRegionLen
  slot : s.disk.file.slot 0 = metaSlot env (MetaContent.initial pageSize)
  zero : s.disk.file.slot 1 = List.replicate metaSlotLen 0
  trace : ∃ slot, s.disk.trace = d.trace ++ [.write 0 slot, .sync s.disk.file]
  capacity : s.capacity = capacity
  empty : s.entries = ∅
  dirty : s.dirty = ∅
  next : s.nextPageId = firstDataPageId
  sound : Sound env s

theorem setLen_apply (env : Env) (len : Nat) (d : Disk) :
    (env.fault d.clock = none ∧ setLen env len d = .ok ⟨⟩ { d.tick with file := d.file.setLen len }) ∨
    ((env.fault d.clock).isSome = true ∧ setLen env len d = .error Stop.io d.tick) := by
  rw [setLen, ioCall_bind]
  cases env.fault d.clock with
  | none => exact Or.inl ⟨rfl, rfl⟩
  | some torn => exact Or.inr ⟨rfl, rfl⟩

/-- A slot of zeroes does not decode. -/
theorem validSlot_of_zero {buf : Bytes} (long : 4 ≤ buf.length) (zero : ∀ b ∈ buf, b = 0) :
    Pager.validSlot env buf = none := by
  have magic : slice buf offsetMagic 4 ≠ metaMagic := by
    intro same
    have first : (80 : UInt8) ∈ slice buf offsetMagic 4 := by rw [same]; decide
    have := zero 80 (List.mem_of_mem_drop (List.mem_of_mem_take first))
    exact absurd this (by decide)
  rw [Pager.validSlot]
  split
  · rw [decodeMetaSlot, readBytes_of_le (by simp only [offsetMagic]; omega)]
    simp only [ne_eq, magic, not_false_eq_true, if_true]
  · rfl

/-- The disk right after the exclusive create: there is an empty file. -/
def Disk.fresh (d : Disk) : Disk := { d.tick with present := true, file := File.empty }

/-- The disk once the first slot of the new file is written. -/
def Disk.headed (env : Env) (pageSize : PageSize) (d : Disk) : Disk :=
  let slot := metaSlot env (MetaContent.initial pageSize)
  d.fresh.written 0 slot (Torn.whole slot)

/-- The disk once the meta region of the new file is complete. -/
def Disk.laidOut (env : Env) (pageSize : PageSize) (d : Disk) : Disk :=
  { (d.headed env pageSize).tick with file := (d.headed env pageSize).file.setLen metaRegionLen }

/-- Which of its four I/O calls ends `create`, at a path without a file. -/
theorem Pager.create_cases (env : Env) (pageSize : PageSize) {d : Disk} (absent : d.present = false) :
    let slot := metaSlot env (MetaContent.initial pageSize)
    ((env.fault d.clock).isSome = true ∧ Pager.create env pageSize d = .error Stop.io d.tick) ∨
    (env.fault d.clock = none ∧ ∃ torn, env.fault (d.clock + 1) = some torn ∧
      Pager.create env pageSize d = .error Stop.io (d.fresh.written 0 slot torn)) ∨
    (env.fault d.clock = none ∧ env.fault (d.clock + 1) = none ∧ (env.fault (d.clock + 2)).isSome = true ∧
      Pager.create env pageSize d = .error Stop.io (d.headed env pageSize).tick) ∨
    (env.fault d.clock = none ∧ env.fault (d.clock + 1) = none ∧ env.fault (d.clock + 2) = none ∧
      (env.fault (d.clock + 3)).isSome = true ∧
      Pager.create env pageSize d = .error Stop.io (d.laidOut env pageSize).tick) ∨
    (env.fault d.clock = none ∧ env.fault (d.clock + 1) = none ∧ env.fault (d.clock + 2) = none ∧
      env.fault (d.clock + 3) = none ∧ Pager.create env pageSize d
        = .ok ((MetaContent.initial pageSize).pager 0) (d.laidOut env pageSize).synced) := by
  intro slot
  cases fault : env.fault d.clock with
  | some torn =>
    refine Or.inl ⟨rfl, ?_⟩
    rw [Pager.create, Hoare.get_bind, if_neg (by simp [absent]), ioCall_bind, fault]
    rfl
  | none =>
    -- the file is there: left are its header, its length and the sync, in this order
    have start : Pager.create env pageSize d = (do
        modify fun d => { d with present := true, file := File.empty }
        writeAllAt env 0 slot
        setLen env metaRegionLen
        sync env
        return (MetaContent.initial pageSize).pager 0 : IoM Pager) d.tick := by
      have encoded : encodeMetaSlot env ⟨pageSize, 0, emptyTreeRoot, firstDataPageId⟩ = .ok slot :=
        encodeMetaSlot_eq _
      rw [Pager.create, Hoare.get_bind, if_neg (by simp [absent]), ioCall_bind, fault]
      simp only
      rw [Hoare.modify_bind, Hoare.modify_bind, encoded, liftM_ok, pure_bind]
      rfl
    rw [Hoare.modify_bind] at start
    right
    rcases writeAllAt_apply env 0 slot d.fresh with ⟨works₁, write⟩ | ⟨torn, fails, write⟩
    · right
      replace start := start.trans (Hoare.bind_ok write)
      rcases setLen_apply env metaRegionLen (d.headed env pageSize) with ⟨works₂, resized⟩ |
        ⟨fails, resized⟩
      · right
        replace start := start.trans (Hoare.bind_ok resized)
        rcases sync_apply env (d.laidOut env pageSize) with ⟨works₃, synced⟩ | ⟨fails, synced⟩
        · exact Or.inr ⟨rfl, works₁, works₂, works₃, start.trans (Hoare.bind_ok synced)⟩
        · exact Or.inl ⟨rfl, works₁, works₂, fails, start.trans (Hoare.bind_error synced)⟩
      · exact Or.inl ⟨rfl, works₁, fails, start.trans (Hoare.bind_error resized)⟩
    · exact Or.inl ⟨rfl, torn, fails, start.trans (Hoare.bind_error write)⟩

theorem validSlot_zero (env : Env) : Pager.validSlot env (List.replicate metaSlotLen 0) = none :=
  validSlot_of_zero (by rw [List.length_replicate]; decide) fun _ member =>
    List.eq_of_mem_replicate member

theorem Created.spare {ps : PageSize} {capacity : Nat} {d : Disk} {s : Database}
    (created : Created env ps capacity d s) :
    Pager.validSlot env (s.disk.file.slot 1) = none := by
  rw [created.zero]
  exact validSlot_zero env

/-- A new file holds the initial state in its first slot, and zeroes in the second one. -/
theorem Disk.laidOut_slots (env : Env) (pageSize : PageSize) (d : Disk) :
    (d.laidOut env pageSize).file.slot 0 = metaSlot env (MetaContent.initial pageSize) ∧
      (d.laidOut env pageSize).file.slot 1 = List.replicate metaSlotLen 0 := by
  let slot := metaSlot env (MetaContent.initial pageSize)
  have slotLen : slot.length = metaSlotLen := length_metaSlot _
  have byte : ∀ i, i < metaRegionLen → ((File.empty.write 0 slot).setLen metaRegionLen).byte i
      = (File.empty.write 0 slot).byte i := fun i inside => if_pos inside
  constructor
  · unfold File.slot
    show ((File.empty.write 0 slot).setLen metaRegionLen).read 0 metaSlotLen = slot
    refine Eq.trans (File.read_congr fun i inside => byte (0 + i) ?_)
      (File.read_write_at slotLen : (File.empty.write 0 slot).read 0 metaSlotLen = slot)
    simp only [metaSlotLen, metaRegionLen] at inside ⊢
    omega
  · refine List.eq_replicate_iff.mpr ⟨?_, fun b member => ?_⟩
    · unfold File.slot
      rw [File.length_read]
    · unfold File.slot at member
      obtain ⟨i, inside, rfl⟩ := List.mem_map.mp member
      rw [List.mem_range] at inside
      show ((File.empty.write 0 slot).setLen metaRegionLen).byte (Pager.slotOffset 1 + i) = 0
      have off : Pager.slotOffset 1 = metaSlotLen := by simp [Pager.slotOffset]
      have inner : metaSlotLen + i < metaRegionLen := by
        simp only [metaRegionLen, metaSlotLen] at inside ⊢
        omega
      rw [off, byte _ inner, File.byte_write, if_neg (by omega)]
      rfl

theorem createWithCapacity_ok {pageSize : PageSize} {capacity : Nat} {d d' : Disk} {s : Database}
    (run : Database.createWithCapacity env pageSize capacity d = .ok s d') :
    s.disk = d' ∧ Created env pageSize capacity d s := by
  rw [Database.createWithCapacity] at run
  by_cases present : d.present = true
  · have refused : Pager.create env pageSize d = .error (.permanent .alreadyExists) d := by
      rw [Pager.create, Hoare.get_bind, if_pos present]; rfl
    rw [Hoare.bind_error refused] at run
    cases run
  · have absent : d.present = false := (Bool.not_eq_true _).mp present
    -- only the last case creates the file, all calls of which worked
    rcases Pager.create_cases env pageSize absent with
      ⟨-, create⟩ | ⟨-, torn, -, create⟩ | ⟨-, -, -, create⟩ | ⟨-, -, -, -, create⟩ | ⟨-, -, -, -, create⟩
    · rw [Hoare.bind_error create] at run
      cases run
    · rw [Hoare.bind_error create] at run
      cases run
    · rw [Hoare.bind_error create] at run
      cases run
    · rw [Hoare.bind_error create] at run
      cases run
    · rw [Hoare.bind_ok create, Hoare.get_bind] at run
      cases made : BufferPool.new (d.laidOut env pageSize).synced
        ((MetaContent.initial pageSize).pager 0) capacity with
      | error e => rw [made] at run; cases run
      | ok pool =>
        rw [made] at run
        injection run with same sameDisk
        subst same sameDisk
        obtain ⟨rfl, sound⟩ := new_ok env made
        obtain ⟨first, second⟩ := d.laidOut_slots env pageSize
        refine ⟨rfl, absent, rfl, rfl, rfl, first, second,
          ⟨metaSlot env (MetaContent.initial pageSize), ?_⟩, rfl, rfl, rfl, rfl, sound⟩
        show (d.trace ++ [Event.write 0 _]) ++ [Event.sync _] = _
        rw [List.append_assoc]
        rfl

/-- Creating works when the I/O does. -/
theorem createWithCapacity_works {pageSize : PageSize} {capacity : Nat} {d : Disk}
    (works : ∀ n, n < 4 → env.fault (d.clock + n) = none) (absent : d.present = false)
    (positive : 1 ≤ capacity) :
    ∃ s, Database.createWithCapacity env pageSize capacity d = .ok s (d.laidOut env pageSize).synced ∧
      s.pager = (MetaContent.initial pageSize).pager 0 := by
  rcases Pager.create_cases env pageSize absent with
    ⟨fails, -⟩ | ⟨-, torn, fails, -⟩ | ⟨-, -, fails, -⟩ | ⟨-, -, -, fails, -⟩ | ⟨-, -, -, -, create⟩
  · cases fails.symm.trans (congrArg Option.isSome (works 0 (by omega)))
  · cases fails.symm.trans (works 1 (by omega))
  · cases fails.symm.trans (congrArg Option.isSome (works 2 (by omega)))
  · cases fails.symm.trans (congrArg Option.isSome (works 3 (by omega)))
  · rw [Database.createWithCapacity, Hoare.bind_ok create, Hoare.get_bind, BufferPool.new,
      if_pos positive]
    exact ⟨_, rfl, rfl⟩

end Pinax
