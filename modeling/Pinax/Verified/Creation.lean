import Pinax.Verified.Opening

/-! # A create that fails

`create_with_capacity` makes the file first and checks its capacity last.  A failure after the file was
made leaves it there.
-/

namespace Pinax

open Hoare (final)

variable (env : Env)

/-- A failed create leaves no file, so that a later one is not refused, and a file that is left
opens. -/
structure LeavesNothing (pageSize : PageSize) (capacity : Nat) (d : Disk) : Prop where
  undone : ∀ e d', Database.createWithCapacity env pageSize capacity d = .error e d' → d'.present = false
  again : ∀ e d', Database.createWithCapacity env pageSize capacity d = .error e d' →
    ∀ pageSize' capacity' d'', Database.createWithCapacity env pageSize' capacity' d'
      ≠ .error (.permanent .alreadyExists) d''
  opens : let d' := final (Database.createWithCapacity env pageSize capacity d)
    d'.present = true → (∀ k, d'.clock ≤ k → env.fault k = none) →
      ∃ s d'', Database.openWithCapacity env defaultBufferPoolCapacity d' = .ok s d''

/-- The exclusive create itself fails, or nothing fails at all. -/
def FailsFirst (capacity : Nat) (d : Disk) : Prop :=
  (env.fault d.clock).isSome = true ∨
    1 ≤ capacity ∧ env.fault (d.clock + 1) = none ∧ env.fault (d.clock + 2) = none ∧
      env.fault (d.clock + 3) = none

variable {env} {pageSize : PageSize} {capacity : Nat} {d : Disk}

/-- Where there is no file, a create is not refused. -/
theorem createWithCapacity_absent (absent : d.present = false) (d' : Disk) :
    Database.createWithCapacity env pageSize capacity d ≠ .error (.permanent .alreadyExists) d' := by
  intro run
  rw [Database.createWithCapacity] at run
  rcases Pager.create_cases env pageSize absent with
    ⟨-, create⟩ | ⟨-, torn, -, create⟩ | ⟨-, -, -, create⟩ | ⟨-, -, -, -, create⟩ | ⟨-, -, -, -, create⟩
  · rw [Hoare.bind_error create] at run
    cases run
  · rw [Hoare.bind_error create] at run
    cases run
  · rw [Hoare.bind_error create] at run
    cases run
  · rw [Hoare.bind_error create] at run
    cases run
  · rw [Hoare.bind_ok create, Hoare.get_bind, BufferPool.new] at run
    split at run
    · cases run
    · cases run

/-- A file that was created completely opens. -/
theorem laidOut_opens {n : Nat} (works : ∀ k, n ≤ k → env.fault k = none) {d' : Disk}
    (clock : d'.clock = n) (present : d'.present = true)
    (file : d'.file = (d.laidOut env pageSize).file) :
    ∃ s d'', Database.openWithCapacity env defaultBufferPoolCapacity d' = .ok s d'' := by
  obtain ⟨first, second⟩ := d.laidOut_slots env pageSize
  have valid : Pager.validSlot env ((d.laidOut env pageSize).file.slot 0) =
    some (MetaContent.initial pageSize) := by
    rw [first]
    exact validSlot_metaSlot (MetaContent.initial_fits pageSize)
  have chosen : d'.file.chosen env = some (0, MetaContent.initial pageSize) := by
    rw [file]
    refine File.chosen_of_newest valid fun other found => ?_
    have found : Pager.validSlot env ((d.laidOut env pageSize).file.slot 1) = some other := found
    rw [second, validSlot_zero] at found
    cases found
  subst clock
  obtain ⟨s, d'', run, -⟩ :=
    openWithCapacity_works works present (show 1 ≤ defaultBufferPoolCapacity by decide)
    (by rw [file]; exact Nat.le_refl _) chosen
  exact ⟨s, d'', run⟩

/-- A create that fails once the file is there leaves it. -/
theorem leavesNothing_of_error {e : Stop} {d' : Disk}
    (run : Database.createWithCapacity env pageSize capacity d = .error e d')
    (present : d'.present = true) : ¬ LeavesNothing env pageSize capacity d := by
  intro nothing
  have undone := nothing.undone e d' run
  rw [present] at undone
  cases undone

/-- At a path without a file, a failed create leaves nothing behind exactly when the exclusive create
itself failed, or nothing did. -/
theorem create_leaves_nothing_iff (absent : d.present = false) :
    LeavesNothing env pageSize capacity d ↔ FailsFirst env capacity d := by
  have run : Database.createWithCapacity env pageSize capacity d
      = (Pager.create env pageSize >>= fun pager => get >>= fun disk => liftM
        (BufferPool.new disk pager capacity)) d := rfl
  -- the exclusive create fails, then the three steps after it, each with a file left behind
  rcases Pager.create_cases env pageSize absent with
    ⟨fails, create⟩ | ⟨works, torn, fails, create⟩ | ⟨works, works₁, fails, create⟩ |
      ⟨works, works₁, works₂, fails, create⟩ | ⟨works, works₁, works₂, works₃, create⟩
  · rw [Hoare.bind_error create] at run
    refine ⟨fun _ => Or.inl fails,
      fun _ => ⟨fun e d' failed => ?_, fun e d' failed => ?_, fun present => ?_⟩⟩
    · rw [run] at failed
      injection failed with _ same
      rw [← same]
      exact absent
    · rw [run] at failed
      injection failed with _ same
      rw [← same]
      exact fun pageSize' capacity' => createWithCapacity_absent absent
    · rw [run] at present
      cases absent.symm.trans present
  · rw [Hoare.bind_error create] at run
    refine ⟨fun nothing => absurd nothing (leavesNothing_of_error run rfl), ?_⟩
    rintro (first | ⟨-, first, -⟩)
    · rw [works] at first
      cases first
    · rw [fails] at first
      cases first
  · rw [Hoare.bind_error create] at run
    refine ⟨fun nothing => absurd nothing (leavesNothing_of_error run rfl), ?_⟩
    rintro (first | ⟨-, -, second, -⟩)
    · rw [works] at first
      cases first
    · rw [second] at fails
      cases fails
  · rw [Hoare.bind_error create] at run
    refine ⟨fun nothing => absurd nothing (leavesNothing_of_error run rfl), ?_⟩
    rintro (first | ⟨-, -, -, third⟩)
    · rw [works] at first
      cases first
    · rw [third] at fails
      cases fails
  · rw [Hoare.bind_ok create, Hoare.get_bind, BufferPool.new] at run
    -- a capacity of zero is refused when the file is there
    by_cases positive : 1 ≤ capacity
    · rw [if_pos positive] at run
      refine ⟨fun _ => Or.inr ⟨positive, works₁, works₂, works₃⟩,
        fun _ => ⟨fun e d' failed => ?_, fun e d' failed => ?_, ?_⟩⟩
      · rw [run] at failed
        cases failed
      · rw [run] at failed
        cases failed
      · rw [run]
        exact fun _ later => laidOut_opens later rfl rfl rfl
    · rw [if_neg positive] at run
      refine ⟨fun nothing => absurd nothing (leavesNothing_of_error run rfl), ?_⟩
      rintro (first | ⟨some, -⟩)
      · rw [works] at first
        cases first
      · exact absurd some positive

/-- A capacity of zero is refused when the file is already there; a slot write that stores nothing
leaves an empty file, which does not open. -/
theorem create_leaves_file : ∃ d : Disk, d = ⟨false, File.empty, 0, []⟩ ∧
    ∀ (profile : Profile) (xxh3 : Bytes → UInt64), let works := Env.faultless profile xxh3
    let fails : Env := { works with fault := fun n => if n = 1 then some ⟨0, fun _ => false⟩ else none }
    (∃ d', Database.createWithCapacity works PageSize.default 0 d = .error
      (.permanent .invalidBufferPoolCapacity) d' ∧
      Database.createWithCapacity works PageSize.default 256 d' = .error (.permanent .alreadyExists) d') ∧
    (∃ d', Database.createWithCapacity fails PageSize.default 256 d = .error Stop.io d' ∧
      d'.present = true ∧
      ∃ e d'', Database.openWithCapacity fails 256 d' = .error e d'') := by
  refine ⟨_, rfl, fun profile xxh3 => ?_⟩
  intro works fails
  let d : Disk := ⟨false, File.empty, 0, []⟩
  constructor
  -- the file is laid out before the capacity of zero is refused
  · rcases Pager.create_cases works PageSize.default (show d.present = false from rfl) with
      ⟨failed, -⟩ | ⟨-, torn, failed, -⟩ | ⟨-, -, failed, -⟩ | ⟨-, -, -, failed, -⟩ | ⟨-, -, -, -, create⟩
    · cases failed
    · cases failed
    · cases failed
    · cases failed
    · refine ⟨(d.laidOut works PageSize.default).synced, ?_, rfl⟩
      rw [Database.createWithCapacity, Hoare.bind_ok create, Hoare.get_bind, BufferPool.new,
        if_neg (by omega)]
      rfl
  -- the write of the header fails, after the file is there
  · rcases Pager.create_cases fails PageSize.default (show d.present = false from rfl) with
      ⟨failed, -⟩ | ⟨-, torn, failed, create⟩ | ⟨-, worked, -⟩ | ⟨-, worked, -⟩ | ⟨-, worked, -⟩
    · cases failed
    · have same : (⟨0, fun _ => false⟩ : Torn) = torn := Option.some.inj failed
      subst same
      refine ⟨_, by rw [Database.createWithCapacity, Hoare.bind_error create], rfl, ?_⟩
      let left : Disk :=
        d.fresh.written 0 (metaSlot fails (MetaContent.initial PageSize.default)) ⟨0, fun _ => false⟩
      rcases openFile_cases fails left with ⟨slot, content, n, -, -, long, -⟩ | ⟨e, n, opened, -⟩
      -- nothing of the header arrived, and an empty file holds no slots
      · have empty : left.file.len = 0 := by
          show (File.store File.empty _ _ _).len = 0
          simp [File.store, File.empty]
        rw [empty] at long
        exact absurd long (by decide)
      · exact ⟨e, _, by rw [Database.openWithCapacity, Hoare.bind_error opened]⟩
    · cases worked
    · cases worked
    · cases worked

/-- The exclusive create fails: there is still no file, and a later create is not refused. -/
theorem create_leaves_nothing_iff_refused :
    let env : Env :=
      { Env.faultless .dev fun _ => 0 with
        fault := fun n => if n = 0 then some ⟨0, fun _ => false⟩ else none }
    let d : Disk := ⟨false, File.empty, 0, []⟩
    LeavesNothing env PageSize.default 1 d ∧
      ∃ d', Database.createWithCapacity env PageSize.default 1 d = .error Stop.io d' ∧
        d'.present = false ∧
        ∃ s d'', Database.createWithCapacity env PageSize.default 1 d' = .ok s d'' := by
  intro env d
  have absent : d.present = false := rfl
  have nothing : LeavesNothing env PageSize.default 1 d :=
    (create_leaves_nothing_iff absent).mpr (Or.inl rfl)
  rcases Pager.create_cases env PageSize.default absent with
    ⟨-, create⟩ | ⟨works, -⟩ | ⟨works, -⟩ | ⟨works, -⟩ | ⟨works, -⟩
  · have refused : Database.createWithCapacity env PageSize.default 1 d = .error Stop.io _ :=
      Hoare.bind_error create
    have undone := nothing.undone _ _ refused
    -- the next call of the disk is call 1
    have works : ∀ n, n < 4 → env.fault (d.tick.clock + n) = none :=
      fun n _ => if_neg (show 0 + 1 + n ≠ 0 by omega)
    obtain ⟨s, again, -⟩ := createWithCapacity_works works undone (Nat.le_refl 1)
    exact ⟨nothing, _, refused, undone, s, _, again⟩
  · cases works
  · cases works
  · cases works
  · cases works

end Pinax
