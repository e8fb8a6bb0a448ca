import Pinax.Verified.Alongside
import Pinax.Verified.Faultless

/-! # The two builds

A `dev` build panics where an addition, a subtraction or a multiplication overflows, and a `release`
build wraps.  Until the `dev` build panics, the two cannot be told apart.
-/

namespace Pinax

open Hoare (Agrees Lockstep final)

/-- The same environment for a `release` build. -/
def Env.inRelease (env : Env) : Env := { env with profile := .release }

variable {env : Env} {session : Session} {log : List Call}

/-! ## What does not depend on the build -/

theorem sync_inRelease (env : Env) : sync env.inRelease = sync env := rfl
theorem writeAllAt_inRelease (env : Env) : writeAllAt env.inRelease = writeAllAt env := rfl
theorem encodeMetaSlot_inRelease (env : Env) : encodeMetaSlot env.inRelease = encodeMetaSlot env := rfl

theorem Database.createWithCapacity_inRelease (env : Env) :
    createWithCapacity env.inRelease = createWithCapacity env := by
  unfold createWithCapacity Pager.create
  rw [encodeMetaSlot_inRelease, writeAllAt_inRelease, sync_inRelease]
  rfl

theorem Database.openWithCapacity_inRelease (env : Env) :
    openWithCapacity env.inRelease = openWithCapacity env := rfl

namespace BufferPool

theorem evictWhileFull_inRelease (env : Env) (bound : Nat) :
    evictWhileFull env.inRelease bound = evictWhileFull env bound := by
  induction bound with
  | zero => rfl
  | succ bound ih =>
    rw [evictWhileFull, evictWhileFull, ih]
    rfl

theorem insertCached_inRelease (env : Env) (id : Nat) (buf : Bytes) (dirty : Bool) :
    insertCached env.inRelease id buf dirty = insertCached env id buf dirty := by
  simp only [insertCached, evictWhileFull_inRelease]

theorem get_inRelease (env : Env) (id : Nat) : get env.inRelease id = get env id := by
  simp only [get, insertCached_inRelease]
  rfl

theorem flushIds_inRelease (env : Env) (ids : List Nat) :
    flushIds env.inRelease ids = flushIds env ids := by
  induction ids with
  | nil => rfl
  | cons id ids ih =>
    rw [flushIds, flushIds, ih]
    rfl

theorem flushAllDirty_inRelease (env : Env) : flushAllDirty env.inRelease = flushAllDirty env := by
  simp only [flushAllDirty, flushIds_inRelease]
  rfl

end BufferPool

/-! ## The calls of the pool -/

instance : SamePager Eq := ⟨fun _ _ same => same ▸ rfl⟩

theorem onDisk_lockstep {α : Type} {E : Stop → Prop} {x y : IoM α}
    (onFile : Lockstep (fun _ => False) E Eq x y) :
    Lockstep (fun _ => False) E Eq (onDisk x) (onDisk y) where
  stable := fun _ none => none
  runs := by
    rintro s t rfl
    cases onFile.runs s.disk s.disk rfl with
    | inl none => exact none.elim
    | inr alike =>
      generalize first : x s.disk = r, second : y s.disk = r' at alike
      cases alike with
      | ok same =>
        rw [onDisk_ok first, onDisk_ok second, same]
        exact Or.inr (.ok rfl)
      | error same =>
        rw [onDisk_error first, onDisk_error second, same]
        exact Or.inr (.error rfl)
      | gaveUp h =>
        rw [onDisk_error first]
        exact Or.inr (.gaveUp h)

section dev

variable (dev : env.profile = .dev)
include dev

theorem builds_inRelease : Builds (· = .panic) env.profile env.inRelease.profile := ⟨Or.inr ⟨dev, rfl⟩⟩

theorem Pager.commit_inRelease (pager : Pager) (newRoot newPageCount : Nat) :
    Lockstep (fun _ => False) (· = .panic) Eq (pager.commit env newRoot newPageCount)
      (pager.commit env.inRelease newRoot newPageCount) := by
  have builds := builds_inRelease dev
  unfold Pager.commit
  rw [encodeMetaSlot_inRelease, writeAllAt_inRelease, sync_inRelease]
  refine .bind .same fun _ => ?_
  simp only
  exact .bind inferInstance fun txnId => .same

theorem alongside_inRelease : Alongside env env.inRelease (fun _ => False) (· = .panic) Eq where
  get := by
    intro id
    rw [BufferPool.get_inRelease]
    exact .same
  put := by
    intro α buf f g rest
    have builds := builds_inRelease dev
    refine .bind ?_ fun id => ?_
    · unfold BufferPool.allocatePageId
      refine .bind .same fun s => ?_
      simp only
      exact .bind .same fun _ => .bind inferInstance fun next => .same
    · rw [BufferPool.putNew, BufferPool.putNew, BufferPool.insertCached_inRelease]
      exact .bind .same fun _ => rest id
  commit := by
    intro root
    unfold BufferPool.commit
    rw [BufferPool.flushAllDirty_inRelease]
    refine .bind .same fun _ => .bind .same fun s => ?_
    exact .bind (onDisk_lockstep (Pager.commit_inRelease dev _ _ _)) fun pager => .same

theorem Call.run_inRelease (call : Call) (fuel : Nat) (s : Database) :
    (∃ s', call.run env fuel s = .error .panic s') ∨ call.run env.inRelease fuel s =
      call.run env fuel s := by
  have builds := builds_inRelease dev
  have alongside := alongside_inRelease dev
  have step : Lockstep (fun _ => False) (· = .panic) Eq (call.run env fuel)
    (call.run env.inRelease fuel) := call.lockstep fuel
  cases step.runs s s rfl with
  | inl none => exact none.elim
  | inr alike =>
    generalize call.run env fuel s = first, call.run env.inRelease fuel s = second at alike
    cases alike with
    | ok same => exact Or.inr (by rw [same])
    | error same => exact Or.inr (by rw [same])
    | gaveUp panic =>
      subst panic
      exact Or.inl ⟨_, rfl⟩

end dev

/-- Calls that do not panic. -/
def unpanicked (env : Env) : CallGuard := fun call fuel s => ∀ s', call.run env fuel s ≠ .error .panic s'

theorem History.inRelease (dev : env.profile = .dev)
    (history : History env (unpanicked env) session log) :
    History env.inRelease (unpanicked env.inRelease) session log := by
  induction history with
  | create blank run => exact .create blank (by rwa [Database.createWithCapacity_inRelease])
  | @call s lineage half since log c fuel before within caught allowed ih =>
    have same : c.run env.inRelease fuel s = c.run env fuel s := by
      cases Call.run_inRelease dev c fuel s with
      | inl panics =>
        obtain ⟨s', panics⟩ := panics
        exact absurd panics (allowed s')
      | inr same => exact same
    have next := History.call c fuel ih (by rw [same]; exact within) (by rw [same]; exact caught)
      (fun s' => by rw [same]; exact allowed s')
    rwa [same] at next
  | drop before ih => exact .drop ih
  | reopen before run ih => exact .reopen ih (by rwa [Database.openWithCapacity_inRelease])
  | refused before run ih => exact .refused ih (by rwa [Database.openWithCapacity_inRelease])

/-- A `release` build does what a `dev` build does until that panics.  Whatever bytes the file
holds, whatever I/O fails and whatever was called before: a call panics in the `dev` build, or
returns the same and leaves the same pool and file in both; a sequence of calls gets the same
replies up to the first panic; and every session of the `dev` build without a panic is one of the
`release` build. -/
theorem release_follows_dev (dev : env.profile = .dev) :
    (∀ (call : Call) fuel s, (∃ s', call.run env fuel s = .error .panic s') ∨
      call.run env.inRelease fuel s = call.run env fuel s) ∧
    (∀ calls fuel s, AlikeUntil (· = .panic) (replies env fuel calls s)
      (replies env.inRelease fuel calls s)) ∧
    ∀ session log, History env (unpanicked env) session log →
      History env.inRelease (unpanicked env.inRelease) session log := by
  have builds := builds_inRelease dev
  have alongside := alongside_inRelease dev
  refine ⟨Call.run_inRelease dev, fun calls fuel s => ?_, fun session log => History.inRelease dev⟩
  exact @replies_alike env env.inRelease (fun _ => False) (· = .panic) Eq _ _ _ fuel calls s s rfl id

/-- A row is inserted into a new database and found there by both. -/
theorem release_follows_dev_first_insert :
    let env := Env.faultless .dev fun _ => 0
    let one : I64 := ⟨1, by decide, by decide⟩
    ∃ s₀ s₁ lineage, s₀.nextPageId = 2 ∧ (Call.insert one ⟨[]⟩).run env u32Max s₀ = .ok .done s₁ ∧
      (Call.insert one ⟨[]⟩).run env.inRelease u32Max s₀ = .ok .done s₁ ∧ s₁.pager ≠ s₀.pager ∧
      History env.inRelease (unpanicked env.inRelease) ⟨.running s₁, lineage, none, 0⟩
        [.insert one ⟨[]⟩] ∧
      answerOf ((Call.get one).run env.inRelease u32Max s₁) = .ok (.binding (some ⟨[]⟩)) := by
  intro env one
  obtain ⟨s₀, create, steady₀, next₀⟩ : ∃ s, _ ∧ Steady env PageSize.default _ s none ∧ _ :=
    Steady.created (fun _ => rfl) (Nat.le_refl 1)
  have encodes : Row.encode ⟨[]⟩ one = .ok [0, 0, 0, 0] := rfl
  obtain ⟨s₁, step₁, -, -⟩ :=
    steady₀.first_short (Nat.le_refl _) encodes (by decide) (by rw [next₀]; decide)
  obtain ⟨runs, -, sessions⟩ := release_follows_dev (show env.profile = .dev from rfl)
  have inserts : (Call.insert one ⟨[]⟩).run env.inRelease u32Max s₀ = .ok .done s₁ := by
    -- the insert does not panic in the build that checks, so the other build follows it
    cases runs (.insert one ⟨[]⟩) u32Max s₀ with
    | inl panics =>
      obtain ⟨s', panics⟩ := panics
      cases step₁.run.symm.trans panics
    | inr same => exact same.trans step₁.run
  have allowed : unpanicked env (.insert one ⟨[]⟩) u32Max s₀ := by
    intro s' panics
    cases step₁.run.symm.trans panics
  have history : History env (unpanicked env) (.created s₀) [] := .create rfl create
  obtain ⟨s₂, step₂, -⟩ : ∃ s, Stays env _ _ s₁ _ (.get one) u32Max _ s ∧ _ :=
    step₁.steady.looked (Nat.le_refl _) id
  have found := step₂.answered
  rw [Content.answer, step₁.rows] at found
  have finds : answerOf ((Call.get one).run env.inRelease u32Max s₁) = .ok (.binding (some ⟨[]⟩)) := by
    cases runs (.get one) u32Max s₁ with
    | inl panics =>
      obtain ⟨s', panics⟩ := panics
      rw [panics] at found
      cases found
    | inr same =>
      rw [same]
      exact found
  exact ⟨s₀, s₁, _, next₀, step₁.run, inserts, step₁.changed,
    sessions _ _ (history.advances step₁ allowed), finds⟩

end Pinax
