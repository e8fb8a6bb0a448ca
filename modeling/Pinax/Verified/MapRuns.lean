import Pinax.Verified.Damage
import Pinax.Verified.FirstInsert
import Pinax.Verified.Overfull
import Mathlib.Logic.Function.Basic

/-! # A database is a map

Without I/O failures, and as long as no leaf is split into halves that do not fit, the calls of a
database reply what a map from keys to rows replies, over any number of calls and reopens.
-/

namespace Pinax

open Hoare (Ends final)

/-- What a database is: the row of each key that is bound. -/
abbrev Bindings := I64 → Option Row

/-- The bindings after a call. -/
def Call.bind (m : Bindings) : Call → Bindings
  | .insert key row => if (m key).isSome then m else Function.update m key (some row)
  | .update key row => if (m key).isSome then Function.update m key (some row) else m
  | .delete key => Function.update m key none
  | .get _ | .scan => m

/-- What a call replies on the bindings. -/
def Call.Answers (m : Bindings) (call : Call) (answer : Except Stop Reply) : Prop :=
  match call with
  | .insert key _ =>
    answer = if (m key).isSome then .error (.permanent (.keyAlreadyExists key)) else .ok .done
  | .get key => answer = .ok (.binding (m key))
  | .update key _ => answer = if (m key).isSome then .ok .done else .error (.permanent (.keyNotFound key))
  | .delete key =>
    answer = (m key).elim (.error (.permanent (.keyNotFound key))) fun row => .ok (.removed row)
  | .scan => ∃ rows, answer = .ok (.rows rows) ∧ rows.Pairwise (fun a b => a.1.val < b.1.val) ∧
      ∀ key row, (key, row) ∈ rows ↔ m key = some row

/-- The row of the call has an encoding, of at most `u32::MAX` bytes. -/
def Call.Encodes : Call → Prop
  | .insert key row | .update key row => ∃ encoded, row.encode key = .ok encoded ∧ encoded.length ≤ u32Max
  | .get _ | .delete _ | .scan => True

/-- The databases that are created, called, and dropped and opened again, with the bindings that
their calls made. -/
inductive MapRun (env : Env) : Database → Bindings → Prop
  | create {ps : PageSize} {capacity : Nat} {d d' : Disk} {s : Database} (blank : d.trace = [])
      (run : Database.createWithCapacity env ps capacity d = .ok s d') : MapRun env s fun _ => none
  | call {s : Database} {m : Bindings} {call : Call} {fuel : Nat} (before : MapRun env s m)
      (deep : u32Max ≤ fuel)
      (encodes : call.Encodes) (fits : s.SplitsFit env call)
      (within : ¬ Exhausted (final (call.run env fuel s))) :
      MapRun env (final (call.run env fuel s)) (call.bind m)
  | reopen {s s' : Database} {m : Bindings} {capacity : Nat} {d' : Disk} (before : MapRun env s m)
      (run : Database.openWithCapacity env capacity s.disk = .ok s' d') : MapRun env s' m

variable {env : Env} {s s' : Database} {m : Bindings} {call : Call} {fuel : Nat} {c c' : Content}
  {key : I64} {row : Row}

theorem Call.Encodes.sized (encodes : call.Encodes) : call.Sized := by
  cases call with
  | insert key row =>
    obtain ⟨encoded, same, small⟩ := encodes
    intro encoded' same'
    rw [same] at same'
    rw [← Except.ok.inj same']
    exact small
  | update key row =>
    obtain ⟨encoded, same, small⟩ := encodes
    intro encoded' same'
    rw [same] at same'
    rw [← Except.ok.inj same']
    exact small
  | get key => trivial
  | delete key => trivial
  | scan => trivial

/-! ## Contents and bindings -/

theorem I64.lt_or_gt_of_ne {a b : I64} (different : a ≠ b) : a.val < b.val ∨ b.val < a.val :=
  Int.lt_or_gt_of_ne fun same => different (I64.ext same)

theorem mem_bindRow {rows : List (I64 × Row)} {key' : I64} {row' : Row} :
    (key', row') ∈ bindRow key row rows ↔ key' = key ∧ row' = row ∨ key' ≠ key ∧ (key', row') ∈ rows := by
  rw [bindRow, List.mem_append, List.mem_cons, List.mem_filter, List.mem_filter, Prod.mk.injEq]
  simp only [decide_eq_true_eq]
  constructor
  · rintro (⟨member, below⟩ | same | ⟨member, above⟩)
    · exact Or.inr ⟨fun same => by rw [same] at below; exact absurd below (lt_irrefl _), member⟩
    · exact Or.inl same
    · exact Or.inr ⟨fun same => by rw [same] at above; exact absurd above (lt_irrefl _), member⟩
  · rintro (same | ⟨different, member⟩)
    · exact Or.inr (Or.inl same)
    · rcases I64.lt_or_gt_of_ne different with below | above
      · exact Or.inl ⟨member, below⟩
      · exact Or.inr (Or.inr ⟨member, above⟩)

theorem mem_unbindRow {rows : List (I64 × Row)} {key' : I64} {row' : Row} :
    (key', row') ∈ unbindRow key rows ↔ key' ≠ key ∧ (key', row') ∈ rows := by
  rw [unbindRow, List.mem_filter, decide_eq_true_eq]
  exact And.comm

/-- The content binds what the bindings say. -/
def Content.Denotes (c : Content) (m : Bindings) : Prop :=
  ∀ key row, m key = some row ↔ (key, row) ∈ c.rows

theorem Content.Denotes.lookup (denotes : c.Denotes m)
    (sorted : c.rows.Pairwise fun a b => a.1.val < b.1.val) (key : I64) :
    c.rows.lookup key = m key :=
  Option.ext fun row => (lookup_eq_some_iff sorted).trans (denotes key row).symm

/-- A content replies what its bindings do. -/
theorem Content.Denotes.answers (denotes : c.Denotes m)
    (sorted : c.rows.Pairwise fun a b => a.1.val < b.1.val) (encodes : call.Encodes) :
    call.Answers m (c.answer call) := by
  have lookup := denotes.lookup sorted
  cases call with
  | insert key row =>
    obtain ⟨encoded, same, -⟩ := encodes
    simp only [Call.Answers, Content.answer, lookup, same, Except.map]
  | get key => simp only [Call.Answers, Content.answer, lookup]
  | update key row =>
    obtain ⟨encoded, same, -⟩ := encodes
    simp only [Call.Answers, Content.answer, lookup, same, Except.map]
  | delete key =>
    simp only [Call.Answers, Content.answer, lookup]
    cases m key <;> rfl
  | scan => exact ⟨c.rows, rfl, sorted, fun key row => (denotes key row).symm⟩

/-- Bindings that a call does not change. -/
theorem Content.Denotes.refused {e : Stop} (denotes : c.Denotes m)
    (sorted : c.rows.Pairwise fun a b => a.1.val < b.1.val) (encodes : call.Encodes)
    (refused : c.answer call = .error e) : call.bind m = m := by
  have answers := denotes.answers sorted encodes
  rw [refused] at answers
  cases call with
  | insert key row =>
    by_cases bound : (m key).isSome
    · exact if_pos bound
    · cases answers.trans (if_neg bound)
  | get key => rfl
  | update key row =>
    by_cases bound : (m key).isSome
    · cases answers.trans (if_pos bound)
    · exact if_neg bound
  | delete key =>
    cases found : m key with
    | none => rw [Call.bind, ← found, Function.update_eq_self]
    | some row =>
      have removes : Except.error e = Except.ok (Reply.removed row) := by
        simpa only [Call.Answers, found, Option.elim_some] using answers
      cases removes
  | scan => rfl

theorem Content.Denotes.bound (denotes : c.Denotes m) (rows : c'.rows = bindRow key row c.rows) :
    c'.Denotes (Function.update m key (some row)) := by
  intro key' row'
  rw [rows, mem_bindRow]
  by_cases same : key' = key
  · subst same
    rw [Function.update_self, Option.some.injEq]
    exact ⟨fun same => Or.inl ⟨rfl, same.symm⟩,
      fun either => (either.resolve_right fun both => both.1 rfl).2.symm⟩
  · rw [Function.update_of_ne same]
    exact (denotes key' row').trans ⟨fun member => Or.inr ⟨same, member⟩,
      fun either => (either.resolve_left fun both => same both.1).2⟩

theorem Content.Denotes.unbound (denotes : c.Denotes m) (rows : c'.rows = unbindRow key c.rows) :
    c'.Denotes (Function.update m key none) := by
  intro key' row'
  rw [rows, mem_unbindRow]
  by_cases same : key' = key
  · subst same
    rw [Function.update_self]
    exact ⟨fun none => (by cases none), fun both => absurd rfl both.1⟩
  · rw [Function.update_of_ne same]
    exact (denotes key' row').trans ⟨fun member => ⟨same, member⟩, fun both => both.2⟩

/-- Bindings that a call changes. -/
theorem Content.Denotes.changed {reply : Reply} (denotes : c.Denotes m)
    (sorted : c.rows.Pairwise fun a b => a.1.val < b.1.val) (encodes : call.Encodes)
    (answer : c.answer call = .ok reply) (mutates : call.Mutates)
    (rows : c'.rows = call.rowsAfter c.rows) :
    c'.Denotes (call.bind m) := by
  have answers := denotes.answers sorted encodes
  rw [answer] at answers
  cases call with
  | insert key row =>
    by_cases bound : (m key).isSome
    · cases answers.trans (if_pos bound)
    · rw [Call.bind, if_neg bound]
      exact denotes.bound rows
  | update key row =>
    by_cases bound : (m key).isSome
    · rw [Call.bind, if_pos bound]
      exact denotes.bound rows
    · cases answers.trans (if_neg bound)
  | delete key => exact denotes.unbound rows
  | get key => exact absurd mutates id
  | scan => exact absurd mutates id

/-! ## Runs -/

/-- A database that holds the bindings. -/
def Mapped (env : Env) (s : Database) (m : Bindings) : Prop :=
  ∃ cur past floor c, Settled env cur past none floor s ∧ cur.Holds env c ∧ c.Denotes m

theorem Mapped.outcome (works : ∀ k, env.fault k = none) (mapped : Mapped env s m)
    (deep : u32Max ≤ fuel) (encodes : call.Encodes) (fits : s.SplitsFit env call)
    (within : ¬ Exhausted (final (call.run env fuel s))) :
    call.Answers m (answerOf (call.run env fuel s)) ∧
      Mapped env (final (call.run env fuel s)) (call.bind m) := by
  obtain ⟨cur, past, floor, c, settled, holds, denotes⟩ := mapped
  have sorted := holds.sorted
  have answers := denotes.answers sorted encodes
  have outcome := settled.call_outcome holds (settled.shallow holds deep) encodes.sized
    (fits c (settled.contains holds)) within
  -- no I/O call fails, which leaves the other ends of a call
  have faultless : ∀ s', ¬ Faulted env (callFrom env s floor) s' := by
    rintro s' ⟨k, -, -, fails⟩
    rw [works k] at fails
    cases fails
  generalize call.run env fuel s = result at outcome within
  cases outcome with
  | io faulted failed => exact absurd faulted (faultless _)
  | half faulted => exact absurd faulted (faultless _)
  | refused answer failed =>
    rw [answer] at answers
    refine ⟨answers, cur, past, floor, c, settled.of_failed failed, holds, ?_⟩
    rw [denotes.refused sorted encodes answer]
    exact denotes
  | replied looks answer failed =>
    rw [answer] at answers
    have same : call.bind m = m := by
      cases call with
      | get key => rfl
      | scan => rfl
      | insert key row => exact absurd trivial looks
      | update key row => exact absurd trivial looks
      | delete key => exact absurd trivial looks
    refine ⟨answers, cur, past, floor, c, settled.of_failed failed, holds, ?_⟩
    rw [same]
    exact denotes
  | committed mutates answer next small rows committed holds' =>
    rw [answer] at answers
    exact ⟨answers, _, _, _, _, settled.of_committed committed next small within, holds',
      denotes.changed sorted encodes answer mutates rows⟩

/-- Opening finds the bindings again. -/
theorem Mapped.opened {capacity : Nat} {d' : Disk} (mapped : Mapped env s m)
    (run : Database.openWithCapacity env capacity s.disk = .ok s' d') : Mapped env s' m := by
  obtain ⟨cur, past, floor, c, settled, holds, denotes⟩ := mapped
  have opened := openWithCapacity_ok run
  rcases slot_cases s.pager.activeSlot s'.pager.activeSlot with same | other
  · exact ⟨cur, past, _, c, settled.recorded.opened_active opened same, holds, denotes⟩
  · obtain ⟨f, none, -⟩ := (settled.recorded.opened_spare opened other).kept
    cases none

theorem MapRun.mapped (works : ∀ k, env.fault k = none) (run : MapRun env s m) : Mapped env s m := by
  induction run with
  | create blank run =>
    obtain ⟨-, created⟩ := createWithCapacity_ok run
    obtain ⟨c, holds, rfl⟩ := (created.filled (P := (· = none)) rfl).lineage _ List.mem_cons_self
    exact ⟨_, [], firstDataPageId, none, Settled.of_created created, holds,
      fun key row => by simp [Content.rows]⟩
  | call before deep encodes fits within ih => exact (ih.outcome works deep encodes fits within).2
  | reopen before run ih => exact ih.opened run

/-- Over any number of calls and reopens without I/O failures, in which no leaf is split into halves
that do not fit: every such call replies what the bindings made so far do, and the database can be
opened again at any capacity. -/
theorem calls_refine_map (works : ∀ k, env.fault k = none) (run : MapRun env s m) :
    (∀ call fuel, u32Max ≤ fuel → call.Encodes → s.SplitsFit env call →
      ¬ Exhausted (final (call.run env fuel s)) →
      call.Answers m (answerOf (call.run env fuel s))) ∧
    ∀ capacity, 1 ≤ capacity → ∃ s' d', Database.openWithCapacity env capacity s.disk = .ok s' d' := by
  have mapped := run.mapped works
  refine ⟨fun call fuel deep encodes fits within => (mapped.outcome works deep encodes fits within).1,
    fun capacity positive => ?_⟩
  obtain ⟨cur, past, floor, c, settled, -⟩ := mapped
  obtain ⟨s', d', opened, -⟩ :=
    openWithCapacity_works (fun k _ => works k) settled.present positive settled.recorded.len
    settled.recorded.chosen
  exact ⟨s', d', opened⟩

/-! ## Two runs -/

theorem blob_encodes (bytes : Bytes) (len : bytes.length = 4044) (key : I64) :
    ∃ encoded, Row.encode ⟨[.blob bytes]⟩ key = .ok encoded ∧ encoded.length = 4053 :=
  Row.encode_blob len (by decide) key

/-- A leaf of two rows without values. -/
def shortLeaf (n : Nat) (a b : I64) : Leaf := ⟨n, 4048, [emptyRowEntry a, emptyRowEntry b]⟩

theorem shortLeaf_after (n : Nat) :
    let one : I64 := ⟨1, by decide, by decide⟩
    let two : I64 := ⟨2, by decide, by decide⟩
    (Content.after PageSize.default 2 none (.insert one ⟨[]⟩)).after PageSize.default n (.insert two ⟨[]⟩)
      = some ⟨0, shortLeaf n one two⟩ := by
  rfl

theorem Steady.splitsFit {ps : PageSize} {lineage : List Snapshot}
    (steady : Steady env ps lineage s c) (fits : c.SplitsFit ps call) :
    s.SplitsFit env call := by
  intro c' contains
  rw [contains.unique steady.contains, steady.size]
  exact fits

theorem MapRun.advances {ps : PageSize} {lineage : List Snapshot} {reply : Reply}
    (before : MapRun env s m) (steady : Steady env ps lineage s c) (deep : u32Max ≤ fuel)
    (encodes : call.Encodes) (fits : c.SplitsFit ps call)
    (step : Advances env ps lineage s c call fuel reply s') : MapRun env s' (call.bind m) := by
  have fresh : ¬ Exhausted (final (call.run env fuel s)) := by
    rw [step.run]
    exact step.steady.fresh
  have run := before.call deep encodes (steady.splitsFit fits) fresh
  rw [step.run] at run
  exact run

/-- A database of two rows without values. -/
theorem two_short_rows :
    let env := Env.faultless .dev fun _ => 0
    ∃ s lineage n, MapRun env s (((Call.insert ⟨2, by decide, by decide⟩ ⟨[]⟩).bind
        ((Call.insert ⟨1, by decide, by decide⟩ ⟨[]⟩).bind fun _ => none))) ∧
      Steady env PageSize.default lineage s
        (some ⟨0, shortLeaf n ⟨1, by decide, by decide⟩ ⟨2, by decide, by decide⟩⟩) ∧
      s.nextPageId ≤ 8 := by
  intro env
  let one : I64 := ⟨1, by decide, by decide⟩
  let two : I64 := ⟨2, by decide, by decide⟩
  have encodes : ∀ key, Row.encode ⟨[]⟩ key = .ok [0, 0, 0, 0] := fun _ => rfl
  have brief : List.length ([0, 0, 0, 0] : Bytes) ≤ 24 := by decide
  have short : ∀ key, (Call.insert key ⟨[]⟩).Encodes := fun key => ⟨_, encodes key, by decide⟩
  obtain ⟨s₀, create, steady₀, next₀⟩ : ∃ s, _ ∧ Steady env PageSize.default _ s none ∧ _ :=
    Steady.created (fun _ => rfl) (show 1 ≤ 256 by decide)
  have run₀ : MapRun env s₀ fun _ => none := .create rfl create
  -- the first row
  obtain ⟨s₁, step₁, short₁, next₁⟩ :=
    steady₀.first_short (Nat.le_refl _) (encodes one) brief (by rw [next₀]; decide)
  have run₁ := run₀.advances steady₀ (Nat.le_refl _) (short one)
    ((Content.Short.empty 0).fits (Nat.zero_le _) (encodes one) brief) step₁
  -- the second row
  have rows₁ := step₁.rows
  obtain ⟨s₂, step₂, -, next₂⟩ :=
    step₁.steady.insert_short short₁ (by decide) (Nat.le_refl _) (encodes two) brief
    (by rw [rows₁]; decide)
      (by rw [next₀] at next₁; exact Nat.le_trans (Nat.add_le_add_right next₁ 3) (by decide))
  have run₂ := run₁.advances step₁.steady (Nat.le_refl _) (short two)
    (short₁.fits (by decide) (encodes two) brief) step₂
  have steady₂ := step₂.steady
  rw [next₀] at steady₂ next₁
  rw [shortLeaf_after] at steady₂
  exact ⟨s₂, _, _, run₂, steady₂, Nat.le_trans next₂ (Nat.add_le_add_right next₁ 3)⟩

/-- A row of 4039 bytes behind two rows without values splits their leaf into halves that fit. -/
theorem shortLeaf_halves (n : Nat) {long : Bytes} (len : long.length = 4039) :
    let three : I64 := ⟨3, by decide, by decide⟩
    let leaf := shortLeaf n ⟨1, by decide, by decide⟩ ⟨2, by decide, by decide⟩
    ¬ (leaf.without three).Roomy (payloadCell PageSize.default three long 0) ∧
      (leaf.without three).Takes PageSize.default (leaf.rank three)
        (payloadCell PageSize.default three long 0) := by
  intro three leaf
  have size : (payloadCell PageSize.default three long 0).size = 4055 := by
    rw [LeafCell.size, payloadCell, List.length_take, len]
    rfl
  constructor
  · rw [Leaf.Roomy, size]
    show ¬ 5 + 2 * (2 + 1) + 4055 ≤ 4048
    decide
  · have entries : (leaf.without three).entries.insertIdx (leaf.rank three)
      ⟨payloadCell PageSize.default three long 0, [], ⟨[]⟩⟩
        = [emptyRowEntry _, emptyRowEntry _, _] := rfl
    have halves (a b e : Entry) : firstHalf [a, b, e] = [a] ∧ secondHalf [a, b, e] = [b, e] := by
      simp [firstHalf, secondHalf]
    rw [Leaf.Takes, entries, HalvesFit, (halves _ _ _).1, (halves _ _ _).2]
    refine Or.inr ⟨?_, ?_⟩
    · show 5 + 2 * 1 + (20 + 0) ≤ 4088
      decide
    · show 5 + 2 * 2 + (20 + ((payloadCell PageSize.default three long 0).size + 0)) ≤ 4088
      rw [size]
      decide

/-- A third row splits the leaf of two rows without values, and the two are still found. -/
theorem calls_refine_map_split :
    let env := Env.faultless .dev fun _ => 0
    let one : I64 := ⟨1, by decide, by decide⟩
    let three : I64 := ⟨3, by decide, by decide⟩
    let long : Row := ⟨[.blob (List.replicate 4030 0)]⟩
    ∃ s m n, MapRun env s m ∧ s.Contains env (some ⟨0, shortLeaf n one ⟨2, by decide, by decide⟩⟩) ∧
      (∀ encoded, long.encode three = .ok encoded →
        ¬ ((shortLeaf n one ⟨2, by decide, by decide⟩).without three).Roomy
          (payloadCell PageSize.default three encoded 0)) ∧
      answerOf ((Call.insert three long).run env u32Max s) = .ok .done ∧
      answerOf ((Call.get one).run env u32Max (final ((Call.insert three long).run env u32Max s))) =
        .ok (.binding (some ⟨[]⟩)) := by
  have blob : ∀ bytes : Bytes, bytes.length = 4030 → ∀ key, ∃ encoded,
    Row.encode ⟨[.blob bytes]⟩ key = .ok encoded ∧ encoded.length = 4039 :=
    fun bytes len key => Row.encode_blob len (by decide) key
  obtain ⟨bytes, encodes, len⟩ :=
    blob (List.replicate 4030 0) List.length_replicate ⟨3, by decide, by decide⟩
  generalize (⟨[.blob (List.replicate 4030 0)]⟩ : Row) = row at encodes
  intro env one three long
  obtain ⟨s, lineage, n, run, steady, next⟩ := two_short_rows
  obtain ⟨tight, halves⟩ := shortLeaf_halves n len
  have small : bytes.length ≤ u32Max := by
    rw [len]
    decide
  -- the leaf of two short rows is split for the long one, and its halves fit
  have fits : Content.SplitsFit PageSize.default (some ⟨0, shortLeaf n one ⟨2, by decide, by decide⟩⟩)
    (.insert three row) := by
    intro t member absent bytes' same
    obtain rfl := Option.some.inj member
    obtain rfl := Except.ok.inj (encodes.symm.trans same)
    exact halves
  have room : s.nextPageId + ((overflowChunks PageSize.default bytes).length + (2 + (2 * 0 + 1))) ≤
    u32Max := by
    rw [overflowChunks_nil (by rw [len]; decide)]
    exact Nat.le_trans (Nat.add_le_add_right next _) (by decide)
  obtain ⟨s', step, -⟩ := steady.insert (Nat.le_refl _) encodes small fits rfl room
  have run' := run.advances steady (Nat.le_refl _)
    (show Call.Encodes (.insert three row) from ⟨bytes, encodes, small⟩) fits step
  obtain ⟨s'', looked, -⟩ : ∃ s'', Stays env _ _ s' _ (.get one) u32Max _ s'' ∧ _ :=
    step.steady.looked (Nat.le_refl _) id
  obtain ⟨replies, -⟩ := calls_refine_map (fun _ => rfl) run
  obtain ⟨replies', -⟩ := calls_refine_map (fun _ => rfl) run'
  -- both replies are those of the map
  have inserted :=
    replies (.insert three row) u32Max (Nat.le_refl _) ⟨bytes, encodes, small⟩ (steady.splitsFit fits)
    (by rw [step.run]; exact step.steady.fresh)
  have found := replies' (.get one) u32Max (Nat.le_refl _) trivial (fun _ _ => trivial)
    (by rw [looked.left]; exact looked.steady.fresh)
  refine ⟨s, _, n, run, steady.contains, fun encoded same => ?_, inserted, ?_⟩
  · obtain rfl := Except.ok.inj (encodes.symm.trans same)
    exact tight
  · rw [step.run]
    exact found

theorem shortLeaf_absent {a b : I64} (n : Nat) (first : a.val < key.val)
    (second : b.val < key.val) (row : Row) :
    (key, row) ∉ Tree.rows (h := 0) (shortLeaf n a b) := by
  intro member
  obtain ⟨e, inside, same⟩ := List.mem_map.mp member
  obtain rfl : e.cell.key = key := (Prod.mk.inj same).1
  cases List.mem_cons.mp inside with
  | inl here =>
    rw [here] at first
    exact absurd first (lt_irrefl _)
  | inr later =>
    rw [List.mem_singleton.mp later] at second
    exact absurd second (lt_irrefl _)

theorem shortLeaf_split {a b : I64} (n : Nat) (first : a.val < key.val) (second : b.val < key.val)
    (c : LeafCell) :
    splitCells (shortLeaf n a b).cells ((shortLeaf n a b).rank key) c =
      [(emptyRowEntry a).cell, (emptyRowEntry b).cell, c] := by
  have rank : (shortLeaf n a b).rank key = 2 := by
    simp [Leaf.rank, shortLeaf, emptyRowEntry, Entry.key, first, second]
  rw [rank]
  simp [splitCells, shortLeaf, Leaf.cells]

/-- Inserting a row of 4053 bytes behind them: the short cell and the long one do not fit one half. -/
theorem shortLeaf_insert_panics {a b : I64} {cur : Snapshot} {past : List Snapshot}
    {half : Option File} {floor n : Nat} {long : Bytes} (dev : env.profile = .dev)
    (works : ∀ k, env.fault k = none) (settled : Settled env cur past half floor s)
    (holds : cur.Holds env (some ⟨0, shortLeaf n a b⟩)) (size : s.pager.pageSize = PageSize.default)
    (first : a.val < key.val) (second : b.val < key.val) (encodes : row.encode key = .ok long)
    (len : long.length = 4053) (deep : 0 < fuel) :
    answerOf ((Call.insert key row).run env fuel s) = .error .panic ∧
      During env (callFrom env s floor) (callFrom env s floor).base s.nextPageId
        (final ((Call.insert key row).run env fuel s)) := by
  obtain ⟨n₀, -, during⟩ := settled.start
  obtain rfl : s.nextPageId = n₀ := during.next
  have planted : Content.Planted s.pager.pageSize
    (callFrom env s floor).base s.nextPageId s.pager.rootPageId (some ⟨0, shortLeaf n a b⟩) :=
    settled.planted holds fun _ _ low below found => (if_pos ⟨low, below⟩).trans found
  have wellFormed : Tree.WellFormed (h := 0) true (callFrom env s floor).start.pager.pageSize
    (callFrom env s floor).base s.nextPageId
      (shortLeaf n a b) := planted.wellFormed ⟨0, shortLeaf n a b⟩ rfl
  have size : (callFrom env s floor).start.pager.pageSize = PageSize.default := size
  have cell : (payloadCell PageSize.default key long 0).size = 4069 := by
    rw [LeafCell.size, payloadCell, List.length_take, len]
    rfl
  have short : long.length ≤ (callFrom env s floor).start.pager.pageSize.maxLocal := by
    rw [size, len]
    decide
  have small : long.length ≤ u32Max := by
    rw [len]
    decide
  -- the leaf has no room for the row, and its right half would have none either
  have tight : ¬ (shortLeaf n a b).Roomy (payloadCell PageSize.default key long 0) := by
    rw [Leaf.Roomy, cell]
    show ¬ 5 + 2 * (2 + 1) + 4069 ≤ 4048
    decide
  have left : HalfFits PageSize.default
      (leftHalf (splitCells (shortLeaf n a b).cells ((shortLeaf n a b).rank key)
        (payloadCell PageSize.default key long 0))) := by
    rw [shortLeaf_split n first second, show leftHalf _ = [(emptyRowEntry a).cell] by simp [leftHalf]]
    show 5 + 2 * 1 + (20 + 0) ≤ 4088
    decide
  have right : rightHalf (splitCells (shortLeaf n a b).cells ((shortLeaf n a b).rank key)
    (payloadCell PageSize.default key long 0))
      = [(emptyRowEntry b).cell, payloadCell PageSize.default key long 0] := by
    rw [shortLeaf_split n first second]
    simp [rightHalf]
  have overfull : PageSize.default.contentEnd <
    (emptyRowEntry b).cell.size + (payloadCell PageSize.default key long 0).size := by
    rw [cell]
    show 4088 < 20 + 4069
    decide
  rw [← size] at tight left right overfull
  -- the buffer of the right half overflows, in a build that checks
  have panics := wellFormed.insert_panics dev planted.root.symm deep
    (shortLeaf_absent n first second) encodes short small tight
    left right overfull s during
  rw [run_insert]
  cases run : Btree.insert env fuel key row s with
  | ok root s' =>
    rw [run] at panics
    exact panics.1.elim
  | error e s' =>
    rw [run] at panics
    rw [Hoare.bind_error run]
    cases panics with
    | inl failed =>
      obtain ⟨k, -, -, fault⟩ := failed.2.1
      rw [works k] at fault
      cases fault
    | inr stopped => exact ⟨congrArg Except.error stopped.1, stopped.2⟩

/-- Two rows without values and one of 4053 bytes: inserting the third panics, although its key is
not bound. -/
theorem third_insert_panics :
    let env := Env.faultless .dev fun _ => 0
    let key : I64 := ⟨3, by decide, by decide⟩
    let call := Call.insert key ⟨[.blob (List.replicate 4044 0)]⟩
    ∃ s m, MapRun env s m ∧ call.Encodes ∧ m key = none ∧ ¬ Exhausted (final (call.run env u32Max s)) ∧
      answerOf (call.run env u32Max s) = .error .panic ∧
        ¬ call.Answers m (answerOf (call.run env u32Max s)) := by
  obtain ⟨long, encodes, len⟩ :=
    blob_encodes (List.replicate 4044 0) List.length_replicate ⟨3, by decide, by decide⟩
  have small : long.length ≤ u32Max := by
    rw [len]
    decide
  generalize (⟨[.blob (List.replicate 4044 0)]⟩ : Row) = row at encodes
  intro env key call
  obtain ⟨s, lineage, n, run, steady, -⟩ := two_short_rows
  obtain ⟨⟨cur, past, floor, -, settled, holds⟩, fresh, size, -⟩ := steady
  have deep : 0 < u32Max := by decide
  obtain ⟨panic, after⟩ :=
    shortLeaf_insert_panics rfl (fun _ => rfl) settled holds size (by decide) (by decide) encodes len deep
  refine ⟨s, _, run, ⟨long, encodes, small⟩, rfl, ?_, panic, ?_⟩
  · -- no id was handed out
    obtain ⟨ext, trace, -, ids⟩ := after.trace
    have start : (callFrom env s floor).start = s := rfl
    rintro ⟨id, member, high⟩
    rw [trace, allocated_append, ids, start, Nat.sub_self, List.range'_zero, List.append_nil] at member
    exact fresh ⟨id, member, high⟩
  · rw [panic]
    intro answers
    have answers : Except.error Stop.panic = .ok Reply.done := answers.trans (if_neg (by decide))
    cases answers

end Pinax
