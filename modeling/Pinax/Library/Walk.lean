import Mathlib.Data.Finset.Card
import Mathlib.Logic.Relation

/-! # Walks on a finite set

Following a partial function, or some link of a relation, step after step.  On a finite set a long
walk has met some place twice, and a walk along a function that has never ends.
-/

namespace Walk

variable {α : Type} {next : α → Option α} {a b : α} {m n : Nat}

/-- Where `n` steps lead, unless the walk ends before. -/
def walk (next : α → Option α) : Nat → α → Option α
  | 0, a => some a
  | n + 1, a => (next a).bind (walk next n)

theorem walk_add : walk next (m + n) a = (walk next m a).bind (walk next n) := by
  induction m generalizing a with
  | zero => rw [Nat.zero_add]; rfl
  | succ m ih =>
    rw [Nat.succ_add, walk, walk]
    cases step : next a with
    | none => rfl
    | some b => exact ih

theorem walk_isSome_mono (le : m ≤ n) (walks : (walk next n a).isSome) : (walk next m a).isSome := by
  obtain ⟨k, rfl⟩ := Nat.exists_eq_add_of_le le
  rw [walk_add] at walks
  cases first : walk next m a with
  | none => rw [first] at walks; exact walks
  | some b => rfl

/-- The walk comes back to a place. -/
def Returns (next : α → Option α) (a : α) : Prop :=
  ∃ i j b, i < j ∧ walk next i a = some b ∧ walk next j a = some b

/-- A walk that returns goes on for ever. -/
theorem Returns.walks (returns : Returns next a) (n : Nat) : (walk next n a).isSome := by
  obtain ⟨i, j, b, less, first, again⟩ := returns
  induction n using Nat.strongRecOn with
  | ind n ih =>
    by_cases short : n ≤ j
    · exact walk_isSome_mono short (by rw [again]; rfl)
    · -- the steps after `j` are the steps after `i`
      have back : walk next n a = walk next (i + (n - j)) a := by
        rw [walk_add, first, ← again, ← walk_add]
        congr 1
        omega
      rw [back]
      exact ih _ (by omega)

theorem exists_ne_map_eq {places : Finset α} {f : Nat → α} (inside : ∀ i, i ≤ n → f i ∈ places)
    (many : places.card ≤ n) :
    ∃ i j, i < j ∧ j ≤ n ∧ f i = f j := by
  have crowded : places.card < (Finset.range (n + 1)).card := by
    rw [Finset.card_range]
    omega
  obtain ⟨i, iIn, j, jIn, ne, same⟩ := Finset.exists_ne_map_eq_of_card_lt_of_maps_to crowded
    fun i member => inside i (Nat.lt_succ_iff.mp (Finset.mem_range.mp member))
  rw [Finset.mem_range] at iIn jIn
  cases Nat.lt_or_gt_of_ne ne with
  | inl less => exact ⟨i, j, less, by omega, same⟩
  | inr less => exact ⟨j, i, less, by omega, same.symm⟩

/-- Among finitely many places, a walk that long has returned. -/
theorem returns_iff {places : Finset α} (inside : ∀ i b, walk next i a = some b → b ∈ places)
    (many : places.card ≤ n) :
    (walk next n a).isSome ↔ Returns next a := by
  constructor
  · intro walks
    have steps : ∀ i, i ≤ n → ∃ b, walk next i a = some b :=
      fun i le => Option.isSome_iff_exists.mp (walk_isSome_mono le walks)
    have reached : ∀ i, i ≤ n → walk next i a = some ((walk next i a).getD a) := by
      intro i le
      obtain ⟨b, found⟩ := steps i le
      rw [found]
      rfl
    obtain ⟨i, j, less, le, same⟩ := exists_ne_map_eq (fun i le => inside i _ (reached i le)) many
    exact ⟨i, j, _, less, reached i (by omega), by rw [same]; exact reached j le⟩
  · exact fun returns => returns.walks n

/-! ## Links -/

variable {link : α → α → Prop}

/-- There are `n` links in a row. -/
def Deep (link : α → α → Prop) : Nat → α → Prop
  | 0, _ => True
  | n + 1, a => ∃ b, link a b ∧ Deep link n b

theorem Deep.places (deep : Deep link n a) : ∃ f :
    Nat → α, f 0 = a ∧ ∀ i, i < n → link (f i) (f (i + 1)) := by
  induction n generalizing a with
  | zero => exact ⟨fun _ => a, rfl, fun i less => absurd less (Nat.not_lt_zero i)⟩
  | succ n ih =>
    obtain ⟨b, first, rest⟩ := deep
    obtain ⟨f, start, links⟩ := ih rest
    refine ⟨fun i => i.casesOn a f, rfl, fun i less => ?_⟩
    cases i with
    | zero => rw [← start] at first; exact first
    | succ i => exact links i (by omega)

theorem transGen_of_links {f : Nat → α} (links : ∀ i, i < n → link (f i) (f (i + 1))) {i j : Nat}
    (less : i < j) (le : j ≤ n) :
    Relation.TransGen link (f i) (f j) := by
  induction j with
  | zero => exact absurd less (Nat.not_lt_zero i)
  | succ j ih =>
    have last := links j (by omega)
    by_cases same : i = j
    · rw [same]
      exact .single last
    · exact .tail (ih (by omega) (by omega)) last

/-- Among finitely many places, that many links in a row lead into a cycle. -/
theorem Deep.cycle {places : Finset α} (deep : Deep link n a) (start : a ∈ places)
    (inside : ∀ b c, link b c → c ∈ places) (many : places.card ≤ n) :
    ∃ b, Relation.ReflTransGen link a b ∧ Relation.TransGen link b b := by
  obtain ⟨f, rfl, links⟩ := deep.places
  have placed : ∀ i, i ≤ n → f i ∈ places := by
    intro i le
    cases i with
    | zero => exact start
    | succ i => exact inside _ _ (links i le)
  obtain ⟨i, j, less, le, same⟩ := exists_ne_map_eq placed many
  refine ⟨f i, ?_, ?_⟩
  · cases i with
    | zero => exact .refl
    | succ i => exact (transGen_of_links links (Nat.succ_pos i) (by omega)).to_reflTransGen
  · have round := transGen_of_links links less le
    rw [← same] at round
    exact round

end Walk
