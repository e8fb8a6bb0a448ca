import Mathlib.Data.List.Basic
import Mathlib.Order.Lattice

/-! # Interior nodes of a search tree

A node lists its children with a separator key to the right of each but the last.  `Node.route` finds
the child a key belongs to, together with the `Hole` it leaves; a hole is filled with one child or with
two and a new separator.  `Node.Fenced P lo hi` says that the children have `P` between the bounds that
`lo`, the separators and `hi` put up.
-/

namespace SearchNode

variable {K α β γ B : Type}

structure Node (K α : Type) where
  cells : List (K × α)
  last : α

/-- A node without one of its children. -/
inductive Hole (K α : Type)
  | cell (before : List (K × α)) (key : K) (after : List (K × α)) (last : α)
  | atEnd (cells : List (K × α))

def Hole.fill : Hole K α → α → Node K α
  | .cell before key after last, a => ⟨before ++ (key, a) :: after, last⟩
  | .atEnd cells, a => ⟨cells, a⟩

/-- Two children in the place of one. -/
def Hole.fill₂ : Hole K α → α → K → α → Node K α
  | .cell before key after last, a, separator, b =>
    ⟨before ++ (separator, a) :: (key, b) :: after, last⟩
  | .atEnd cells, a, separator, b => ⟨cells ++ [(separator, a)], b⟩

/-- How many children are to the left. -/
def Hole.index : Hole K α → Nat
  | .cell before _ _ _ => before.length
  | .atEnd cells => cells.length

/-- The children, the missing one apart. -/
def Hole.others : Hole K α → List α
  | .cell before _ after last => before.map Prod.snd ++ (after.map Prod.snd ++ [last])
  | .atEnd cells => cells.map Prod.snd

namespace Node

def keys (n : Node K α) : List K := n.cells.map Prod.fst
def children (n : Node K α) : List α := n.cells.map Prod.snd ++ [n.last]

def map (f : α → β) (n : Node K α) : Node K β := ⟨n.cells.map (Prod.map id f), f n.last⟩

/-- What the children hold, from left to right. -/
def flat (f : α → List γ) (n : Node K α) : List γ := n.children.flatMap f

end Node

def Hole.map (f : α → β) : Hole K α → Hole K β
  | .cell before key after last =>
    .cell (before.map (Prod.map id f)) key (after.map (Prod.map id f)) (f last)
  | .atEnd cells => .atEnd (cells.map (Prod.map id f))

def Hole.leftOf (f : α → List γ) : Hole K α → List γ
  | .cell before _ _ _ => before.flatMap fun c => f c.2
  | .atEnd cells => cells.flatMap fun c => f c.2

def Hole.rightOf (f : α → List γ) : Hole K α → List γ
  | .cell _ _ after last => (after.flatMap fun c => f c.2) ++ f last
  | .atEnd _ => []

section route

variable [LT B] [DecidableLT B] (val : K → B)

/-- The child of the first cell whose key is greater than `x`, else the last. -/
def routeFrom (x : B) (before : List (K × α)) : List (K × α) → α → Hole K α × α
  | [], last => (.atEnd before, last)
  | (key, a) :: after, last =>
    if x < val key then (.cell before key after last, a)
      else routeFrom x (before ++ [(key, a)]) after last

def Node.route (x : B) (n : Node K α) : Hole K α × α := routeFrom val x [] n.cells n.last

end route

/-! ## Filling -/

@[simp] theorem Hole.flat_fill (f : α → List γ) (hole : Hole K α) (a : α) :
    (hole.fill a).flat f = hole.leftOf f ++ (f a ++ hole.rightOf f) := by
  cases hole <;> simp [Hole.fill, Node.flat, Node.children, Hole.leftOf, Hole.rightOf, List.flatMap_map]

@[simp] theorem Hole.flat_fill₂ (f : α → List γ) (hole : Hole K α) (a b : α) (separator : K) :
    (hole.fill₂ a separator b).flat f = hole.leftOf f ++ (f a ++ (f b ++ hole.rightOf f)) := by
  cases hole <;> simp [Hole.fill₂, Node.flat, Node.children, Hole.leftOf, Hole.rightOf, List.flatMap_map]

@[simp] theorem Hole.length_fill (hole : Hole K α) (a b : α) :
    (hole.fill a).cells.length = (hole.fill b).cells.length := by
  cases hole <;> simp [Hole.fill]

@[simp] theorem Hole.length_fill₂ (hole : Hole K α) (a b c : α) (separator : K) :
    (hole.fill₂ a separator b).cells.length = (hole.fill c).cells.length + 1 := by
  cases hole <;> simp [Hole.fill, Hole.fill₂]
  omega

theorem Hole.fill_map (f : α → β) (hole : Hole K α) (a : α) :
    (hole.fill a).map f = (hole.map f).fill (f a) := by
  cases hole <;> simp [Hole.fill, Hole.map, Node.map]

theorem Hole.fill₂_map (f : α → β) (hole : Hole K α) (a b : α) (separator : K) :
    (hole.fill₂ a separator b).map f = (hole.map f).fill₂ (f a) separator (f b) := by
  cases hole <;> simp [Hole.fill₂, Hole.map, Node.map]

theorem Hole.others_map (f : α → β) (hole : Hole K α) : (hole.map f).others = hole.others.map f := by
  cases hole <;> simp [Hole.others, Hole.map, Function.comp_def]

theorem Node.children_map (f : α → β) (n : Node K α) : (n.map f).children = n.children.map f := by
  simp [Node.children, Node.map, Function.comp_def]

@[simp] theorem Node.length_map (f : α → β) (n : Node K α) : (n.map f).cells.length = n.cells.length := by
  simp [Node.map]

theorem Hole.children_fill (hole : Hole K α) (a : α) :
    (hole.fill a).children.Perm (a :: hole.others) := by
  cases hole with
  | cell before key after last =>
    simp [Hole.fill, Node.children, Hole.others]
  | atEnd cells => exact List.perm_append_singleton _ _

theorem Hole.children_fill₂ (hole : Hole K α) (a b : α) (separator : K) :
    (hole.fill₂ a separator b).children.Perm (a :: b :: hole.others) := by
  cases hole with
  | cell before key after last =>
    have first : (before.map Prod.snd ++ a :: b :: (after.map Prod.snd ++ [last])).Perm
        (a :: (before.map Prod.snd ++ b :: (after.map Prod.snd ++ [last]))) := List.perm_middle
    simpa [Hole.fill₂, Node.children, Hole.others] using first.trans (List.perm_middle.cons a)
  | atEnd cells =>
    have swapped : (cells.map Prod.snd ++ [a, b]).Perm ([a, b] ++ cells.map Prod.snd) :=
      List.perm_append_comm
    simpa [Hole.fill₂, Node.children, Hole.others] using swapped

/-! ## Routing -/

section route

variable [LinearOrder B] (val : K → B)

theorem routeFrom_fill (x : B) (before cells : List (K × α)) (last : α) :
    (routeFrom val x before cells last).1.fill (routeFrom val x before cells last).2
      = ⟨before ++ cells, last⟩ := by
  induction cells generalizing before with
  | nil => simp [routeFrom, Hole.fill]
  | cons c cells ih =>
    rw [routeFrom]
    split
    · rfl
    · rw [ih]
      simp

/-- The hole `route` leaves is where the child was. -/
@[simp] theorem Node.fill_route (x : B) (n : Node K α) : (n.route val x).1.fill (n.route val x).2 = n :=
  routeFrom_fill val x [] n.cells n.last

theorem routeFrom_refill (x : B) (before cells : List (K × α)) (last a : α) :
    ∃ cells' last', (routeFrom val x before cells last).1.fill a = ⟨before ++ cells', last'⟩ ∧
      routeFrom val x before cells' last' = ((routeFrom val x before cells last).1, a) := by
  induction cells generalizing before with
  | nil => exact ⟨[], a, by simp [routeFrom, Hole.fill], rfl⟩
  | cons c cells ih =>
    obtain ⟨key, b⟩ := c
    by_cases less : x < val key
    · refine ⟨(key, a) :: cells, last, ?_, ?_⟩
      · rw [routeFrom, if_pos less]
        rfl
      · rw [routeFrom, routeFrom, if_pos less, if_pos less]
    · obtain ⟨cells', last', fill, route⟩ := ih (before ++ [(key, b)])
      rw [routeFrom, if_neg less]
      refine ⟨(key, b) :: cells', last', by rw [fill, List.append_assoc]; rfl, ?_⟩
      rw [routeFrom, if_neg less, route]

/-- Whatever is put into the hole, `route` finds it. -/
theorem Node.route_refill (x : B) (n : Node K α) (a : α) :
    ((n.route val x).1.fill a).route val x = ((n.route val x).1, a) := by
  obtain ⟨cells', last', fill, route⟩ := routeFrom_refill val x [] n.cells n.last a
  have same : (n.route val x).1.fill a = ⟨cells', last'⟩ := fill
  rw [same]
  exact route

theorem routeFrom_map (f : α → β) (x : B) (before cells : List (K × α)) (last : α) :
    routeFrom val x (before.map (Prod.map id f)) (cells.map (Prod.map id f)) (f last)
      = ((routeFrom val x before cells last).1.map f, f (routeFrom val x before cells last).2) := by
  induction cells generalizing before with
  | nil => simp [routeFrom, Hole.map]
  | cons c cells ih =>
    obtain ⟨key, a⟩ := c
    simp only [List.map_cons, Prod.map_apply, id_eq, routeFrom]
    split
    · simp [Hole.map]
    · rw [← ih]
      simp

theorem Node.route_map (f : α → β) (x : B) (n : Node K α) :
    (n.map f).route val x = ((n.route val x).1.map f, f (n.route val x).2) :=
  routeFrom_map val f x [] n.cells n.last

end route

/-! ## Fences -/

section fences

variable (val : K → B) (P : α → B → B → Prop)

/-- The children of `cells` have `P` between `lo`, the separators and `hi`, which ends them. -/
def Left : List (K × α) → B → B → Prop
  | [], lo, hi => lo = hi
  | (key, a) :: cells, lo, hi => P a lo (val key) ∧ Left cells (val key) hi

def Node.Fenced (n : Node K α) (lo hi : B) : Prop := ∃ mid, Left val P n.cells lo mid ∧ P n.last mid hi

/-- The fences of the missing child, when those of the others are right. -/
def Hole.Around (lo hi : B) : Hole K α → B → B → Prop
  | .cell before key after last, b, c =>
    Left val P before lo b ∧ c = val key ∧ ∃ mid, Left val P after c mid ∧ P last mid hi
  | .atEnd cells, b, c => Left val P cells lo b ∧ c = hi

variable {val P}

theorem left_append {xs ys : List (K × α)} {lo hi : B} :
    Left val P (xs ++ ys) lo hi ↔ ∃ mid, Left val P xs lo mid ∧ Left val P ys mid hi := by
  induction xs generalizing lo with
  | nil => simp [Left]
  | cons c xs ih => simp only [List.cons_append, Left, ih, ← exists_and_left, and_assoc]

theorem fenced_fill {hole : Hole K α} {a : α} {lo hi : B} :
    (hole.fill a).Fenced val P lo hi ↔ ∃ b c, hole.Around val P lo hi b c ∧ P a b c := by
  cases hole with
  | cell before key after last =>
    simp only [Hole.fill, Node.Fenced, Hole.Around, left_append, Left]
    constructor
    · rintro ⟨mid, ⟨b, left, here, right⟩, last⟩
      exact ⟨b, val key, ⟨left, rfl, mid, right, last⟩, here⟩
    · rintro ⟨b, c, ⟨left, rfl, mid, right, last⟩, here⟩
      exact ⟨mid, ⟨b, left, here, right⟩, last⟩
  | atEnd cells =>
    simp only [Hole.fill, Node.Fenced, Hole.Around]
    constructor
    · rintro ⟨mid, left, here⟩
      exact ⟨mid, hi, ⟨left, rfl⟩, here⟩
    · rintro ⟨b, c, ⟨left, rfl⟩, here⟩
      exact ⟨b, left, here⟩

/-- Two children fit where one did, with the separator between them. -/
theorem fenced_fill₂ {hole : Hole K α} {a b : α} {separator : K} {lo hi l r : B}
    (around : hole.Around val P lo hi l r) (left : P a l (val separator))
    (right : P b (val separator) r) :
    (hole.fill₂ a separator b).Fenced val P lo hi := by
  cases hole with
  | cell before key after last =>
    obtain ⟨before', rfl, mid, after', last'⟩ := around
    exact ⟨mid, left_append.mpr ⟨l, before', left, right, after'⟩, last'⟩
  | atEnd cells =>
    obtain ⟨before', rfl⟩ := around
    exact ⟨val separator, left_append.mpr ⟨l, before', left, rfl⟩, right⟩

theorem left_mono {P' : α → B → B → Prop} {cells : List (K × α)} {lo hi : B}
    (imp : ∀ c ∈ cells, ∀ b b', P c.2 b b' → P' c.2 b b') (left : Left val P cells lo hi) :
    Left val P' cells lo hi := by
  induction cells generalizing lo with
  | nil => exact left
  | cons c cells ih =>
    exact ⟨imp c List.mem_cons_self _ _ left.1,
      ih (fun c' member => imp c' (List.mem_cons_of_mem _ member)) left.2⟩

theorem Node.Fenced.imp {P' : α → B → B → Prop} {n : Node K α} {lo hi : B} (fenced : n.Fenced val P lo hi)
    (imp : ∀ c ∈ n.children, ∀ b b', P c b b' → P' c b b') : n.Fenced val P' lo hi := by
  obtain ⟨mid, left, last⟩ := fenced
  refine ⟨mid, left_mono (fun c member => imp c.2 ?_) left, imp n.last ?_ _ _ last⟩
  · exact List.mem_append_left _ (List.mem_map_of_mem member)
  · exact List.mem_append_right _ (List.mem_singleton_self _)

theorem Hole.Around.imp {P' : α → B → B → Prop} {hole : Hole K α} {lo hi b c : B}
    (around : hole.Around val P lo hi b c) (imp : ∀ a b b', P a b b' → P' a b b') :
    hole.Around val P' lo hi b c := by
  cases hole with
  | cell before key after last =>
    obtain ⟨left, same, mid, right, lastP⟩ := around
    exact ⟨left_mono (fun c _ => imp c.2) left, same, mid, left_mono (fun c _ => imp c.2) right,
      imp _ _ _ lastP⟩
  | atEnd cells =>
    obtain ⟨left, same⟩ := around
    exact ⟨left_mono (fun c _ => imp c.2) left, same⟩

section order

variable [LinearOrder B]

theorem left_le {cells : List (K × α)} {lo hi x : B} (left : Left val P cells lo hi) (low : lo ≤ x)
    (below : ∀ c ∈ cells, val c.1 ≤ x) : hi ≤ x := by
  induction cells generalizing lo with
  | nil => exact left ▸ low
  | cons c cells ih =>
    exact ih left.2 (below c List.mem_cons_self) fun c' member => below c' (List.mem_cons_of_mem _ member)

theorem routeFrom_around {x lo hi b c : B} {before cells : List (K × α)} {last : α}
    (below : ∀ d ∈ before, val d.1 ≤ x) (low : lo ≤ x) (high : x < hi)
    (around : (routeFrom val x before cells last).1.Around val P lo hi b c) : b ≤ x ∧ x < c := by
  induction cells generalizing before with
  | nil =>
    obtain ⟨left, rfl⟩ := around
    exact ⟨left_le left low below, high⟩
  | cons cell cells ih =>
    rw [routeFrom] at around
    split at around
    next less =>
      obtain ⟨left, rfl, -⟩ := around
      exact ⟨left_le left low below, less⟩
    next notLess =>
      refine ih (fun c' member => ?_) around
      rcases List.mem_append.mp member with old | new
      · exact below c' old
      · rw [List.mem_singleton.mp new]
        exact le_of_not_gt notLess

/-- A key within the node's bounds is within those of the child it is routed to. -/
theorem Node.route_around {n : Node K α} {x lo hi b c : B} (low : lo ≤ x) (high : x < hi)
    (around : (n.route val x).1.Around val P lo hi b c) : b ≤ x ∧ x < c :=
  routeFrom_around (fun _ member => absurd member List.not_mem_nil) low high around

theorem Node.Fenced.route {n : Node K α} {x lo hi : B} (fenced : n.Fenced val P lo hi) (low : lo ≤ x)
    (high : x < hi) :
    ∃ b c, (n.route val x).1.Around val P lo hi b c ∧ P (n.route val x).2 b c ∧ b ≤ x ∧ x < c := by
  rw [← n.fill_route val x, fenced_fill] at fenced
  obtain ⟨b, c, around, here⟩ := fenced
  exact ⟨b, c, around, here, Node.route_around low high around⟩

end order

end fences

/-! ## Splitting -/

/-- The node cut at cell `mid`, whose key moves up. -/
def Node.split (mid : Nat) (n : Node K α) : Option (Node K α × K × Node K α) :=
  match n.cells[mid]? with
  | some (key, a) => some (⟨n.cells.take mid, a⟩, key, ⟨n.cells.drop (mid + 1), n.last⟩)
  | none => none

theorem Node.cells_of_split {mid : Nat} {n l r : Node K α} {key : K}
    (cut : n.split mid = some (l, key, r)) :
    n.cells = l.cells ++ (key, l.last) :: r.cells ∧ r.last = n.last ∧ l.cells.length = mid := by
  rw [Node.split] at cut
  cases found : n.cells[mid]? with
  | none => rw [found] at cut; cases cut
  | some c =>
    obtain ⟨key', a⟩ := c
    rw [found] at cut
    simp only [Option.some.injEq, Prod.mk.injEq] at cut
    obtain ⟨rfl, rfl, rfl⟩ := cut
    obtain ⟨inside, at'⟩ := List.getElem?_eq_some_iff.mp found
    refine ⟨?_, rfl, by simp; omega⟩
    have cons := List.drop_eq_getElem_cons inside
    rw [at'] at cons
    rw [← cons, List.take_append_drop]

theorem Node.split_isSome {mid : Nat} {n : Node K α} (inside : mid < n.cells.length) :
    ∃ l key r, n.split mid = some (l, key, r) := by
  rw [Node.split, List.getElem?_eq_getElem inside]
  exact ⟨_, _, _, rfl⟩

theorem Node.flat_split {mid : Nat} {n l r : Node K α} {key : K} (cut : n.split mid = some (l, key, r))
    (f : α → List γ) : n.flat f = l.flat f ++ r.flat f := by
  obtain ⟨cells, last, -⟩ := Node.cells_of_split cut
  simp [Node.flat, Node.children, cells, last]

theorem Node.children_split {mid : Nat} {n l r : Node K α} {key : K}
    (cut : n.split mid = some (l, key, r)) :
    n.children = l.children ++ r.children := by
  obtain ⟨cells, last, -⟩ := Node.cells_of_split cut
  simp [Node.children, cells, last]

theorem Node.split_map {mid : Nat} {n l r : Node K α} {key : K} (cut : n.split mid = some (l, key, r))
    (f : α → β) : (n.map f).split mid = some (l.map f, key, r.map f) := by
  rw [Node.split] at cut
  cases found : n.cells[mid]? with
  | none => rw [found] at cut; cases cut
  | some c =>
    obtain ⟨key', a⟩ := c
    rw [found] at cut
    simp only [Option.some.injEq, Prod.mk.injEq] at cut
    obtain ⟨rfl, rfl, rfl⟩ := cut
    simp [Node.split, Node.map, found, List.map_take, List.map_drop]

theorem fenced_split {val : K → B} {P : α → B → B → Prop} {mid : Nat} {n l r : Node K α} {key : K}
    {lo hi : B} (cut : n.split mid = some (l, key, r)) (fenced : n.Fenced val P lo hi) :
    l.Fenced val P lo (val key) ∧ r.Fenced val P (val key) hi := by
  obtain ⟨cells, last, -⟩ := Node.cells_of_split cut
  obtain ⟨end', left, lastP⟩ := fenced
  rw [cells, left_append] at left
  obtain ⟨mid', left, here, right⟩ := left
  exact ⟨⟨mid', left, here⟩, end', right, by rw [last]; exact lastP⟩

/-! ## What the children hold is sorted -/

section sorted

variable [LinearOrder B] (key : γ → B)

/-- A list in strictly ascending order of its keys, which lie in `[lo, hi)`. -/
structure Within (l : List γ) (lo hi : B) : Prop where
  le : lo ≤ hi
  sorted : l.Pairwise fun x y => key x < key y
  bounds : ∀ x ∈ l, lo ≤ key x ∧ key x < hi

variable {key}

theorem Within.append {l l' : List γ} {lo mid hi : B} (first : Within key l lo mid)
    (second : Within key l' mid hi) : Within key (l ++ l') lo hi where
  le := le_trans first.le second.le
  sorted := List.pairwise_append.mpr ⟨first.sorted, second.sorted, fun x hx y hy =>
    lt_of_lt_of_le (first.bounds x hx).2 (second.bounds y hy).1⟩
  bounds := fun x member => by
    rcases List.mem_append.mp member with left | right
    · exact ⟨(first.bounds x left).1, lt_of_lt_of_le (first.bounds x left).2 second.le⟩
    · exact ⟨le_trans first.le (second.bounds x right).1, (second.bounds x right).2⟩

theorem Within.of_append {l l' : List γ} {lo hi : B} (h : Within key (l ++ l') lo hi) :
    (Within key l lo hi ∧ Within key l' lo hi) ∧ ∀ x ∈ l, ∀ y ∈ l', key x < key y := by
  obtain ⟨first, second, apart⟩ := List.pairwise_append.mp h.sorted
  exact ⟨⟨⟨h.le, first, fun x member => h.bounds x (List.mem_append_left _ member)⟩,
    ⟨h.le, second, fun x member => h.bounds x (List.mem_append_right _ member)⟩⟩, apart⟩

/-- Both pairs of bounds hold. -/
theorem Within.narrow {l : List γ} {lo lo' hi hi' x : B} (h : Within key l lo hi)
    (h' : Within key l lo' hi') (low : lo ≤ x) (low' : lo' ≤ x) (high : x < hi) (high' : x < hi') :
    Within key l (max lo lo') (min hi hi') where
  le := le_of_lt (lt_of_le_of_lt (max_le low low') (lt_min high high'))
  sorted := h.sorted
  bounds := fun y member => ⟨max_le (h.bounds y member).1 (h'.bounds y member).1,
    lt_min (h.bounds y member).2 (h'.bounds y member).2⟩

theorem Within.sublist {l l' : List γ} {lo hi : B} (h : Within key l lo hi) (sub : l'.Sublist l) :
    Within key l' lo hi where
  le := h.le
  sorted := h.sorted.sublist sub
  bounds := fun y member => h.bounds y (sub.mem member)

/-- A key occurs once. -/
theorem Within.unique {l : List γ} {lo hi : B} (h : Within key l lo hi) {x y : γ}
    (hx : x ∈ l) (hy : y ∈ l) (same : key x = key y) : x = y := by
  induction l with
  | nil => exact absurd hx List.not_mem_nil
  | cons z l ih =>
    have sorted := List.pairwise_cons.mp h.sorted
    rcases List.mem_cons.mp hx with rfl | hx' <;> rcases List.mem_cons.mp hy with rfl | hy'
    · rfl
    · exact absurd same (ne_of_lt (sorted.1 y hy'))
    · exact absurd same (ne_of_gt (sorted.1 x hx'))
    · exact ih (h.sublist (List.sublist_cons_self z l)) hx' hy'

/-- A key that is between its new neighbours and within the bounds. -/
theorem Within.insert {l l' : List γ} {lo hi : B} (h : Within key (l ++ l') lo hi) {x : γ}
    (below : ∀ y ∈ l, key y < key x) (above : ∀ y ∈ l', key x < key y)
    (inside : lo ≤ key x ∧ key x < hi) : Within key (l ++ x :: l') lo hi where
  le := h.le
  sorted := by
    obtain ⟨first, second, apart⟩ := List.pairwise_append.mp h.sorted
    refine List.pairwise_append.mpr ⟨first, List.pairwise_cons.mpr ⟨above, second⟩,
      fun y member z later => ?_⟩
    rcases List.mem_cons.mp later with rfl | old
    · exact below y member
    · exact apart y member z old
  bounds := fun y member => by
    rcases List.mem_append.mp member with before | later
    · exact h.bounds y (List.mem_append_left _ before)
    · rcases List.mem_cons.mp later with rfl | after
      · exact inside
      · exact h.bounds y (List.mem_append_right _ after)

theorem Within.nil {lo hi : B} (le : lo ≤ hi) : Within key ([] : List γ) lo hi :=
  ⟨le, List.Pairwise.nil, fun _ member => absurd member List.not_mem_nil⟩

variable {val : K → B} {f : α → List γ}

theorem within_left {cells : List (K × α)} {lo hi : B}
    (left : Left val (fun a => Within key (f a)) cells lo hi) :
    Within key (cells.flatMap fun c => f c.2) lo hi := by
  induction cells generalizing lo with
  | nil =>
    obtain rfl : lo = hi := left
    exact Within.nil (le_refl _)
  | cons c cells ih => exact left.1.append (ih left.2)

theorem Node.within {n : Node K α} {lo hi : B} (fenced : n.Fenced val (fun a => Within key (f a)) lo hi) :
    Within key (n.flat f) lo hi := by
  obtain ⟨mid, left, last⟩ := fenced
  have := (within_left left).append last
  simpa [Node.flat, Node.children, List.flatMap_map] using this

/-- What is left and right of a hole is outside the fences of the missing child. -/
theorem Hole.within {hole : Hole K α} {lo hi b c : B}
    (around : hole.Around val (fun a => Within key (f a)) lo hi b c) :
    Within key (hole.leftOf f) lo b ∧ Within key (hole.rightOf f) c hi := by
  cases hole with
  | cell before key' after last =>
    obtain ⟨left, -, mid, right, last⟩ := around
    exact ⟨within_left left, (within_left right).append last⟩
  | atEnd cells =>
    obtain ⟨left, rfl⟩ := around
    exact ⟨within_left left, Within.nil (le_refl _)⟩

end sorted

end SearchNode
