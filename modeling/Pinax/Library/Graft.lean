import Pinax.Library.SearchNode

/-! # Replacing a child by one node or by two

A `Part` is what an operation made of a node: one node, or two with a separator between them.
`Hole.graft` puts a part where a child was, and `Node.cut` splits a node that has grown too large.
`Node.fences` lists the children with the bounds their neighbours put up.
-/

namespace SearchNode

variable {K α β γ B : Type}

inductive Part (K α : Type)
  | one (a : α)
  | two (a : α) (separator : K) (b : α)

namespace Part

def nodes : Part K α → List α
  | .one a => [a]
  | .two a _ b => [a, b]

def map (f : α → β) : Part K α → Part K β
  | .one a => .one (f a)
  | .two a separator b => .two (f a) separator (f b)

def flat (f : α → List γ) (p : Part K α) : List γ := p.nodes.flatMap f

@[simp] theorem flat_one (f : α → List γ) (a : α) : (Part.one a : Part K α).flat f = f a := by
  simp [flat, nodes]

@[simp] theorem flat_two (f : α → List γ) (a b : α) (separator : K) :
    (Part.two a separator b).flat f = f a ++ f b := by
  simp [flat, nodes]

/-- The nodes have `P` between the bounds, and on both sides of the separator. -/
def Fenced (val : K → B) (P : α → B → B → Prop) : Part K α → B → B → Prop
  | .one a, lo, hi => P a lo hi
  | .two a separator b, lo, hi => P a lo (val separator) ∧ P b (val separator) hi

theorem Fenced.imp {val : K → B} {P P' : α → B → B → Prop} {p : Part K α} {lo hi : B}
    (h : p.Fenced val P lo hi) (imp : ∀ a lo hi, P a lo hi → P' a lo hi) : p.Fenced val P' lo hi := by
  cases p with
  | one a => exact imp _ _ _ h
  | two a separator b => exact ⟨imp _ _ _ h.1, imp _ _ _ h.2⟩

end Part

def Hole.graft (hole : Hole K α) : Part K α → Node K α
  | .one a => hole.fill a
  | .two a separator b => hole.fill₂ a separator b

/-- A node with more than `cap` separators is split in the middle. -/
def Node.cut (cap : Nat) (n : Node K α) : Part K (Node K α) :=
  if n.cells.length ≤ cap then .one n
  else
    match n.split (n.cells.length / 2) with
    | some (l, key, r) => .two l key r
    | none => .one n

/-! ## Grafting -/

theorem Hole.flat_graft (f : α → List γ) (hole : Hole K α) (p : Part K α) :
    (hole.graft p).flat f = hole.leftOf f ++ (p.flat f ++ hole.rightOf f) := by
  cases p with
  | one a => rw [Hole.graft, Hole.flat_fill, Part.flat_one]
  | two a separator b => rw [Hole.graft, Hole.flat_fill₂, Part.flat_two, List.append_assoc]

theorem Hole.children_graft (hole : Hole K α) (p : Part K α) :
    (hole.graft p).children.Perm (p.nodes ++ hole.others) := by
  cases p with
  | one a => exact hole.children_fill a
  | two a separator b => exact hole.children_fill₂ a b separator

theorem Hole.graft_map (f : α → β) (hole : Hole K α) (p : Part K α) :
    (hole.graft p).map f = (hole.map f).graft (p.map f) := by
  cases p with
  | one a => exact hole.fill_map f a
  | two a separator b => exact hole.fill₂_map f a b separator

theorem Hole.length_graft_le (hole : Hole K α) (p : Part K α) (a : α) :
    (hole.fill a).cells.length ≤ (hole.graft p).cells.length ∧
      (hole.graft p).cells.length ≤ (hole.fill a).cells.length + 1 := by
  cases p with
  | one b => rw [Hole.graft, hole.length_fill b a]; omega
  | two b separator c => rw [Hole.graft, hole.length_fill₂ b c a]; omega

theorem fenced_graft {val : K → B} {P : α → B → B → Prop} {hole : Hole K α} {p : Part K α} {lo hi b c : B}
    (around : hole.Around val P lo hi b c) (fenced : p.Fenced val P b c) :
    (hole.graft p).Fenced val P lo hi := by
  cases p with
  | one a => exact fenced_fill.mpr ⟨b, c, around, fenced⟩
  | two x separator y => exact fenced_fill₂ around fenced.1 fenced.2

/-! ## Cutting -/

theorem Node.cut_of_le {cap : Nat} {n : Node K α} (few : n.cells.length ≤ cap) :
    n.cut cap = .one n := if_pos few

/-- A node that is too large is cut into two. -/
theorem Node.cut_of_lt {cap : Nat} {n : Node K α} (many : cap < n.cells.length) :
    ∃ l key r, n.split (n.cells.length / 2) = some (l, key, r) ∧ n.cut cap = .two l key r := by
  obtain ⟨l, key, r, cut⟩ := Node.split_isSome (show n.cells.length / 2 < n.cells.length by omega)
  exact ⟨l, key, r, cut, by rw [Node.cut, if_neg (by omega), cut]⟩

theorem Node.flat_cut (f : α → List γ) (cap : Nat) (n : Node K α) :
    (n.cut cap).flat (Node.flat f) = n.flat f := by
  by_cases few : n.cells.length ≤ cap
  · rw [Node.cut_of_le few, Part.flat_one]
  · obtain ⟨l, key, r, split, cut⟩ := Node.cut_of_lt (Nat.not_le.mp few)
    rw [cut, Part.flat_two, Node.flat_split split]

theorem Node.children_cut (cap : Nat) (n : Node K α) :
    (n.cut cap).nodes.flatMap Node.children = n.children := by
  by_cases few : n.cells.length ≤ cap
  · rw [Node.cut_of_le few]
    simp [Part.nodes]
  · obtain ⟨l, key, r, split, cut⟩ := Node.cut_of_lt (Nat.not_le.mp few)
    rw [cut, Node.children_split split]
    simp [Part.nodes]

/-- The parts of a node that has one separator too many at most have as many as may be. -/
theorem Node.length_cut {cap : Nat} {n : Node K α} (two : 2 ≤ cap) (some : 1 ≤ n.cells.length)
    (most : n.cells.length ≤ cap + 1) :
    ∀ m ∈ (n.cut cap).nodes, 1 ≤ m.cells.length ∧ m.cells.length ≤ cap := by
  intro m member
  by_cases few : n.cells.length ≤ cap
  · rw [Node.cut_of_le few] at member
    obtain rfl := List.mem_singleton.mp member
    exact ⟨some, few⟩
  · obtain ⟨l, key, r, split, cut⟩ := Node.cut_of_lt (Nat.not_le.mp few)
    obtain ⟨cells, -, len⟩ := Node.cells_of_split split
    have total := congrArg List.length cells
    rw [List.length_append, List.length_cons] at total
    rw [cut] at member
    rcases List.mem_cons.mp member with rfl | right
    · omega
    · obtain rfl := List.mem_singleton.mp right
      omega

theorem fenced_cut {val : K → B} {P : α → B → B → Prop} {n : Node K α} {lo hi : B}
    (fenced : n.Fenced val P lo hi) (cap : Nat) :
    (n.cut cap).Fenced val (fun m => m.Fenced val P) lo hi := by
  by_cases few : n.cells.length ≤ cap
  · rw [Node.cut_of_le few]
    exact fenced
  · obtain ⟨l, key, r, split, cut⟩ := Node.cut_of_lt (Nat.not_le.mp few)
    rw [cut]
    exact fenced_split split fenced

/-! ## Fences of the children -/

/-- The children of `cells` and the last one, each with its fences. -/
def fencesFrom (val : K → B) : List (K × α) → α → B → B → List (α × B × B)
  | [], last, lo, hi => [(last, lo, hi)]
  | (key, a) :: cells, last, lo, hi => (a, lo, val key) :: fencesFrom val cells last (val key) hi

def Node.fences (val : K → B) (n : Node K α) (lo hi : B) : List (α × B × B) :=
  fencesFrom val n.cells n.last lo hi

section order

variable [LinearOrder B] {val : K → B} {P : α → B → B → Prop}

/-- No fences admit a key below them. -/
theorem fencesFrom_above {cells : List (K × α)} {last : α} {x lo hi mid : B} (below : x < lo)
    (ordered : ∀ a b c, P a b c → b ≤ c) (left : Left val P cells lo mid) :
    (fencesFrom val cells last lo hi).filter (fun f => f.2.1 ≤ x ∧ x < f.2.2) = [] := by
  induction cells generalizing lo with
  | nil =>
    simp only [fencesFrom, List.filter_eq_nil_iff, List.mem_singleton, forall_eq, decide_eq_true_eq]
    exact fun admits => absurd admits.1 (not_le_of_gt below)
  | cons c cells ih =>
    obtain ⟨key, a⟩ := c
    have higher : x < val key := lt_of_lt_of_le below (ordered _ _ _ left.1)
    rw [fencesFrom, List.filter_cons_of_neg (by simpa using fun low => absurd low (not_le_of_gt below))]
    exact ih higher left.2

theorem fencesFrom_route {cells before : List (K × α)} {last : α} {x lo hi mid : B}
    (low : lo ≤ x) (high : x < hi) (ordered : ∀ a b c, P a b c → b ≤ c) (left : Left val P cells lo mid) :
    ∃ b c, (fencesFrom val cells last lo hi).filter (fun f => f.2.1 ≤ x ∧ x < f.2.2)
      = [((routeFrom val x before cells last).2, b, c)] := by
  induction cells generalizing lo before with
  | nil => exact ⟨lo, hi, by simp [fencesFrom, routeFrom, low, high]⟩
  | cons c cells ih =>
    obtain ⟨key, a⟩ := c
    by_cases less : x < val key
    · refine ⟨lo, val key, ?_⟩
      rw [fencesFrom, List.filter_cons_of_pos (by simpa using ⟨low, less⟩),
        fencesFrom_above less ordered left.2, routeFrom, if_pos less]
    · rw [fencesFrom, List.filter_cons_of_neg (by simpa using fun _ => le_of_not_gt less),
        routeFrom, if_neg less]
      exact ih (le_of_not_gt less) left.2

/-- Exactly one child admits a key between the node's bounds: the one the key is routed to. -/
theorem Node.fences_route {n : Node K α} {x lo hi : B} (fenced : n.Fenced val P lo hi)
    (ordered : ∀ a b c, P a b c → b ≤ c) (low : lo ≤ x) (high : x < hi) :
    ∃ b c, (n.fences val lo hi).filter (fun f => f.2.1 ≤ x ∧ x < f.2.2) =
      [((n.route val x).2, b, c)] := by
  obtain ⟨mid, left, -⟩ := fenced
  exact fencesFrom_route low high ordered left

theorem left_bounds {cells : List (K × α)} {lo hi : B} (ordered : ∀ a b c, P a b c → b ≤ c)
    (left : Left val P cells lo hi) :
    lo ≤ hi := by
  induction cells generalizing lo with
  | nil => exact le_of_eq left
  | cons c cells ih => exact le_trans (ordered _ _ _ left.1) (ih left.2)

theorem mem_fencesFrom {cells : List (K × α)} {last a : α} {lo mid hi : B}
    (ordered : ∀ a b c, P a b c → b ≤ c) (left : Left val P cells lo mid) (here : P last mid hi)
    (member : a ∈ cells.map Prod.snd ++ [last]) :
    ∃ b c, (a, b, c) ∈ fencesFrom val cells last lo hi ∧ P a b c ∧ lo ≤ b ∧ c ≤ hi := by
  induction cells generalizing lo with
  | nil =>
    obtain rfl := List.mem_singleton.mp member
    obtain rfl : lo = mid := left
    exact ⟨lo, hi, List.mem_cons_self, here, le_refl lo, le_refl hi⟩
  | cons c cells ih =>
    obtain ⟨key, a'⟩ := c
    obtain ⟨first, rest⟩ := left
    cases List.mem_cons.mp member with
    | inl same =>
      rw [same]
      exact ⟨lo, val key, List.mem_cons_self, first, le_refl lo,
        le_trans (left_bounds ordered rest) (ordered _ _ _ here)⟩
    | inr later =>
      obtain ⟨b, c, listed, holds, low, high⟩ := ih rest later
      exact ⟨b, c, List.mem_cons_of_mem _ listed, holds, le_trans (ordered _ _ _ first) low, high⟩

/-- Every child has fences, with `P` between them and within the bounds of the node. -/
theorem Node.mem_fences {n : Node K α} {a : α} {lo hi : B} (ordered : ∀ a b c, P a b c → b ≤ c)
    (fenced : n.Fenced val P lo hi) (child : a ∈ n.children) :
    ∃ b c, (a, b, c) ∈ n.fences val lo hi ∧ P a b c ∧ lo ≤ b ∧ c ≤ hi := by
  obtain ⟨mid, left, here⟩ := fenced
  exact mem_fencesFrom ordered left here child

/-- A child is the one that any key between its fences is routed to. -/
theorem Node.route_of_mem_fences {n : Node K α} {a : α} {x lo hi b c : B}
    (ordered : ∀ a b c, P a b c → b ≤ c) (fenced : n.Fenced val P lo hi)
    (listed : (a, b, c) ∈ n.fences val lo hi) (within : lo ≤ b ∧ c ≤ hi) (low : b ≤ x) (high : x < c) :
    (n.route val x).2 = a := by
  obtain ⟨b', c', only⟩ :=
    Node.fences_route fenced ordered (le_trans within.1 low) (lt_of_lt_of_le high within.2)
  have admits : (a, b, c) ∈ (n.fences val lo hi).filter fun f => f.2.1 ≤ x ∧ x < f.2.2 :=
    List.mem_filter.mpr ⟨listed, decide_eq_true ⟨low, high⟩⟩
  rw [only] at admits
  exact (congrArg Prod.fst (List.mem_singleton.mp admits)).symm

/-- When no child has equal fences, the separators ascend strictly. -/
theorem left_keys {cells : List (K × α)} {lo hi : B} (strict : ∀ a b c, P a b c → b < c)
    (left : Left val P cells lo hi) :
    (∀ c ∈ cells, lo < val c.1) ∧ cells.Pairwise fun c d => val c.1 < val d.1 := by
  induction cells generalizing lo with
  | nil => exact ⟨fun c none => absurd none List.not_mem_nil, List.Pairwise.nil⟩
  | cons c cells ih =>
    obtain ⟨first, rest⟩ := left
    obtain ⟨above, sorted⟩ := ih rest
    have here := strict _ _ _ first
    refine ⟨fun d member => ?_, List.pairwise_cons.mpr ⟨above, sorted⟩⟩
    cases List.mem_cons.mp member with
    | inl same =>
      rw [same]
      exact here
    | inr later => exact lt_trans here (above d later)

theorem Node.Fenced.keys_sorted {n : Node K α} {lo hi : B} (fenced : n.Fenced val P lo hi)
    (strict : ∀ a b c, P a b c → b < c) :
    n.keys.Pairwise fun k l => val k < val l := by
  obtain ⟨mid, left, -⟩ := fenced
  exact List.pairwise_map.mpr (left_keys strict left).2

theorem Node.Fenced.bounds {n : Node K α} {lo hi : B} (fenced : n.Fenced val P lo hi)
    (strict : ∀ a b c, P a b c → b < c) : lo < hi := by
  obtain ⟨mid, left, here⟩ := fenced
  exact lt_of_le_of_lt (left_bounds (fun a b c holds => le_of_lt (strict a b c holds)) left)
    (strict _ _ _ here)

end order

end SearchNode
