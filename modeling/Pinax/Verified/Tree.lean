import Pinax.Library.Graft
import Pinax.Verified.Chain
import Pinax.Verified.InteriorPage

/-! # The tree behind a root

A `Tree h` is a tree whose leaves are all `h` levels below its root; its nodes carry the ids of their
pages.  `Stored` says which pages hold it, `Sized` and `Ordered` are its invariants, and `graft` is what
an operation makes of it that replaces the leaf of a key.
-/

namespace Pinax

open SearchNode (Node Hole Part Within fenced_fill fenced_graft fenced_cut)

/-- A live cell of a leaf, the pages of its overflow chain, and the row it holds. -/
structure Entry where
  cell : LeafCell
  ids : List Nat
  row : Row

structure Leaf where
  id : Nat
  start : Nat
  entries : List Entry

structure Inner (α : Type) where
  id : Nat
  node : Node I64 α

def Tree : Nat → Type
  | 0 => Leaf
  | h + 1 => Inner (Tree h)

def Entry.key (e : Entry) : Int := e.cell.key.val
def Leaf.cells (leaf : Leaf) : List LeafCell := leaf.entries.map Entry.cell
def Leaf.pages (leaf : Leaf) : List Nat := leaf.id :: leaf.entries.flatMap Entry.ids

/-- The bounds of an `i64`. -/
def minKey : Int := -9223372036854775808
def endKey : Int := 9223372036854775808

namespace Tree

variable {h : Nat}

def inner (id : Nat) (node : Node I64 (Tree h)) : Tree (h + 1) := (⟨id, node⟩ : Inner (Tree h))

def node (t : Tree (h + 1)) : Node I64 (Tree h) := Inner.node t

@[simp] theorem node_inner (id : Nat) (node : Node I64 (Tree h)) : (inner id node).node = node := rfl

def id : {h : Nat} → Tree h → Nat
  | 0, t => Leaf.id t
  | _ + 1, t => Inner.id t

/-- The pages of the tree, those of its overflow chains among them. -/
def pages : {h : Nat} → Tree h → List Nat
  | 0, t => Leaf.pages t
  | _ + 1, t => Inner.id t :: t.node.flat fun c => c.pages

/-- The live cells from left to right. -/
def entries : {h : Nat} → Tree h → List Entry
  | 0, t => Leaf.entries t
  | _ + 1, t => t.node.flat fun c => c.entries

/-- The contents in key order. -/
def rows (t : Tree h) : List (I64 × Row) := t.entries.map fun e => (e.cell.key, e.row)

/-- The separators of every interior page, from the root down and from left to right. -/
def separators : {h : Nat} → Tree h → List (List I64)
  | 0, _ => []
  | _ + 1, t => t.node.keys :: t.node.flat fun c => c.separators

/-- Every interior page has between 1 and `cap` keys. -/
def Sized (cap : Nat) : {h : Nat} → Tree h → Prop
  | 0, _ => True
  | _ + 1, t => 1 ≤ t.node.cells.length ∧ t.node.cells.length ≤ cap ∧ ∀ c ∈ t.node.children, Sized cap c

/-- What a child has between its fences: its keys lie between them, and it is `Ordered` itself.  In a
`nested` tree its separators lie between them, too. -/
def Between (nested : Bool) (ordered : Tree h → Int → Int → Prop) (c : Tree h) (b e : Int) : Prop :=
  Within Entry.key c.entries b e ∧ ordered c (if nested then b else minKey) (if nested then e else endKey)

/-- Separators do not decrease, the keys under a child lie between its separators, and those of a
leaf are strictly ascending. -/
def Ordered (nested : Bool) : {h : Nat} → Tree h → Int → Int → Prop
  | 0, t, lo, hi => Within Entry.key (Leaf.entries t) lo hi
  | _ + 1, t, lo, hi => t.node.Fenced I64.val (Between nested (Ordered nested)) lo hi

/-! ## The leaf of a key -/

section key

variable (key : I64)

/-- The child `key` is routed to. -/
def child (t : Tree (h + 1)) : Tree h := (t.node.route I64.val key.val).2

/-- The node without that child. -/
def hole (t : Tree (h + 1)) : Hole I64 (Tree h) := (t.node.route I64.val key.val).1

/-- The leaf `key` is routed to. -/
def leafFor : {h : Nat} → Tree h → Leaf
  | 0, t => t
  | _ + 1, t => (t.child key).leafFor

/-- The pages below the root on the way to that leaf. -/
def path : {h : Nat} → Tree h → List Nat
  | 0, _ => []
  | _ + 1, t => (t.child key).id :: (t.child key).path

/-- The interior pages on that way, from the root down. -/
def spine : {h : Nat} → Tree h → List Nat
  | 0, _ => []
  | _ + 1, t => Inner.id t :: (t.child key).spine

/-- The live cells left of that leaf. -/
def left : {h : Nat} → Tree h → List Entry
  | 0, _ => []
  | _ + 1, t => (t.hole key).leftOf entries ++ (t.child key).left

/-- The live cells right of that leaf. -/
def right : {h : Nat} → Tree h → List Entry
  | 0, _ => []
  | _ + 1, t => (t.child key).right ++ (t.hole key).rightOf entries

/-- The pages of the tree that belong neither to that leaf nor to its spine. -/
def rest : {h : Nat} → Tree h → List Nat
  | 0, _ => []
  | _ + 1, t => (t.hole key).leftOf pages ++ ((t.hole key).rightOf pages ++ (t.child key).rest)

/-- The leaves between whose separators, at every level, `key` lies. -/
def leavesFor : {h : Nat} → Tree h → List Leaf
  | 0, t => [t]
  | _ + 1, t =>
    ((t.node.fences I64.val minKey endKey).filter fun f => f.2.1 ≤ key.val ∧ key.val < f.2.2).flatMap
      fun f => f.1.leavesFor

/-! ## Replacing that leaf -/

/-- Interior nodes get the next page ids, from left to right. -/
def number : Part I64 (Node I64 (Tree h)) → Nat → Part I64 (Tree (h + 1)) × Nat
  | .one node, n => (.one (inner n node), n + 1)
  | .two node separator node', n => (.two (inner n node) separator (inner (n + 1) node'), n + 2)

/-- The tree with `p` in the place of the key's leaf: the nodes above it are copied under the ids
from `n` on, and those with more than `cap` keys split; with the next free id. -/
def graft (cap : Nat) (p : Part I64 Leaf) : {h : Nat} → Tree h → Nat → Part I64 (Tree h) × Nat
  | 0, _, n => (p, n)
  | _ + 1, t, n =>
    let below := (t.child key).graft cap p n
    number (((t.hole key).graft below.1).cut cap) below.2

end key

end Tree

variable {h : Nat} {key : I64} {nested : Bool} {lo hi : Int}

theorem I64.between (key : I64) : minKey ≤ key.val ∧ key.val < endKey := ⟨key.lower, key.upper⟩

namespace Tree

/-! ## What a tree holds -/

@[simp] theorem fill_child (key : I64) (t : Tree (h + 1)) : (t.hole key).fill (t.child key) = t.node :=
  t.node.fill_route I64.val key.val

theorem Ordered.within {t : Tree h} (ordered : t.Ordered nested lo hi) :
    Within Entry.key t.entries lo hi := by
  cases h with
  | zero => exact ordered
  | succ h =>
    have fenced : t.node.Fenced I64.val _ lo hi := ordered
    exact Node.within (f := entries) (fenced.imp fun c _ b e both => both.1)

/-- The child a key between the bounds is routed to lies between fences that admit the key. -/
theorem Ordered.route {t : Tree (h + 1)} (ordered : t.Ordered nested lo hi) (low : lo ≤ key.val)
    (high : key.val < hi) :
    ∃ b e, (t.hole key).Around I64.val (Between nested (Ordered nested)) lo hi b e ∧
      Between nested (Ordered nested) (t.child key) b e ∧ b ≤ key.val ∧ key.val < e := by
  have fenced : t.node.Fenced I64.val _ lo hi := ordered
  exact fenced.route low high

/-- The bounds of a child admit the key, nested or not. -/
theorem bounds_of {b e : Int} (nested : Bool) (inside : b ≤ key.val ∧ key.val < e) :
    (if nested then b else minKey) ≤ key.val ∧ key.val < (if nested then e else endKey) := by
  cases nested with
  | true => exact inside
  | false => exact key.between

theorem entries_eq (key : I64) (t : Tree h) :
    t.entries = t.left key ++ ((t.leafFor key).entries ++ t.right key) := by
  induction h with
  | zero => exact (List.append_nil _).symm
  | succ h ih =>
    have whole := congrArg (Node.flat entries) (fill_child key t)
    rw [Hole.flat_fill, ih] at whole
    refine whole.symm.trans ?_
    rw [left, right, leafFor]
    simp only [List.append_assoc]

/-- The keys left of the key's leaf are smaller, and those right of it are greater. -/
theorem Ordered.around {t : Tree h} (ordered : t.Ordered nested lo hi) (low : lo ≤ key.val)
    (high : key.val < hi) :
    (∀ e ∈ t.left key, e.key < key.val) ∧ ∀ e ∈ t.right key, key.val < e.key := by
  induction h generalizing lo hi with
  | zero =>
    exact ⟨fun e member => absurd member List.not_mem_nil, fun e member => absurd member List.not_mem_nil⟩
  | succ h ih =>
    obtain ⟨b, e, around, child, inside⟩ := ordered.route low high
    have outside := Hole.within (f := entries) (around.imp fun c b e both => both.1)
    have admits := bounds_of nested inside
    have deeper := ih child.2 admits.1 admits.2
    constructor
    · intro x member
      rcases List.mem_append.mp member with here | below
      · exact lt_of_lt_of_le (outside.1.bounds x here).2 inside.1
      · exact deeper.1 x below
    · intro x member
      rcases List.mem_append.mp member with below | here
      · exact deeper.2 x below
      · exact lt_of_lt_of_le inside.2 (outside.2.bounds x here).1

theorem Ordered.leaf {t : Tree h} (ordered : t.Ordered nested lo hi) (low : lo ≤ key.val)
    (high : key.val < hi) :
    ∃ b e, Within Entry.key (t.leafFor key).entries b e ∧ b ≤ key.val ∧ key.val < e := by
  induction h generalizing lo hi with
  | zero => exact ⟨lo, hi, ordered, low, high⟩
  | succ h ih =>
    obtain ⟨b, e, -, child, inside⟩ := ordered.route low high
    have admits := bounds_of nested inside
    exact ih child.2 admits.1 admits.2

/-- Exactly one leaf lies between separators that admit the key: the one it is routed to. -/
theorem Ordered.leavesFor_eq {t : Tree h} (ordered : t.Ordered false minKey endKey) (key : I64) :
    t.leavesFor key = [t.leafFor key] := by
  induction h with
  | zero => rfl
  | succ h ih =>
    have fenced : t.node.Fenced I64.val (Between false (Ordered false)) minKey endKey := ordered
    obtain ⟨b, e, only⟩ :=
      Node.fences_route fenced (fun c b e both => both.1.le) key.between.1 key.between.2
    obtain ⟨b', e', -, child, -⟩ := ordered.route key.between.1 key.between.2
    rw [leavesFor, only, List.flatMap_singleton, leafFor]
    exact ih child.2

/-- A key is in the tree when it is in its leaf. -/
theorem Ordered.mem_leaf {t : Tree h} (ordered : t.Ordered nested lo hi) (low : lo ≤ key.val)
    (high : key.val < hi) {e : Entry} (member : e ∈ t.entries) (same : e.cell.key = key) :
    e ∈ (t.leafFor key).entries := by
  obtain ⟨left, right⟩ := ordered.around low high
  rw [t.entries_eq key] at member
  have equal : e.key = key.val := congrArg I64.val same
  rcases List.mem_append.mp member with before | later
  · exact absurd (left e before) (by omega)
  · rcases List.mem_append.mp later with here | after
    · exact here
    · exact absurd (right e after) (by omega)

theorem mem_of_mem_leaf {t : Tree h} {e : Entry} (member : e ∈ (t.leafFor key).entries) :
    e ∈ t.entries := by
  rw [t.entries_eq key]
  exact List.mem_append_right _ (List.mem_append_left _ member)

/-! ## Its pages -/

theorem flat_perm {γ : Type} (f : Tree h → List γ) (key : I64) (t : Tree (h + 1)) :
    (t.node.flat f).Perm (f (t.child key) ++ ((t.hole key).leftOf f ++ (t.hole key).rightOf f)) := by
  rw [← fill_child key t, Hole.flat_fill]
  exact List.perm_append_comm_assoc _ _ _

theorem pages_perm (key : I64) (t : Tree h) :
    t.pages.Perm (t.spine key ++ ((t.leafFor key).pages ++ t.rest key)) := by
  induction h with
  | zero => rw [rest, List.append_nil]; exact List.Perm.refl _
  | succ h ih =>
    have parts := (flat_perm pages key t).trans ((ih _).append_right _)
    rw [rest, leafFor, spine, List.cons_append]
    refine List.Perm.cons _ (parts.trans (List.perm_iff_count.mpr fun id => ?_))
    simp only [List.count_append]
    omega

theorem id_mem_pages (t : Tree h) : t.id ∈ t.pages := by
  cases h with
  | zero => exact List.mem_cons_self
  | succ h => exact List.mem_cons_self

theorem pages_child {t : Tree (h + 1)} {c : Tree h} (child : c ∈ t.node.children) {id : Nat}
    (member : id ∈ c.pages) :
    id ∈ t.pages :=
  List.mem_cons_of_mem _ (List.mem_flatMap.mpr ⟨c, child, member⟩)

theorem children_perm (key : I64) (t : Tree (h + 1)) :
    t.node.children.Perm (t.child key :: (t.hole key).others) := by
  rw [← fill_child key t]
  exact (t.hole key).children_fill (t.child key)

theorem child_mem (key : I64) (t : Tree (h + 1)) : t.child key ∈ t.node.children :=
  (children_perm key t).mem_iff.mpr List.mem_cons_self

theorem mem_others {t : Tree (h + 1)} {c : Tree h} (member : c ∈ (t.hole key).others) :
    c ∈ t.node.children :=
  (children_perm key t).mem_iff.mpr (List.mem_cons_of_mem _ member)

/-! ## Grafting -/

theorem flat_number {γ : Type} (f : Node I64 (Tree h) → List γ)
    (p : Part I64 (Node I64 (Tree h))) (n : Nat) :
    (number p n).1.flat (fun t => f t.node) = p.flat f := by
  cases p with
  | one node => rfl
  | two node separator node' => rfl

/-- The contents change in the leaf only. -/
theorem entries_graft (key : I64) (cap : Nat) (p : Part I64 Leaf) (t : Tree h) (n : Nat) :
    (t.graft key cap p n).1.flat entries = t.left key ++ (p.flat Leaf.entries ++ t.right key) := by
  induction h with
  | zero => exact (List.append_nil _).symm
  | succ h ih =>
    have below := ih (t.child key)
    rw [graft, left, right]
    generalize (t.child key).graft key cap p n = q at below ⊢
    have numbered := flat_number (Node.flat entries) (((t.hole key).graft q.1).cut cap) q.2
    rw [Node.flat_cut, Hole.flat_graft, below] at numbered
    refine numbered.trans ?_
    simp only [List.append_assoc]

/-- Each copied node takes a page. -/
theorem pages_number (p : Part I64 (Node I64 (Tree h))) (n : Nat) :
    n ≤ (number p n).2 ∧ ((number p n).1.flat pages).Perm
      (List.range' n ((number p n).2 - n) ++ p.flat fun node => node.flat pages) := by
  cases p with
  | one node =>
    refine ⟨Nat.le_succ n, ?_⟩
    rw [number, Part.flat_one, Part.flat_one, Nat.add_sub_cancel_left]
    exact List.Perm.refl _
  | two node separator node' =>
    refine ⟨Nat.le_add_right n 2, ?_⟩
    rw [number, Part.flat_two, Part.flat_two, Nat.add_sub_cancel_left]
    have swap : (node.flat pages ++ (n + 1) :: node'.flat pages).Perm
      ((n + 1) :: (node.flat pages ++ node'.flat pages)) :=
      List.perm_middle
    exact swap.cons n

theorem pages_graft (key : I64) (cap : Nat) (p : Part I64 Leaf) (t : Tree h) (n : Nat) :
    n ≤ (t.graft key cap p n).2 ∧ ((t.graft key cap p n).1.flat pages).Perm
      (List.range' n ((t.graft key cap p n).2 - n) ++ (p.flat Leaf.pages ++ t.rest key)) := by
  induction h with
  | zero =>
    refine ⟨Nat.le_refl n, ?_⟩
    rw [graft, rest, Nat.sub_self, List.append_nil]
    exact List.Perm.refl _
  | succ h ih =>
    obtain ⟨grown, below⟩ := ih (t.child key)
    rw [graft, rest]
    generalize (t.child key).graft key cap p n = q at grown below ⊢
    obtain ⟨more, numbered⟩ := pages_number (((t.hole key).graft q.1).cut cap) q.2
    refine ⟨Nat.le_trans grown more, numbered.trans ?_⟩
    rw [Node.flat_cut, Hole.flat_graft, ← range'_append_range' grown more]
    refine List.perm_iff_count.mpr fun id => ?_
    have count := List.perm_iff_count.mp below id
    simp only [List.count_append] at count ⊢
    omega

theorem mem_number {p : Part I64 (Node I64 (Tree h))} {n : Nat} {t : Tree (h + 1)}
    (member : t ∈ (number p n).1.nodes) :
    t.node ∈ p.nodes := by
  cases p with
  | one node =>
    obtain rfl := List.mem_singleton.mp member
    exact List.mem_cons_self
  | two node separator node' =>
    rcases List.mem_cons.mp member with rfl | second
    · exact List.mem_cons_self
    · obtain rfl := List.mem_singleton.mp second
      exact List.mem_cons_of_mem _ List.mem_cons_self

/-- The children of the copied nodes are those of the node that was cut. -/
theorem mem_children_number {cap n : Nat} {node : Node I64 (Tree h)} {t : Tree (h + 1)} {c : Tree h}
    (member : t ∈ (number (node.cut cap) n).1.nodes) (child : c ∈ t.node.children) :
    c ∈ node.children := by
  rw [← Node.children_cut cap node]
  exact List.mem_flatMap.mpr ⟨t.node, mem_number member, child⟩

theorem sized_graft (key : I64) {cap : Nat} (two : 2 ≤ cap) (p : Part I64 Leaf) {t : Tree h}
    (sized : t.Sized cap) (n : Nat) :
    ∀ t' ∈ (t.graft key cap p n).1.nodes, t'.Sized cap := by
  induction h with
  | zero => exact fun _ _ => trivial
  | succ h ih =>
    obtain ⟨some, few, children⟩ := sized
    have below := ih (children _ (child_mem key t))
    rw [graft]
    generalize (t.child key).graft key cap p n = q at below ⊢
    have size := (t.hole key).length_graft_le q.1 (t.child key)
    rw [fill_child] at size
    intro t' member
    have fits := Node.length_cut two (by omega) (by omega) t'.node (mem_number member)
    refine ⟨fits.1, fits.2, fun c child => ?_⟩
    rcases List.mem_append.mp ((Hole.children_graft _ q.1).mem_iff.mp
      (mem_children_number member child)) with new | old
    · exact below c new
    · exact children c (mem_others old)

/-- The part may take the leaf's place wherever it stands. -/
def Replaces (key : I64) (leaf : Leaf) (p : Part I64 Leaf) : Prop :=
  ∀ b e, Within Entry.key leaf.entries b e → b ≤ key.val → key.val < e →
    p.Fenced I64.val (fun l => Within Entry.key l.entries) b e

/-- In a nested tree, splits separate. -/
theorem Ordered.graft (cap : Nat) {p : Part I64 Leaf} {t : Tree h} (ordered : t.Ordered true lo hi)
    (low : lo ≤ key.val) (high : key.val < hi) (replaces : Replaces key (t.leafFor key) p) (n : Nat) :
    (t.graft key cap p n).1.Fenced I64.val (Ordered true) lo hi := by
  induction h generalizing lo hi with
  | zero => exact replaces lo hi ordered low high
  | succ h ih =>
    obtain ⟨b, e, around, child, inside⟩ := ordered.route low high
    have below := ih child.2 inside.1 inside.2 replaces
    rw [Tree.graft]
    generalize (t.child key).graft key cap p n = q at below ⊢
    have grafted :=
      fenced_cut (fenced_graft around (below.imp fun c b e ordered => ⟨ordered.within, ordered⟩)) cap
    generalize ((t.hole key).graft q.1).cut cap = halves at grafted ⊢
    cases halves with
    | one node => exact grafted
    | two node separator node' => exact grafted

/-- Replacing the leaf by one leaf keeps the shape of the tree: no node is split, and the separators
stay. -/
theorem graft_one (key : I64) {cap : Nat} {t : Tree h} (sized : t.Sized cap) (leaf : Leaf) (n : Nat) :
    ∃ t', t.graft key cap (.one leaf) n = (.one t', n + h) ∧ t'.separators = t.separators ∧
      t'.leafFor key = leaf := by
  induction h with
  | zero => exact ⟨leaf, rfl, rfl, rfl⟩
  | succ h ih =>
    obtain ⟨-, few, children⟩ := sized
    obtain ⟨c, below, same, found⟩ := ih (children _ (child_mem key t))
    have length := (t.hole key).length_fill c (t.child key)
    rw [fill_child] at length
    rw [Tree.graft, below]
    refine ⟨inner (n + h) ((t.hole key).fill c), ?_, ?_, ?_⟩
    · rw [Hole.graft, Node.cut_of_le (by omega)]
      rfl
    · have keys : ((t.hole key).fill c).keys = t.node.keys := by
        rw [← fill_child key t]
        cases t.hole key <;> simp [Hole.fill, Node.keys]
      have flat : ((t.hole key).fill c).flat separators = t.node.flat separators := by
        rw [← fill_child key t, Hole.flat_fill, Hole.flat_fill, same]
      show ((t.hole key).fill c).keys :: ((t.hole key).fill c).flat separators =
        t.node.keys :: t.node.flat separators
      rw [keys, flat]
    · have child : Tree.child key (inner (n + h) ((t.hole key).fill c)) = c :=
        congrArg Prod.snd (Node.route_refill I64.val key.val t.node c)
      rw [leafFor, child, found]

/-- Replacing the leaf by one leaf keeps the order, nested or not. -/
theorem Ordered.graft_one {cap : Nat} {t t' : Tree h} {leaf : Leaf} {n n' : Nat} (sized : t.Sized cap)
    (grafted : t.graft key cap (.one leaf) n = (.one t', n'))
    (replaces : Replaces key (t.leafFor key) (.one leaf)) {b e : Int}
    (within : Within Entry.key t.entries b e) (inside : b ≤ key.val ∧ key.val < e)
    (ordered : t.Ordered nested lo hi) (low : lo ≤ key.val) (high : key.val < hi) :
    t'.Ordered nested lo hi ∧ Within Entry.key t'.entries b e := by
  induction h generalizing lo hi b e n' with
  | zero =>
    obtain ⟨same, -⟩ := Prod.mk.inj grafted
    obtain rfl := Part.one.inj same
    exact ⟨replaces lo hi ordered low high, replaces b e within inside.1 inside.2⟩
  | succ h ih =>
    obtain ⟨b', e', around, child, inside'⟩ := ordered.route low high
    obtain ⟨-, few, children⟩ := sized
    have childSized := children _ (child_mem key t)
    obtain ⟨c, below, -⟩ := Tree.graft_one key childSized leaf n
    have length := (t.hole key).length_fill c (t.child key)
    rw [fill_child] at length
    rw [Tree.graft, below, Hole.graft, Node.cut_of_le (by omega)] at grafted
    obtain ⟨same, -⟩ := Prod.mk.inj grafted
    obtain rfl := Part.one.inj same
    have admits := bounds_of nested inside'
    -- the child's keys lie between its own fences and between those the whole tree is given
    have entries : t.entries = (t.hole key).leftOf Tree.entries ++
      ((t.child key).entries ++ (t.hole key).rightOf Tree.entries) := by
      rw [← Hole.flat_fill, fill_child]
      rfl
    rw [entries] at within
    obtain ⟨⟨leftHere, rest⟩, -⟩ := within.of_append
    obtain ⟨⟨childHere, rightHere⟩, -⟩ := rest.of_append
    have outside := Hole.within (f := Tree.entries) (around.imp fun c b e both => both.1)
    have narrow := childHere.narrow child.1 inside.1 inside'.1 inside.2 inside'.2
    have bounds : max b b' ≤ key.val ∧ key.val < min e e' :=
      ⟨max_le inside.1 inside'.1, lt_min inside.2 inside'.2⟩
    obtain ⟨-, narrow'⟩ := ih childSized below replaces narrow bounds child.2 admits.1 admits.2
    obtain ⟨child', own⟩ := ih childSized below replaces child.1 inside' child.2 admits.1 admits.2
    refine ⟨fenced_fill.mpr ⟨b', e', around, own, child'⟩, ?_⟩
    have left' : Within Entry.key ((t.hole key).leftOf Tree.entries) b (max b b') :=
      ⟨le_max_left _ _, leftHere.sorted, fun x member => ⟨(leftHere.bounds x member).1,
        lt_of_lt_of_le (outside.1.bounds x member).2 (le_max_right _ _)⟩⟩
    have right' : Within Entry.key ((t.hole key).rightOf Tree.entries) (min e e') e :=
      ⟨min_le_left _ _, rightHere.sorted,
        fun x member => ⟨le_trans (min_le_right _ _) (outside.2.bounds x member).1,
        (rightHere.bounds x member).2⟩⟩
    show Within Entry.key (((t.hole key).fill c).flat Tree.entries) b e
    rw [Hole.flat_fill]
    exact left'.append (narrow'.append right')

end Tree

end Pinax
