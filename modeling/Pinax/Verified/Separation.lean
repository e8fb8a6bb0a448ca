import Mathlib.Algebra.Order.BigOperators.Group.List
import Pinax.Verified.LongRows

/-! # Splits that separate

A leaf split puts the second half of the cells, by count, into the right leaf.  Where the leaf held
another cell besides the one that is stored, both halves hold a cell, and the separator lies
strictly between those on both sides of the leaf.  So the separators of a page ascend strictly,
every leaf is the leaf of some key, and the pages of a tree are bounded by its rows and the
deletions so far.
-/

namespace Pinax

open Hoare (Ends final)
open SearchNode (Node Hole Part Within fenced_graft fenced_cut)

variable {env : Env} {h : Nat} {t : Tree h} {key : I64} {ps : PageSize} {lo hi : Int} {n : Nat}
  {P : Leaf → Int → Int → Prop} {p : Part I64 Leaf} {leaf : Leaf} {e : Entry}

/-! ## The leaves of a tree -/

namespace Tree

/-- Every leaf has `P` between the separators on both sides of it. -/
def LeavesFenced (P : Leaf → Int → Int → Prop) : {h : Nat} → Tree h → Int → Int → Prop
  | 0, t, lo, hi => P t lo hi
  | _ + 1, t, lo, hi => t.node.Fenced I64.val (LeavesFenced P) lo hi

/-- The leaves from left to right. -/
def leaves : {h : Nat} → Tree h → List Leaf
  | 0, t => [t]
  | _ + 1, t => t.node.flat fun c => c.leaves

/-- The pages of the tree, those of its overflow chains apart. -/
def nodes : {h : Nat} → Tree h → List Nat
  | 0, t => [Leaf.id t]
  | _ + 1, t => Inner.id t :: t.node.flat fun c => c.nodes

/-- The leaves but that of the key. -/
def otherLeaves (key : I64) : {h : Nat} → Tree h → List Leaf
  | 0, _ => []
  | _ + 1, t =>
    (t.child key).otherLeaves key ++ ((t.hole key).leftOf leaves ++ (t.hole key).rightOf leaves)

/-- How many leaves hold no row. -/
def emptied (t : Tree h) : Nat := t.leaves.countP fun leaf => leaf.entries.isEmpty

theorem leaves_perm (key : I64) (t : Tree h) : t.leaves.Perm (t.leafFor key :: t.otherLeaves key) := by
  induction h with
  | zero => exact List.Perm.refl _
  | succ h ih =>
    have parts := (flat_perm leaves key t).trans ((ih (t.child key)).append_right _)
    exact parts

theorem leaves_graft (key : I64) (cap : Nat) (p : Part I64 Leaf) (t : Tree h) (n : Nat) :
    ((t.graft key cap p n).1.flat leaves).Perm (p.nodes ++ t.otherLeaves key) := by
  induction h with
  | zero =>
    rw [graft, otherLeaves, List.append_nil]
    cases p with
    | one a => exact List.Perm.refl _
    | two a separator b => exact List.Perm.refl _
  | succ h ih =>
    have below := ih (t.child key)
    rw [graft, otherLeaves]
    generalize (t.child key).graft key cap p n = q at below ⊢
    have numbered := flat_number (Node.flat leaves) (((t.hole key).graft q.1).cut cap) q.2
    rw [Node.flat_cut, Hole.flat_graft] at numbered
    rw [show (number (((t.hole key).graft q.1).cut cap) q.2).1.flat leaves = _ from numbered,
      ← List.append_assoc p.nodes]
    exact (List.perm_append_comm_assoc _ _ _).trans (below.append_right _)

theorem leaves_rooted (part : Part I64 (Tree h) × Nat) :
    (rooted part).1.2.leaves = part.1.flat leaves := by
  obtain ⟨p, n⟩ := part
  cases p with
  | one t => exact (Part.flat_one _ _).symm
  | two a separator b =>
    rw [Part.flat_two]
    show a.leaves ++ (b.leaves ++ []) = _
    rw [List.append_nil]

theorem leaves_replaceLeaf (ps : PageSize) (key : I64) (t : Tree h) (part : Part I64 Leaf × Nat) :
    (t.replaceLeaf ps key part).1.2.leaves.Perm (part.1.nodes ++ t.otherLeaves key) := by
  rw [replaceLeaf, leaves_rooted]
  exact leaves_graft key _ part.1 t part.2

theorem entries_leaves (t : Tree h) : t.entries = t.leaves.flatMap Leaf.entries := by
  induction h with
  | zero => exact (List.flatMap_singleton _ _).symm
  | succ h ih =>
    show (t.node.children.flatMap fun c => c.entries) =
      (t.node.children.flatMap fun c => c.leaves).flatMap Leaf.entries
    rw [List.flatMap_assoc]
    exact List.flatMap_congr fun c _ => ih c

/-- A leaf that holds a row takes no more than one. -/
theorem length_leaves (t : Tree h) : t.leaves.length ≤ t.emptied + t.entries.length := by
  rw [entries_leaves, emptied]
  induction t.leaves with
  | nil => exact Nat.zero_le _
  | cons leaf leaves ih =>
    rw [List.countP_cons, List.flatMap_cons, List.length_append, List.length_cons]
    cases some : leaf.entries with
    | nil => simp only [List.isEmpty_nil, if_true]; omega
    | cons e rest => simp only [List.isEmpty_cons, List.length_cons]; omega

/-- Every interior page has at least two children. -/
theorem Sized.length_nodes {cap : Nat} (sized : t.Sized cap) : t.nodes.length < 2 * t.leaves.length := by
  induction h with
  | zero => exact Nat.lt_succ_self 1
  | succ h ih =>
    obtain ⟨some, -, children⟩ := sized
    have count : 2 ≤ t.node.children.length := by
      rw [Node.children, List.length_append, List.length_map]
      exact Nat.succ_le_succ some
    have whole : ∀ cs : List (Tree h), (∀ c ∈ cs, c ∈ t.node.children) →
        (cs.flatMap fun c => c.nodes).length + cs.length ≤ 2 * (cs.flatMap fun c => c.leaves).length := by
      intro cs inside
      induction cs with
      | nil => exact Nat.le_refl 0
      | cons c cs rest =>
        have first := ih (children c (inside c List.mem_cons_self))
        have later := rest fun d member => inside d (List.mem_cons_of_mem _ member)
        simp only [List.flatMap_cons, List.length_append, List.length_cons]
        omega
    have sum := whole t.node.children fun _ member => member
    show (Inner.id t :: t.node.children.flatMap fun c => c.nodes).length <
      2 * (t.node.children.flatMap fun c => c.leaves).length
    rw [List.length_cons]
    omega

/-- The pages of a tree are its leaf and interior pages and those of its overflow chains. -/
theorem pages_nodes (t : Tree h) : t.pages.Perm (t.nodes ++ t.entries.flatMap Entry.ids) := by
  induction h with
  | zero => exact List.Perm.refl _
  | succ h ih =>
    show (Inner.id t :: t.node.children.flatMap fun c => c.pages).Perm
      ((Inner.id t :: t.node.children.flatMap fun c => c.nodes) ++
        (t.node.children.flatMap fun c => c.entries).flatMap Entry.ids)
    refine List.Perm.cons _ ?_
    rw [List.flatMap_assoc]
    induction t.node.children with
    | nil => exact List.Perm.refl _
    | cons c cs rest =>
      simp only [List.flatMap_cons]
      have both := (ih c).append rest
      refine both.trans (List.perm_iff_count.mpr fun id => ?_)
      simp only [List.append_eq, List.count_append]
      omega

/-! ## The separators on both sides of a leaf -/

/-- The child a key between the bounds is routed to lies between separators that admit the key. -/
theorem LeavesFenced.route {t : Tree (h + 1)} (fenced : t.LeavesFenced P lo hi) (low : lo ≤ key.val)
    (high : key.val < hi) :
    ∃ b e, (t.hole key).Around I64.val (LeavesFenced P) lo hi b e ∧ (t.child key).LeavesFenced P b e ∧
      b ≤ key.val ∧ key.val < e := by
  have fenced : t.node.Fenced I64.val (LeavesFenced P) lo hi := fenced
  exact Node.Fenced.route fenced low high

/-- What takes the place of the key's leaf has `P`, too. -/
theorem LeavesFenced.graft (cap : Nat) (fenced : t.LeavesFenced P lo hi) (low : lo ≤ key.val)
    (high : key.val < hi) (replaces : ∀ b e, P (t.leafFor key) b e → b ≤ key.val → key.val < e →
      p.Fenced I64.val P b e) (n : Nat) :
    (t.graft key cap p n).1.Fenced I64.val (LeavesFenced P) lo hi := by
  induction h generalizing lo hi with
  | zero => exact replaces lo hi fenced low high
  | succ h ih =>
    obtain ⟨b, e, around, child, inside⟩ := LeavesFenced.route fenced low high
    have below := ih child inside.1 inside.2 replaces
    rw [Tree.graft]
    generalize (t.child key).graft key cap p n = q at below ⊢
    have whole := fenced_cut (fenced_graft around below) cap
    generalize ((t.hole key).graft q.1).cut cap = halves at whole ⊢
    cases halves with
    | one node => exact whole
    | two node separator node' => exact whole

theorem LeavesFenced.rooted {part : Part I64 (Tree h) × Nat}
    (fenced : part.1.Fenced I64.val (LeavesFenced P) lo hi) :
    (rooted part).1.2.LeavesFenced P lo hi := by
  obtain ⟨p, n⟩ := part
  cases p with
  | one t => exact fenced
  | two a separator b => exact ⟨separator.val, ⟨fenced.1, rfl⟩, fenced.2⟩

theorem LeavesFenced.replaceLeaf (fenced : t.LeavesFenced P minKey endKey) (part : Part I64 Leaf × Nat)
    (replaces : ∀ b e, P (t.leafFor key) b e → b ≤ key.val → key.val < e → part.1.Fenced I64.val P b e) :
    (t.replaceLeaf ps key part).1.2.LeavesFenced P minKey endKey :=
  LeavesFenced.rooted (fenced.graft _ key.between.1 key.between.2 replaces part.2)

theorem LeavesFenced.bounds (strict : ∀ leaf b e, P leaf b e → b < e)
    (fenced : t.LeavesFenced P lo hi) : lo < hi := by
  induction h generalizing lo hi with
  | zero => exact strict t lo hi fenced
  | succ h ih =>
    have fenced : t.node.Fenced I64.val (LeavesFenced P) lo hi := fenced
    exact fenced.bounds fun c b e below => ih below

/-- The separators of every interior page ascend strictly. -/
theorem LeavesFenced.separators (strict : ∀ leaf b e, P leaf b e → b < e)
    (fenced : t.LeavesFenced P lo hi) :
    ∀ keys ∈ t.separators, keys.Pairwise fun k l => k.val < l.val := by
  induction h generalizing lo hi with
  | zero => exact fun keys none => absurd none List.not_mem_nil
  | succ h ih =>
    have fenced : t.node.Fenced I64.val (LeavesFenced P) lo hi := fenced
    have apart : ∀ c b e, LeavesFenced (h := h) P c b e → b < e :=
      fun c b e below => LeavesFenced.bounds strict below
    intro keys member
    cases List.mem_cons.mp member with
    | inl here =>
      rw [here]
      exact fenced.keys_sorted apart
    | inr deeper =>
      obtain ⟨c, child, inside⟩ := List.mem_flatMap.mp deeper
      obtain ⟨b, e, -, below, -⟩ :=
        Node.mem_fences (fun c b e holds => le_of_lt (apart c b e holds)) fenced child
      exact ih below keys inside

/-- Every leaf is the leaf of a key. -/
theorem LeavesFenced.reached (strict : ∀ leaf b e, P leaf b e → b < e)
    (fenced : t.LeavesFenced P lo hi) (low : minKey ≤ lo) (high : hi ≤ endKey)
    (member : leaf ∈ t.leaves) :
    ∃ key : I64, lo ≤ key.val ∧ key.val < hi ∧ t.leafFor key = leaf := by
  induction h generalizing lo hi with
  | zero =>
    obtain rfl := List.mem_singleton.mp member
    have apart := strict _ lo hi fenced
    exact ⟨⟨lo, low, lt_of_lt_of_le apart high⟩, le_refl lo, apart, rfl⟩
  | succ h ih =>
    have fenced : t.node.Fenced I64.val (LeavesFenced P) lo hi := fenced
    have ordered : ∀ c b e, LeavesFenced (h := h) P c b e → b ≤ e :=
      fun c b e below => le_of_lt (LeavesFenced.bounds strict below)
    obtain ⟨c, child, inside⟩ := List.mem_flatMap.mp member
    obtain ⟨b, e, listed, below, within⟩ := Node.mem_fences ordered fenced child
    obtain ⟨key, above, under, found⟩ := ih below (le_trans low within.1) (le_trans within.2 high) inside
    have routed : t.child key = c := Node.route_of_mem_fences ordered fenced listed within above under
    exact ⟨key, le_trans within.1 above, lt_of_lt_of_le under within.2, by rw [leafFor, routed, found]⟩

end Tree

/-! ## Halves that hold rows -/

/-- The keys of the leaf lie between the separators on both sides of it, which differ. -/
def Leaf.Apart (leaf : Leaf) (b e : Int) : Prop := Within Entry.key leaf.entries b e ∧ b < e

theorem Leaf.Apart.lt {leaf : Leaf} {b e : Int} (apart : leaf.Apart b e) : b < e := apart.2

theorem Within.lt {γ : Type} {f : γ → Int} {l : List γ} (within : Within f l lo hi)
    (some : l ≠ []) : lo < hi := by
  obtain ⟨x, member⟩ := List.exists_mem_of_ne_nil l some
  exact lt_of_le_of_lt (within.bounds x member).1 (within.bounds x member).2

theorem Tree.Replaces.apart (replaces : Tree.Replaces key leaf p)
    (some : ∀ a separator b, p = .two a separator b → a.entries ≠ [] ∧ b.entries ≠ []) {b e : Int}
    (apart : leaf.Apart b e) (low : b ≤ key.val) (high : key.val < e) :
    p.Fenced I64.val Leaf.Apart b e := by
  have within := replaces b e apart.1 low high
  cases p with
  | one a => exact ⟨within, apart.2⟩
  | two a separator b =>
    obtain ⟨left, right⟩ := some a separator b rfl
    exact ⟨⟨within.1, Within.lt within.1 left⟩, within.2, Within.lt within.2 right⟩

/-- Two cells or more are split into two halves that hold some. -/
theorem halves_some (all : List Entry) (two : 2 ≤ all.length) :
    firstHalf all ≠ [] ∧ secondHalf all ≠ [] := by
  constructor
  · intro none
    have length := congrArg List.length none
    rw [firstHalf, List.length_take, List.length_nil] at length
    omega
  · intro none
    have length := List.drop_eq_nil_iff.mp none
    omega

theorem Leaf.insertPart_some {index : Nat} (inside : index ≤ leaf.entries.length)
    (other : leaf.Roomy e.cell ∨ leaf.entries ≠ []) :
    ∀ l ∈ (leaf.insertPart ps index e n).1.nodes, l.entries ≠ [] := by
  intro l member
  rw [Leaf.insertPart] at member
  split at member
  next roomy =>
    obtain rfl := List.mem_singleton.mp member
    exact insertIdx_ne_nil inside
  next full =>
    have others := List.length_pos_iff.mpr (other.resolve_left full)
    have count : (leaf.entries.insertIdx index e).length = leaf.entries.length + 1 :=
      List.length_insertIdx_of_le_length inside e
    have halves := halves_some (leaf.entries.insertIdx index e) (by omega)
    cases List.mem_cons.mp member with
    | inl first =>
      rw [first]
      exact halves.1
    | inr second =>
      rw [List.mem_singleton.mp second]
      exact halves.2

/-- The key's leaf is not split for its row, or it holds the row of another key, too. -/
def Tree.SplitsApart (ps : PageSize) (t : Tree h) (key : I64) (encoded : Bytes) : Prop :=
  t.Unsplit ps key encoded ∨ ((t.leafFor key).without key).entries ≠ []

variable {nested : Bool} {v : Pages} {row : Row} {encoded : Bytes}

theorem Tree.WellFormed.cutAt (wellFormed : t.WellFormed nested ps v n) (key : I64) :
    ∃ left mid right, CutAt key (t.leafFor key).entries left mid right := by
  obtain ⟨b, e, within, -⟩ := wellFormed.ordered.leaf key.between.1 key.between.2
  obtain ⟨buf, -, page⟩ := (wellFormed.stored.leaf key).page
  obtain ⟨result, -, cut⟩ := Leaf.search page within key
  obtain ⟨left, mid, right, cutAt, -⟩ := cut.cutAt within
  exact ⟨left, mid, right, cutAt⟩

theorem Tree.putPart_some (row : Row) (n : Nat) {left mid right : List Entry}
    (cut : CutAt key (t.leafFor key).entries left mid right) (apart : t.SplitsApart ps key encoded) :
    ∀ l ∈ (t.putPart ps key row encoded n).1.nodes, l.entries ≠ [] := by
  obtain ⟨without, rank⟩ := cut.without
  refine Leaf.insertPart_some ?_ ?_
  · rw [without, rank, List.length_append]
    exact Nat.le_add_right _ _
  · -- whether the cell has room does not depend on the id of its first overflow page
    exact apart

theorem Tree.putPart_replaces (ps : PageSize) (row : Row) (encoded : Bytes) (n : Nat)
    {left mid right : List Entry} (cut : CutAt key (t.leafFor key).entries left mid right) :
    Tree.Replaces key (t.leafFor key) (t.putPart ps key row encoded n).1 := by
  obtain ⟨without, rank⟩ := cut.without
  rw [Tree.putPart, without, rank]
  have same : (rowEntry ps key row encoded n).cell.key = key := rfl
  exact Leaf.insertPart_replaces ps cut.split _ same cut.below cut.above _

/-- The empty leaves after a leaf was replaced by leaves that hold rows. -/
theorem Tree.emptied_replaceLeaf (part : Part I64 Leaf × Nat)
    (few : (part.1.nodes.countP fun leaf => leaf.entries.isEmpty) ≤ n) :
    (t.replaceLeaf ps key part).1.2.emptied ≤ t.emptied + n := by
  rw [emptied, emptied, (t.leaves_replaceLeaf ps key part).countP_eq, (t.leaves_perm key).countP_eq,
    List.countP_append, List.countP_cons]
  omega

/-- Putting a row keeps the leaves apart, and empties none. -/
theorem Tree.WellFormed.putRow_apart (wellFormed : t.WellFormed nested ps v n)
    (fenced : t.LeavesFenced Leaf.Apart minKey endKey) (apart : t.SplitsApart ps key encoded)
    (row : Row) (n : Nat) :
    (t.putRow ps key row encoded n).1.2.LeavesFenced Leaf.Apart minKey endKey ∧
      (t.putRow ps key row encoded n).1.2.emptied ≤ t.emptied := by
  obtain ⟨left, mid, right, cut⟩ := wellFormed.cutAt key
  have some := t.putPart_some row n cut apart
  constructor
  · refine fenced.replaceLeaf (t.putPart ps key row encoded n) fun b e here low high => ?_
    refine (t.putPart_replaces ps row encoded n cut).apart (fun a separator b same => ?_) here low high
    rw [same] at some
    exact ⟨some a List.mem_cons_self, some b (List.mem_cons_of_mem _ List.mem_cons_self)⟩
  · refine Tree.emptied_replaceLeaf (t.putPart ps key row encoded n) (n := 0) (Nat.le_of_eq ?_)
    refine List.countP_eq_zero.mpr fun l member none => some l member (List.isEmpty_iff.mp none)

/-- Dropping a row keeps the leaves apart, and empties one at most. -/
theorem Tree.dropRow_apart (fenced : t.LeavesFenced Leaf.Apart minKey endKey) (ps : PageSize)
    (key : I64) (n : Nat) :
    (t.dropRow ps key n).1.2.LeavesFenced Leaf.Apart minKey endKey ∧
      (t.dropRow ps key n).1.2.emptied ≤ t.emptied + 1 := by
  constructor
  · refine fenced.replaceLeaf _ fun b e here low high => ?_
    exact ⟨here.1.sublist List.filter_sublist, here.2⟩
  · exact Tree.emptied_replaceLeaf _ List.countP_le_length

/-- A chain has no more pages than its payload has bytes. -/
theorem Chain.length_le {v : Pages} {first need : Nat} {ids : List Nat} {data : Bytes}
    (chain : Chain ps v first need ids data) :
    ids.length ≤ need := by
  induction chain with
  | stop done => exact Nat.zero_le _
  | link nonzero more known page amount rest ih =>
    have cap := overflowChunkCap_pos ps
    rw [List.length_cons]
    omega

theorem Entry.Stored.length_ids (stored : e.Stored ps v) : e.ids.length ≤ e.cell.payloadLen := by
  obtain ⟨payload, ⟨tail, chain, -⟩, -⟩ := stored
  exact Nat.le_trans chain.length_le (Nat.sub_le _ _)

theorem Tree.Stored.entries (stored : t.Stored ps v) : ∀ e ∈ t.entries, e.Stored ps v := by
  induction h with
  | zero => exact Leaf.Stored.entries stored
  | succ h ih =>
    intro e member
    obtain ⟨c, child, inside⟩ := List.mem_flatMap.mp member
    exact ih (stored.2 c child) e inside

/-! ## Runs -/

/-- The separators of each page ascend strictly, every leaf is the leaf of a key, and the rows and
deletions bound the pages. -/
structure Tree.Separated (t : Tree h) (deletions : Nat) : Prop where
  ascending : ∀ keys ∈ t.separators, keys.Pairwise fun k l => k.val < l.val
  reached : ∀ leaf ∈ t.leaves, ∃ key, t.leafFor key = leaf
  bounded : t.pages.length < 2 * (t.rows.length + deletions) +
    (t.entries.map fun e => e.cell.payloadLen).sum

theorem Tree.WellFormed.separated (wellFormed : t.WellFormed nested ps v n)
    (fenced : t.LeavesFenced Leaf.Apart minKey endKey) {deletions : Nat}
    (few : t.emptied ≤ deletions) : t.Separated deletions where
  ascending := fenced.separators fun _ _ _ apart => apart.lt
  reached := fun leaf member => by
    obtain ⟨key, -, -, found⟩ :=
      fenced.reached (fun _ _ _ apart => apart.lt) (le_refl _) (le_refl _) member
    exact ⟨key, found⟩
  bounded := by
    have nodes := wellFormed.sized.length_nodes
    have leaves := t.length_leaves
    have rows : t.rows.length = t.entries.length := List.length_map _
    have chains : (t.entries.flatMap Entry.ids).length ≤
      (t.entries.map fun e => e.cell.payloadLen).sum := by
      rw [List.length_flatMap]
      exact List.sum_le_sum fun e member => (wellFormed.stored.entries e member).length_ids
    rw [t.pages_nodes.length_eq, List.length_append]
    omega

def Call.deletes : Call → Bool
  | .delete _ => true
  | .insert _ _ | .get _ | .update _ _ | .scan => false

namespace Content

/-- The call splits no leaf that holds no other row than the call's. -/
def SplitsApart (ps : PageSize) (c : Content) : Call → Prop
  | .insert key row =>
    ∀ t ∈ c, c.rows.lookup key = none → ∀ encoded, row.encode key = .ok encoded →
      t.2.SplitsApart ps key encoded
  | .update key row =>
    ∀ t ∈ c, c.rows.lookup key ≠ none → ∀ encoded, row.encode key = .ok encoded →
      t.2.SplitsApart ps key encoded
  | .get _ | .delete _ | .scan => True

/-- The leaves that the call splits the leaf of its key into. -/
def halves (ps : PageSize) (n : Nat) (c : Content) : Call → Option (Leaf × Leaf)
  | .insert key row | .update key row => c.bind fun t => t.2.halves ps key row n
  | .get _ | .delete _ | .scan => none

/-- What is true of the contents of a run with the calls of `log`. -/
def Spread (log : List Call) (c : Content) : Prop :=
  ∀ t ∈ c, t.2.LeavesFenced Leaf.Apart minKey endKey ∧ t.2.emptied ≤ log.countP Call.deletes

end Content

def BufferPool.SplitsApart (env : Env) (s : BufferPool) (call : Call) : Prop :=
  ∀ c, s.Contains env c → c.SplitsApart s.pager.pageSize call

/-- Calls that split no leaf into halves that do not fit, and none that holds no other row than the
call's. -/
def separating (env : Env) : CallGuard :=
  fun call fuel s => fitting env call fuel s ∧ s.SplitsApart env call

variable {session : Session} {log : List Call} {c : Content} {call : Call}

/-- A row that is put. -/
theorem Content.Spread.put {root : Nat} {key : I64} (planted : c.Planted ps v n root)
    (spread : c.Spread log) (apart : ∀ t ∈ c, t.2.SplitsApart ps key encoded) (row : Row) (n : Nat) :
    Content.Spread log (some (c.put ps key row encoded n).1) := by
  intro t' member
  obtain rfl := Option.some.inj member
  cases c with
  | none =>
    refine ⟨⟨⟨by decide, List.pairwise_singleton _ _, fun e here => ?_⟩, by decide⟩, Nat.zero_le _⟩
    obtain rfl := List.mem_singleton.mp here
    exact key.between
  | some t =>
    obtain ⟨fenced, few⟩ := spread t rfl
    obtain ⟨fenced', fewer⟩ := (planted.wellFormed t rfl).putRow_apart fenced (apart t rfl) row n
    exact ⟨fenced', Nat.le_trans fewer few⟩

theorem Content.Spread.skip (spread : c.Spread log) (call : Call) : c.Spread (log ++ [call]) := by
  intro t member
  obtain ⟨fenced, few⟩ := spread t member
  refine ⟨fenced, Nat.le_trans few ?_⟩
  rw [List.countP_append]
  exact Nat.le_add_right _ _

/-- The row of a call that is not refused has an encoding. -/
theorem Content.put_of_answer (ps : PageSize) {reply : Reply} {row : Row}
    (answer : c.answer call = .ok reply) (puts : call = .insert key row ∨ call = .update key row) :
    ∃ encoded, row.encode key = .ok encoded ∧
      (c.SplitsApart ps call → ∀ t ∈ c, t.2.SplitsApart ps key encoded) := by
  cases puts with
  | inl insert =>
    subst insert
    by_cases present : (c.rows.lookup key).isSome
    · cases (if_pos present).symm.trans answer
    · obtain ⟨encoded, encodes, -⟩ := map_ok ((if_neg present).symm.trans answer)
      exact ⟨encoded, encodes, fun apart t member => apart t member
        (Option.not_isSome_iff_eq_none.mp present) encoded encodes⟩
  | inr update =>
    subst update
    by_cases present : (c.rows.lookup key).isSome
    · obtain ⟨encoded, encodes, -⟩ := map_ok ((if_pos present).symm.trans answer)
      exact ⟨encoded, encodes, fun apart t member => apart t member
        (Option.isSome_iff_ne_none.mp present) encoded encodes⟩
    · cases (if_neg present).symm.trans answer

theorem separating_tracks (env : Env) : Tracks env (separating env) Content.Spread where
  empty := fun t none => by cases none
  skip := fun log c call spread => spread.skip call
  step := by
    intro log c call reply fuel s contains guard spread mutates answer _
    have apart := guard.2 c contains
    cases call with
    | insert key row =>
      obtain ⟨encoded, encodes, splits⟩ := Content.put_of_answer _ answer (Or.inl rfl)
      rw [Content.after_insert encodes]
      exact (spread.put contains (splits apart) row _).skip _
    | update key row =>
      obtain ⟨encoded, encodes, splits⟩ := Content.put_of_answer _ answer (Or.inr rfl)
      rw [Content.after_update encodes]
      exact (spread.put contains (splits apart) row _).skip _
    | delete key =>
      intro t' member
      obtain ⟨t, present, rfl⟩ := Option.map_eq_some_iff.mp member
      obtain ⟨fenced, few⟩ := spread t present
      obtain ⟨fenced', fewer⟩ := Tree.dropRow_apart fenced s.pager.pageSize key s.nextPageId
      refine ⟨fenced', Nat.le_trans fewer ?_⟩
      rw [List.countP_append]
      exact Nat.add_le_add_right few 1
    | get key => exact absurd mutates id
    | scan => exact absurd mutates id

/-- The halves of a split hold rows, and are leaves of the tree that the call commits. -/
theorem Content.Planted.halves_some {root : Nat} {reply : Reply} (planted : c.Planted ps v n root)
    (apart : c.SplitsApart ps call) (answer : c.answer call = .ok reply) {a b : Leaf}
    (split : c.halves ps n call = some (a, b)) :
    a.entries ≠ [] ∧ b.entries ≠ [] ∧ ∀ t ∈ c.after ps n call, a ∈ t.2.leaves ∧ b ∈ t.2.leaves := by
  -- an insert and an update put a row in the same way
  have puts : ∀ key row encoded, row.encode key = .ok encoded →
    (∀ t ∈ c, t.2.SplitsApart ps key encoded) →
      c.halves ps n (.insert key row) = some (a, b) → a.entries ≠ [] ∧ b.entries ≠ [] ∧
        ∀ t ∈ some (c.put ps key row encoded n).1, a ∈ t.2.leaves ∧ b ∈ t.2.leaves := by
    intro key row encoded encodes splits split
    cases c with
    | none => cases split
    | some t =>
      have split : t.2.halves ps key row n = some (a, b) := split
      rw [Tree.halves, encodes] at split
      simp only at split
      obtain ⟨left, mid, right, cut⟩ := (planted.wellFormed t rfl).cutAt key
      have some := t.2.putPart_some row n cut (splits t rfl)
      -- the leaves of the new tree are the parts of the split and the others
      have leaves := t.2.leaves_replaceLeaf ps key (t.2.putPart ps key row encoded n)
      cases part : (t.2.putPart ps key row encoded n).1 with
      | one l =>
        rw [part] at split
        cases split
      | two a' separator b' =>
        rw [part] at split some leaves
        obtain ⟨rfl, rfl⟩ := Prod.mk.inj (Option.some.inj split)
        refine ⟨some a' List.mem_cons_self, some b' (List.mem_cons_of_mem _ List.mem_cons_self),
          fun t' member => ?_⟩
        obtain rfl := Option.some.inj member
        exact ⟨leaves.mem_iff.mpr List.mem_cons_self,
          leaves.mem_iff.mpr (List.mem_cons_of_mem _ List.mem_cons_self)⟩
  cases call with
  | insert key row =>
    obtain ⟨encoded, encodes, splits⟩ := Content.put_of_answer _ answer (Or.inl rfl)
    rw [Content.after_insert encodes]
    exact puts key row encoded encodes (splits apart) split
  | update key row =>
    obtain ⟨encoded, encodes, splits⟩ := Content.put_of_answer _ answer (Or.inr rfl)
    rw [Content.after_update encodes]
    exact puts key row encoded encodes (splits apart) split
  | get key => cases split
  | delete key => cases split
  | scan => cases split

theorem BufferPool.splitsApart_empty {s : BufferPool} (root : s.pager.rootPageId = emptyTreeRoot)
    (call : Call) :
    s.SplitsApart env call := by
  intro c contains
  obtain rfl := contains.eq_none root
  cases call with
  | insert key row => exact fun t none => by cases none
  | update key row => exact fun t none => by cases none
  | get key => trivial
  | delete key => trivial
  | scan => trivial

/-- In every run in which no leaf is split that holds no other row than the one that is put, splits
separate: the tree of every committed state is separated, and the halves of the next split hold
rows. -/
theorem splits_separate (history : History env (separating env) session log) :
    (∀ sn ∈ session.lineage, ∃ c, sn.Holds env c ∧ ∀ t ∈ c, t.2.Separated (log.countP Call.deletes)) ∧
    ∀ s c, session.machine = .running s → s.Contains env c → ∀ call fuel reply,
      separating env call fuel s →
      c.answer call = .ok reply → ∀ a b, c.halves s.pager.pageSize s.nextPageId call = some (a, b) →
      a.entries ≠ [] ∧ b.entries ≠ [] ∧ ∀ t ∈ c.after s.pager.pageSize s.nextPageId call,
        a ∈ t.2.leaves ∧ b ∈ t.2.leaves := by
  refine ⟨fun sn member => ?_, fun s c _ contains call fuel reply guard answer a b split => ?_⟩
  · obtain ⟨c, holds, spread⟩ :=
      (history.filled (separating_tracks env) fun _ _ _ guard => guard.1).lineage sn member
    refine ⟨c, holds, fun t present => ?_⟩
    obtain ⟨fenced, few⟩ := spread t present
    exact (holds.wellFormed t present).separated fenced few
  · exact contains.halves_some (guard.2 c contains) answer split

/-- The second of two long rows splits the leaf of the first: each half holds one of them, and the
key of the second one separates them. -/
theorem splits_separate_two_rows :
    let env := Env.faultless .dev fun _ => 0
    let one : I64 := ⟨1, by decide, by decide⟩
    let two : I64 := ⟨2, by decide, by decide⟩
    let row : Row := ⟨[.blob (List.replicate 2100 0)]⟩
    ∃ s s' lineage lineage' a b, ∃ t : Tree 1,
      History env (separating env) ⟨.running s, lineage, none, 0⟩ [.insert one row] ∧
      (Call.insert two row).run env u32Max s = .ok .done s' ∧
      History env (separating env) ⟨.running s', lineage', none, 0⟩ [.insert one row, .insert two row] ∧
      s'.Contains env (some ⟨1, t⟩) ∧ t.separators = [[two]] ∧ t.leaves = [a, b] ∧
        t.rows = [(one, row), (two, row)] ∧
      a.entries ≠ [] ∧ b.entries ≠ [] ∧ t.Separated 0 := by
  intro env one two row
  have encoded : ∀ key, ∃ encoded, row.encode key = .ok encoded ∧ encoded.length = 2109 :=
    Row.encode_blob List.length_replicate (by decide)
  clear_value row
  obtain ⟨encoded₁, encodes₁, len₁⟩ := encoded one
  obtain ⟨encoded₂, encodes₂, len₂⟩ := encoded two
  obtain ⟨s, id, ran, next⟩ := Ran.first_long .dev (fun _ => 0) one encodes₁ len₁ fun s fits root =>
    show separating env (.insert one row) u32Max s from ⟨fits, BufferPool.splitsApart_empty root _⟩
  have below : one.val < two.val := by decide
  have long : 2109 ≤ encoded₂.length := Nat.le_of_eq len₂.symm
  -- the leaf holds the first row, too
  have apart : s.SplitsApart env (.insert two row) := by
    intro c here
    rw [here.unique ran.contains, ran.size]
    intro t member _ encoded same
    obtain rfl := Option.some.inj member
    obtain rfl := Except.ok.inj (encodes₂.symm.trans same)
    exact Or.inr (Tree.full_beside below long len₁).2.2
  have small : encoded₂.length ≤ u32Max := by
    rw [len₂]
    decide
  obtain ⟨fits, answer⟩ := ran.second_fits below encodes₂ long small len₁
  have allowed : separating env (.insert two row) u32Max s := ⟨fits, apart⟩
  have within : s.nextPageId + ((overflowChunks PageSize.default encoded₂).length + 3) ≤ u32Max := by
    rw [overflowChunks_nil (by rw [len₂]; decide)]
    exact Nat.le_trans (Nat.add_le_add_right next _) (by decide)
  obtain ⟨s', id', run, ran', halves, -⟩ :=
    ran.second_long (fun _ => rfl) below encodes₂ long small len₁ within allowed
  obtain ⟨cur, past, floor, history, -⟩ := ran.history
  obtain ⟨cur', past', floor', history', settled', holds'⟩ := ran'.history
  have split := (splits_separate history).2 s _ rfl ran.contains _ u32Max _ allowed answer _ _
    (by rw [ran.size]; exact halves)
  obtain ⟨c, holds, separated⟩ := (splits_separate history').1 cur' List.mem_cons_self
  obtain rfl := holds'.unique holds
  exact ⟨s, s', _, _, _, _, _, history, run, history', ran'.contains, rfl, rfl, rfl, split.1,
    split.2.1, separated _ rfl⟩

/-- A row that is updated twice: its key separates three leaves, one of which no key is routed to. -/
theorem updates_repeat_separator :
    let env := Env.faultless .dev fun _ => 0
    let key : I64 := ⟨1, by decide, by decide⟩
    let row : Row := ⟨[.blob (List.replicate 2100 0)]⟩
    ∃ session sn, ∃ t : Tree 1, History env (fitting env) session [.insert key row, .update key row,
      .update key row] ∧
      sn ∈ session.lineage ∧ sn.Holds env (some ⟨1, t⟩) ∧ t.separators = [[key, key]] ∧
      ∃ a b c : Leaf, t.leaves = [a, b, c] ∧ a.entries = [] ∧ b.entries = [] ∧ t.rows.length = 1 := by
  intro env key row
  obtain ⟨encoded, encodes, len⟩ : ∃ encoded, row.encode key = .ok encoded ∧ encoded.length = 2109 :=
    Row.encode_blob List.length_replicate (by decide) key
  clear_value row
  have works : ∀ k, env.fault k = none := fun _ => rfl
  have small : 3 + (2 + (2 * 0 + 1)) + (2 + (2 * 1 + 1)) ≤ u32Max := by decide
  obtain ⟨s₁, id₁, ran₁, next₁⟩ := Ran.first_long .dev (fun _ => 0) key encodes len fun _ fits _ => fits
  have same : ∀ k, (rowEntry PageSize.default key row encoded k).cell.key = key := fun _ => rfl
  let leaf := Leaf.fresh PageSize.default id₁ [rowEntry PageSize.default key row encoded 2]
  have found₁ : Tree.leafFor (h := 0) key leaf = leaf := rfl
  -- the first update leaves an empty leaf to the left of its key
  obtain ⟨s₂, ran₂, next₂⟩ := ran₁.update_long works found₁ (by decide) encodes len (by omega)
  have full₁ := (Tree.full_of_long found₁ len).1
  obtain ⟨id₂, tree₂⟩ := putRow_leaf (rfl : leaf.entries = _) (same 2) full₁ row s₁.nextPageId
  rw [tree₂] at ran₂
  -- the second one an empty leaf between two separators
  have found₂ := singleRow_leafFor (id₂ + 2) key (Leaf.fresh PageSize.default id₂ [])
    (Leaf.fresh PageSize.default (id₂ + 1) [rowEntry PageSize.default key row encoded s₁.nextPageId])
  obtain ⟨s₃, ran₃, -⟩ := ran₂.update_long works found₂ (by decide) encodes len (by omega)
  obtain ⟨id₃, tree₃⟩ :=
    putRow_singleRow rfl (same s₁.nextPageId) (Tree.full_of_long found₂ len).1 row s₂.nextPageId
  rw [tree₃] at ran₃
  obtain ⟨cur, past, floor, history, settled, holds⟩ := ran₃.history
  exact ⟨_, cur, _, history, List.mem_cons_self, holds, rfl, _, _, _, rfl, rfl, rfl, rfl⟩

end Pinax
