import Pinax.Verified.Alongside
import Pinax.Verified.CacheCost
import Pinax.Verified.Damage
import Pinax.Verified.PathCopy

/-! # The I/O calls of lookups and scans

A lookup and a scan get certain pages in a certain order.  What they cost is what reading these page
ids costs a cache in the order of last use.
-/

namespace Pinax

open Hoare (final)
open SearchNode (Node Within)

variable {env : Env} {o : Origin} {v : Pages} {n : Nat} {s s' : BufferPool} {h : Nat} {t : Tree h}
  {key : I64} {fuel : Nat}

/-- The program gets the pages `ids` in this order, and changes nothing else of the cache. -/
def Visits {α : Type} (env : Env) (o : Origin) (v : Pages) (n : Nat) (ids : List Nat) (x : PoolM α)
    (Q : α → Prop) : Prop :=
  ∀ s, During env o v n s → (∃ log, Cache s log) →
    ∃ a s', x s = .ok a s' ∧ Q a ∧ During env o v n s' ∧ (∃ log, Cache s' log) ∧ s'.lru = s.lru.reads ids

namespace Visits

variable {α β : Type} {ids ids' : List Nat} {Q : α → Prop} {R : β → Prop}

theorem pure {a : α} (holds : Q a) : Visits env o v n [] (pure a) Q :=
  fun s during cache => ⟨a, s, rfl, holds, during, cache, rfl⟩

theorem bind {x : PoolM α} {f : α → PoolM β} (first : Visits env o v n ids x Q)
    (rest : ∀ a, Q a → Visits env o v n ids' (f a) R) : Visits env o v n (ids ++ ids') (x >>= f) R := by
  intro s during cache
  obtain ⟨a, s₁, run, holds, during₁, cache₁, lru₁⟩ := first s during cache
  obtain ⟨b, s₂, run₂, holds₂, during₂, cache₂, lru₂⟩ := rest a holds s₁ during₁ cache₁
  refine ⟨b, s₂, ?_, holds₂, during₂, cache₂, ?_⟩
  · rw [Hoare.bind_ok run, run₂]
  · rw [lru₂, lru₁, Lru.reads_append]

theorem ok {r : Res β} {b : β} {f : β → PoolM α} (returns : r = .ok b)
    (rest : Visits env o v n ids (f b) Q) :
    Visits env o v n ids (liftM r >>= f) Q := by
  rw [returns, liftM_ok, pure_bind]
  exact rest

theorem pageSize {f : PageSize → PoolM α} (rest : Visits env o v n ids (f o.start.pager.pageSize) Q) :
    Visits env o v n ids (BufferPool.pageSize >>= f) Q := by
  intro s during cache
  have run : BufferPool.pageSize s = .ok o.start.pager.pageSize s := by
    rw [← during.pager]
    rfl
  rw [Hoare.bind_ok run]
  exact rest s during cache

theorem rootPageId {f : Nat → PoolM α} (rest : Visits env o v n ids (f o.start.pager.rootPageId) Q) :
    Visits env o v n ids (BufferPool.rootPageId >>= f) Q := by
  intro s during cache
  have run : BufferPool.rootPageId s = .ok o.start.pager.rootPageId s := by
    rw [← during.pager]
    rfl
  rw [Hoare.bind_ok run]
  exact rest s during cache

theorem get (works : ∀ k, env.fault k = none) {id : Nat} {content : Bytes} {f : Bytes → PoolM α}
    (known : v id = some content) (rest : ∀ buf, buf.length = o.start.pager.pageSize.bytes →
      body buf = content → Visits env o v n ids (f buf) Q) :
    Visits env o v n (id :: ids) (BufferPool.get env id >>= f) Q := by
  intro s during cache
  have page := (during.agree id content known).2
  have reached := get_ends during id
  cases run : BufferPool.get env id s with
  | error e s₁ =>
    rw [run] at reached
    rcases reached with ⟨-, ⟨k, -, -, fails⟩, -⟩ | ⟨-, none, -⟩
    · rw [works] at fails
      cases fails
    · cases page.symm.trans none
  | ok buf s₁ =>
    rw [run] at reached
    obtain ⟨after, len, found⟩ := reached
    rw [page, Option.some.injEq] at found
    obtain ⟨log, cache⟩ := cache
    have cached := get_cache env cache id
    rw [run] at cached
    obtain ⟨a, s₂, run₂, holds, during₂, cache₂, lru₂⟩ := rest buf len found.symm s₁ after ⟨_, cached.1⟩
    refine ⟨a, s₂, ?_, holds, during₂, cache₂, ?_⟩
    · rw [Hoare.bind_ok run, run₂]
    · rw [lru₂, get_lru works cache during.sound run, Lru.reads_cons]

theorem foldlM {γ : Type} {f : α → β → PoolM α} {g : γ → β} {part : γ → List Nat} {l : List γ}
    (step : ∀ c ∈ l, ∀ a, Visits env o v n (part c) (f a (g c)) fun _ => True) (a : α) :
    Visits env o v n (l.flatMap part) ((l.map g).foldlM f a) fun _ => True := by
  induction l generalizing a with
  | nil => exact .pure trivial
  | cons c l ih =>
    rw [List.map_cons, List.foldlM_cons, List.flatMap_cons]
    exact (step c List.mem_cons_self a).bind fun a' _ => ih
      (fun c' member => step c' (List.mem_cons_of_mem c member)) a'

end Visits

theorem Entry.key_eq {e : Entry} (same : e.cell.key = key) : e.key = key.val := congrArg I64.val same

/-- The entries of a key in a leaf. -/
theorem Leaf.Cut.filter {leaf : Leaf} {result : SearchResult} {lo hi : Int} (cut : leaf.Cut key result)
    (within : Within Entry.key leaf.entries lo hi) :
    (∃ left right e, result = .found left.length ∧ leaf.entries = left ++ e :: right ∧
      leaf.entries.filter (fun e => e.cell.key = key) = [e]) ∨
    (∃ index, result = .insertAt index ∧ leaf.entries.filter (fun e => e.cell.key = key) = []) := by
  have none : ∀ l : List Entry, (∀ e ∈ l, e.key ≠ key.val) →
    l.filter (fun e => e.cell.key = key) = [] := by
    intro l apart
    refine List.filter_eq_nil_iff.mpr fun e member same => apart e member (Entry.key_eq ?_)
    simpa using same
  cases cut with
  | @found left right e split same =>
    have sorted := within.sorted
    have key := Entry.key_eq same
    rw [split, List.pairwise_append, List.pairwise_cons] at sorted
    refine Or.inl ⟨left, right, e, rfl, split, ?_⟩
    rw [split, List.filter_append, none left, List.filter_cons_of_pos (by simpa using same), none right]
    · rfl
    · intro e' member
      have := sorted.2.1.1 e' member
      omega
    · intro e' member
      have := sorted.2.2 e' member e List.mem_cons_self
      omega
  | @insertAt left right split below above =>
    refine Or.inr ⟨_, rfl, ?_⟩
    rw [split, List.filter_append, none left, none right]
    · rfl
    · intro e' member
      have := above e' member
      omega
    · intro e' member
      have := below e' member
      omega

/-- The fields of an overflow page. -/
theorem OverflowPage.fields {ps : PageSize} {buf data : Bytes} {next need : Nat}
    (page : OverflowPage ps buf next data) (amount : data.length = min need (overflowChunkCap ps.bytes)) :
    readU32 buf 1 = .ok next ∧ readVec buf overflowHeaderLen (min need (overflowChunkCap ps.bytes)) =
      .ok data := by
  have sizes := ps.bounds
  have len := page.len
  have short := page.short
  simp only [overflowChunkCap, checksumLen, overflowHeaderLen] at short
  refine ⟨readU32_of_slice (by omega) page.link page.linkFits, ?_⟩
  rw [readVec, ← amount, readBytes_of_le (by simp only [overflowHeaderLen]; omega), page.data]

section works

variable (works : ∀ k, env.fault k = none)
include works

/-! ## Overflow chains -/

theorem readChain_visits {first need : Nat} {ids : List Nat} {data : Bytes}
    (chain : Chain o.start.pager.pageSize v first need ids data) {bound : Nat} (enough : need < bound)
    (out : Bytes) :
    Visits env o v n ids (readChain env bound first need out) (· = out ++ data) := by
  induction chain generalizing bound out with
  | @stop first need done =>
    obtain ⟨bound, rfl⟩ : ∃ k, bound = k + 1 := ⟨bound - 1, by omega⟩
    rw [readChain, if_neg (by omega), List.append_nil]
    exact .pure rfl
  | @link first need next ids buf data tail nonzero more known page amount rest ih =>
    obtain ⟨bound, rfl⟩ : ∃ k, bound = k + 1 := ⟨bound - 1, by omega⟩
    have cap := overflowChunkCap_pos o.start.pager.pageSize
    rw [readChain, if_pos ⟨nonzero, more⟩]
    refine .get works known fun buf' len same => ?_
    have page' := page.congr same len
    obtain ⟨link, chunk⟩ := page'.fields amount
    refine .ok (page'.expectPageType first) (.ok link (.pageSize (.ok chunk ?_)))
    have tail' := ih (show need - data.length < bound by omega) (out ++ data)
    rw [amount] at tail'
    rwa [List.append_assoc] at tail'

theorem reassemble_visits {cell : LeafCell} {ids : List Nat} {payload : Bytes}
    (whole : Reassembles o.start.pager.pageSize v cell ids payload) :
    Visits env o v n ids (reassemble env cell) (· = payload) := by
  obtain ⟨tail, chain, rfl⟩ := whole
  rw [reassemble]
  by_cases none : cell.overflowFirst = 0
  · rw [if_pos none]
    cases chain with
    | stop => exact .pure (List.append_nil _).symm
    | link nonzero => exact absurd none nonzero
  · rw [if_neg none]
    rw [← List.append_nil ids]
    refine .pageSize (.bind (readChain_visits works chain (Nat.lt_succ_self _) []) ?_)
    rintro out rfl
    exact .pure rfl

/-! ## Trees -/

/-- Reassembling and decoding a cell. -/
theorem Entry.Stored.visits {α : Type} {e : Entry} {ids : List Nat} {Q : α → Prop} {f : Row → PoolM α}
    (stored : e.Stored o.start.pager.pageSize v) (rest : Visits env o v n ids (f e.row) Q) :
    Visits env o v n (e.ids ++ ids)
      (reassemble env e.cell >>= fun full => (liftM (Row.decode full) : PoolM Row) >>= f) Q := by
  obtain ⟨payload, whole, decodes⟩ := stored
  refine .bind (reassemble_visits works whole) ?_
  rintro full rfl
  exact .ok decodes rest

theorem Leaf.Stored.getVisits {α : Type} {leaf : Leaf} {ids : List Nat}
    {f : Bytes → PoolM α} {Q : α → Prop} (stored : leaf.Stored o.start.pager.pageSize v)
    (rest : ∀ buf, LeafPage o.start.pager.pageSize buf leaf.start leaf.cells →
      Visits env o v n ids (f buf) Q) :
    Visits env o v n (leaf.id :: ids) (BufferPool.get env leaf.id >>= f) Q := by
  obtain ⟨buf, known, page⟩ := stored.page
  exact .get works known fun buf' len same => rest buf' (page.congr same len)

theorem Tree.Stored.getVisits {α : Type} {t : Tree (h + 1)} {ids : List Nat}
    {f : Bytes → PoolM α} {Q : α → Prop} (stored : t.Stored o.start.pager.pageSize v)
    (rest : ∀ buf, InteriorPage o.start.pager.pageSize buf (t.node.map Tree.id) →
      Visits env o v n ids (f buf) Q) :
    Visits env o v n (t.id :: ids) (BufferPool.get env t.id >>= f) Q := by
  obtain ⟨⟨buf, known, page⟩, -⟩ := stored
  exact .get works known fun buf' len same => rest buf' (page.congr same len)

theorem Leaf.Stored.scanVisits {leaf : Leaf} (stored : leaf.Stored o.start.pager.pageSize v) {buf : Bytes}
    (page : LeafPage o.start.pager.pageSize buf leaf.start leaf.cells) {i count : Nat}
    (inside : i + count = leaf.entries.length) (out : List (I64 × Row)) :
    Visits env o v n ((leaf.entries.drop i).flatMap Entry.ids)
      (Btree.scanLeaf env buf o.start.pager.pageSize.maxLocal i count out) fun _ => True := by
  induction count generalizing i out with
  | zero =>
    rw [Btree.scanLeaf, List.drop_eq_nil_of_le (by omega)]
    exact .pure trivial
  | succ count ih =>
    have lt : i < leaf.entries.length := by omega
    have here : leaf.cells[i]? = some leaf.entries[i].cell := by
      rw [Leaf.cells, List.getElem?_map, List.getElem?_eq_getElem lt]
      rfl
    rw [Btree.scanLeaf, List.drop_eq_getElem_cons lt, List.flatMap_cons]
    exact .ok (page.cellAt_eq here)
      ((stored.entries _ (List.getElem_mem lt)).visits works (ih (by omega) _))

/-- `scan` gets every page once, each before those below it and the leaves from left to right. -/
theorem Tree.Stored.scanVisits (stored : t.Stored o.start.pager.pageSize v) (deep : h < fuel)
    (out : List (I64 × Row)) :
    Visits env o v n t.pages (Btree.scanNode env fuel out t.id) fun _ => True := by
  induction h generalizing fuel out with
  | zero =>
    obtain ⟨fuel, rfl⟩ : ∃ k, fuel = k + 1 := ⟨fuel - 1, by omega⟩
    rw [Btree.scanNode]
    refine Leaf.Stored.getVisits works stored fun buf page => .ok page.readType ?_
    rw [if_pos rfl]
    refine .pageSize (.ok page.numCells_eq ?_)
    exact Leaf.Stored.scanVisits works stored page (by rw [Nat.zero_add]; exact List.length_map _) out
  | succ h ih =>
    obtain ⟨fuel, rfl⟩ : ∃ k, fuel = k + 1 := ⟨fuel - 1, by omega⟩
    rw [Btree.scanNode]
    refine stored.getVisits works fun buf page => .ok page.readType ?_
    rw [if_neg (by decide)]
    refine .ok (page.expectPageType t.id) (.ok page.entries_eq ?_)
    rw [Node.children_map]
    exact .foldlM (fun c child out => ih (stored.2 c child) (by omega) out) out

/-- `get` gets the pages on the way to the key's row, which are those that a mutation copies. -/
theorem Tree.Stored.getFromVisits (stored : t.Stored o.start.pager.pageSize v) (key : I64) {lo hi : Int}
    (within : Within Entry.key (t.leafFor key).entries lo hi) (deep : h < fuel) :
    Visits env o v n (t.copied key) (Btree.getFrom env fuel t.id key) fun _ => True := by
  induction h generalizing fuel with
  | zero =>
    obtain ⟨fuel, rfl⟩ : ∃ k, fuel = k + 1 := ⟨fuel - 1, by omega⟩
    have here : (t.leafFor key).Stored o.start.pager.pageSize v := stored
    show Visits env o v n ((t.leafFor key).id :: ((t.leafFor key).entries.filter fun e =>
      e.cell.key = key).flatMap Entry.ids)
      (Btree.getFrom env (fuel + 1) (t.leafFor key).id key) _
    generalize t.leafFor key = leaf at here within ⊢
    rw [Btree.getFrom_succ]
    refine .pageSize (here.getVisits works fun buf page => .ok page.readType ?_)
    rw [if_pos rfl]
    obtain ⟨result, search, cut⟩ := Leaf.search page within key
    refine .ok search ?_
    -- the key is bound and its chain is read, or nothing more is
    rcases cut.filter within with ⟨left, right, e, rfl, split, entries⟩ | ⟨index, rfl, entries⟩
    · have cell : leaf.cells[left.length]? = some e.cell := by
        rw [Leaf.cells, split]
        simp
      have member : e ∈ leaf.entries := by
        rw [split]
        simp
      rw [entries, List.flatMap_singleton, ← List.append_nil e.ids]
      exact .ok (page.cellAt_eq cell) ((here.entries e member).visits works (.pure trivial))
    · rw [entries]
      exact .pure trivial
  | succ h ih =>
    obtain ⟨fuel, rfl⟩ : ∃ k, fuel = k + 1 := ⟨fuel - 1, by omega⟩
    rw [Btree.getFrom_succ]
    refine .pageSize (stored.getVisits works fun buf page => .ok page.readType ?_)
    rw [if_neg (by decide)]
    refine .ok (page.expectPageType t.id) (.ok (Tree.route_id page key) ?_)
    exact ih (stored.child key) within (by omega)

end works

/-! ## Calls -/

/-- What is known of the result besides. -/
theorem Visits.refined {α : Type} {ids : List Nat} {x : PoolM α} {Q R : α → Prop} {E : Stop → Prop}
    (visits : Visits env o v n ids x Q) (reads : Reads env o v n x R E) : Visits env o v n ids x R := by
  intro s during cache
  obtain ⟨a, s', run, -, after⟩ := visits s during cache
  have ends := reads s during
  rw [run] at ends
  exact ⟨a, s', run, ends.1, after⟩

theorem Visits.map {α β : Type} {ids : List Nat} {x : PoolM α} {f : α → β} {Q : α → Prop}
    (visits : Visits env o v n ids x Q) :
    Visits env o v n ids (x >>= fun a => Pure.pure (f a)) fun _ => True := by
  rw [← List.append_nil ids]
  exact visits.bind fun a _ => .pure trivial

/-- The pages a lookup or a scan gets. -/
def Content.visited (c : Content) : Call → List Nat
  | .get key => c.elim [] fun t => t.2.copied key
  | .scan => c.elim [] fun t => t.2.pages
  | _ => []

section calls

variable {c : Content} {call : Call} (works : ∀ k, env.fault k = none)
include works

theorem Content.Planted.visits
    (planted : c.Planted o.start.pager.pageSize v n o.start.pager.rootPageId)
    (deep : c.height < fuel) (looks : ¬ call.Mutates) :
    Visits env o v n (c.visited call) (call.run env fuel) (fun reply => c.answer call = .ok reply) := by
  -- what the calls return is known; left is which pages they read
  have reads : Reads env o v n (call.run env fuel) (fun reply => c.answer call = .ok reply) fun _ =>
    False := planted.looked deep looks
  cases c with
  | none =>
    have root : o.start.pager.rootPageId = emptyTreeRoot := planted.root.symm
    cases call with
    | get key =>
      have look : Visits env o v n [] (Btree.get env fuel key) fun _ => True := by
        rw [Btree.get]
        refine .rootPageId ?_
        rw [if_pos root]
        exact .pure trivial
      exact look.map.refined reads
    | scan =>
      have look : Visits env o v n [] (Btree.scan env fuel) fun _ => True := by
        rw [Btree.scan]
        refine .rootPageId ?_
        rw [if_pos root]
        exact .pure trivial
      exact look.map.refined reads
    | insert key row => exact absurd trivial looks
    | update key row => exact absurd trivial looks
    | delete key => exact absurd trivial looks
  | some t =>
    -- a lookup reads the pages a change of the key would copy, a scan all of them
    obtain ⟨h, t⟩ := t
    have wellFormed : t.WellFormed true o.start.pager.pageSize v n := planted.wellFormed _ rfl
    have root : o.start.pager.rootPageId = t.id := planted.root.symm
    have nonempty : t.id ≠ emptyTreeRoot := by
      have low := (wellFormed.range _ t.id_mem_pages).1
      simp only [firstDataPageId, emptyTreeRoot] at *
      omega
    cases call with
    | get key =>
      obtain ⟨b, e, within, -⟩ := wellFormed.ordered.leaf key.between.1 key.between.2
      have look : Visits env o v n (t.copied key) (Btree.get env fuel key) fun _ => True := by
        rw [Btree.get]
        refine .rootPageId ?_
        rw [root, if_neg nonempty]
        exact wellFormed.stored.getFromVisits works key within deep
      exact look.map.refined reads
    | scan =>
      have look : Visits env o v n t.pages (Btree.scan env fuel) fun _ => True := by
        rw [Btree.scan]
        refine .rootPageId ?_
        rw [root, if_neg nonempty]
        exact wellFormed.stored.scanVisits works deep []
      exact look.map.refined reads
    | insert key row => exact absurd trivial looks
    | update key row => exact absurd trivial looks
    | delete key => exact absurd trivial looks

/-- A sequence of lookups and scans. -/
theorem Content.Planted.visitsAll
    (planted : c.Planted o.start.pager.pageSize v n o.start.pager.rootPageId) (deep : c.height < fuel)
    {calls : List Call} (looks : ∀ call ∈ calls, ¬ call.Mutates) (during : During env o v n s)
    (cache : ∃ log, Cache s log) :
    replies env fuel calls s = calls.map c.answer ∧ (afterCalls env fuel calls s).lru =
      s.lru.reads (calls.flatMap c.visited) := by
  induction calls generalizing s with
  | nil => exact ⟨rfl, rfl⟩
  | cons call calls ih =>
    obtain ⟨reply, s', run, answer, during', cache', lru⟩ :=
      planted.visits works deep (looks call List.mem_cons_self) s during cache
    obtain ⟨same, rest⟩ :=
      ih (fun call' member => looks call' (List.mem_cons_of_mem call member)) during' cache'
    constructor
    · rw [replies, List.map_cons, run, answer, ← same]
      rfl
    · rw [List.flatMap_cons, Lru.reads_append, ← lru, ← rest, afterCalls, List.foldl_cons, run]
      rfl

end calls

/-! ## Databases that were just opened -/

/-- What a database that was just opened looks like: a new pool over the file's pager. -/
theorem Database.opened_new {capacity : Nat} {d d' : Disk}
    (opened : openWithCapacity env capacity d = .ok s d') :
    ∃ pager, Pager.openFile env d = .ok pager d' ∧ BufferPool.new d' pager capacity = .ok s := by
  rw [openWithCapacity] at opened
  cases file : Pager.openFile env d with
  | error e d₁ =>
    rw [Hoare.bind_error file] at opened
    cases opened
  | ok pager d₁ =>
    rw [Hoare.bind_ok file, Hoare.get_bind] at opened
    cases made : BufferPool.new d₁ pager capacity with
    | error e =>
      rw [made] at opened
      cases opened
    | ok pool =>
      rw [made] at opened
      injection opened with same sameDisk
      subst same sameDisk
      exact ⟨pager, rfl, made⟩

theorem Content.Planted.distinct {c : Content} {ps : PageSize} {root : Nat}
    (planted : c.Planted ps v n root) :
    (c.visited .scan).Nodup := by
  cases c with
  | none => exact List.nodup_nil
  | some t => exact (planted.wellFormed t rfl).distinct

theorem RanOn.reopened {guard : CallGuard} {ps : PageSize} {log : List Call} {c : Content}
    {capacity : Nat} (works : ∀ k, env.fault k = none) (ran : RanOn env guard ps s log c)
    (positive : 1 ≤ capacity) :
    ∃ t d', Database.openWithCapacity env capacity s.disk = .ok t d' ∧ t.Contains env c := by
  obtain ⟨cur, past, floor, -, settled, holds⟩ := ran.history
  obtain ⟨t, d', run, -⟩ :=
    openWithCapacity_works (fun k _ => works k) settled.present positive settled.recorded.len
    settled.recorded.chosen
  have opened := openWithCapacity_ok run
  refine ⟨t, d', run, ?_⟩
  cases slot_cases s.pager.activeSlot t.pager.activeSlot with
  | inl same => exact (settled.recorded.opened_active opened same).contains holds
  | inr other =>
    obtain ⟨f, none, -⟩ := (settled.recorded.opened_spare opened other).kept
    cases none

/-- A row on a tree of three pages, opened again. -/
theorem singleRow_opened :
    let env := Env.faultless .dev fun _ => 0
    let key : I64 := ⟨7, by decide, by decide⟩
    let row : Row := ⟨[.blob (List.replicate 2100 7)]⟩
    ∃ d, ∃ t : Tree 1, t.pages.length = 3 ∧ t.rows = [(key, row)] ∧ ∀ capacity, 1 ≤ capacity →
      ∃ s d', Database.openWithCapacity env capacity d = .ok s d' ∧ s.Contains env (some ⟨1, t⟩) := by
  intro env key row
  obtain ⟨encoded, encodes, len⟩ : ∃ encoded, row.encode key = .ok encoded ∧ encoded.length = 2109 :=
    Row.encode_blob List.length_replicate (by decide) key
  clear_value row
  obtain ⟨s₁, id₁, ran₁, next₁⟩ := Ran.first_long .dev (fun _ => 0) key encodes len fun _ fits _ => fits
  have same : ∀ k, (rowEntry PageSize.default key row encoded k).cell.key = key := fun _ => rfl
  let leaf := Leaf.fresh PageSize.default id₁ [rowEntry PageSize.default key row encoded 2]
  have found₁ : Tree.leafFor (h := 0) key leaf = leaf := rfl
  have small : 3 + (2 + (2 * 0 + 1)) ≤ u32Max := by decide
  obtain ⟨s₂, ran₂, -⟩ := ran₁.update_long (fun _ => rfl) found₁ (by decide) encodes len (by omega)
  obtain ⟨id₂, tree₂⟩ :=
    putRow_leaf (rfl : leaf.entries = _) (same 2) (Tree.full_of_long found₁ len).1 row s₁.nextPageId
  rw [tree₂] at ran₂
  have short : overflowIds PageSize.default s₁.nextPageId encoded = [] := by
    rw [overflowIds, overflowChunks_nil (by rw [len]; decide)]
    rfl
  refine ⟨s₂.disk, _, ?_, rfl, fun capacity positive => ran₂.on.reopened (fun _ => rfl) positive⟩
  show ((id₂ + 2) :: ([[id₂], (id₂ + 1) :: (overflowIds PageSize.default s₁.nextPageId encoded ++
    [])].flatten)).length = 3
  rw [short]
  rfl

variable {c : Content} {capacity : Nat} {d d' : Disk} {calls : List Call}

theorem opened_reads (works : ∀ k, env.fault k = none)
    (opened : Database.openWithCapacity env capacity d = .ok s d') (contains : s.Contains env c)
    (deep : c.height < fuel) (looks : ∀ call ∈ calls, ¬ call.Mutates) :
    replies env fuel calls s = calls.map c.answer ∧
      (afterCalls env fuel calls s).lru =
        (⟨capacity, [], ∅, d'.clock⟩ : Lru Nat).reads (calls.flatMap c.visited) := by
  obtain ⟨pager, -, made⟩ := Database.opened_new opened
  obtain ⟨positive, cache, empty⟩ := BufferPool.new_lru env made
  have during : During env (anyPage s) (s.known env) s.nextPageId s := by
    refine .init (new_ok env made).2 rfl (fun id dirty => ?_) (fun id content known => ?_)
      fun _ _ none => by cases none
    · rw [show s.dirty = ∅ from congrArg Lru.dirty empty] at dirty
      exact absurd dirty (Finset.notMem_empty id)
    · rw [BufferPool.known] at known
      split at known
      next low => exact ⟨low, known⟩
      next => cases known
  have planted : c.Planted (anyPage s).start.pager.pageSize (s.known env) s.nextPageId
    (anyPage s).start.pager.rootPageId := contains
  rw [← empty]
  exact planted.visitsAll works deep looks during ⟨_, cache⟩

/-- Lookups and scans cost what their pages cost a cache.  After any sequence of them the replies
are those of the content, and as many I/O calls were made as a new cache of the pool's capacity
moves, when it reads the pages of the calls one after the other.  With a larger pool the replies are
the same, for at most as many I/O calls. -/
theorem read_calls_cost (works : ∀ k, env.fault k = none)
    (opened : Database.openWithCapacity env capacity d = .ok s d') (contains : s.Contains env c)
    (deep : c.height < fuel) (looks : ∀ call ∈ calls, ¬ call.Mutates) :
    replies env fuel calls s = calls.map c.answer ∧
      (afterCalls env fuel calls s).disk.clock =
        ((⟨capacity, [], ∅, d'.clock⟩ : Lru Nat).reads (calls.flatMap c.visited)).moved ∧
      ∀ capacity' t e, capacity ≤ capacity' → Database.openWithCapacity env capacity' d = .ok t e →
        replies env fuel calls t = replies env fuel calls s ∧
          (afterCalls env fuel calls t).disk.clock ≤ (afterCalls env fuel calls s).disk.clock := by
  obtain ⟨answers, lru⟩ := opened_reads works opened contains deep looks
  refine ⟨answers, congrArg Lru.moved lru, fun capacity' t e larger opened' => ?_⟩
  obtain ⟨pager, file, made⟩ := Database.opened_new opened
  obtain ⟨pager', file', made'⟩ := Database.opened_new opened'
  rw [file] at file'
  obtain ⟨rfl, rfl⟩ := EStateM.Result.ok.inj file'
  have contains' : t.Contains env c := by
    obtain ⟨rfl, -⟩ := new_ok env made
    obtain ⟨rfl, -⟩ := new_ok env made'
    exact contains
  obtain ⟨answers', lru'⟩ := opened_reads works opened' contains' deep looks
  obtain ⟨positive, -⟩ := BufferPool.new_lru env made
  have new : Lru.Below (⟨capacity, [], ∅, d'.clock⟩ : Lru Nat) ⟨capacity', [], ∅, d'.clock⟩ :=
    .empty positive larger
  have below := new.run ((calls.flatMap c.visited).map .read)
  refine ⟨answers'.trans answers.symm, ?_⟩
  show (afterCalls env fuel calls t).lru.moved ≤ (afterCalls env fuel calls s).lru.moved
  rw [lru, lru']
  exact below.moved_le

/-- Two scans and a lookup through a pool of two pages. -/
theorem read_calls_cost_singleRow :
    let env := Env.faultless .dev fun _ => 0
    let key : I64 := ⟨7, by decide, by decide⟩
    let row : Row := ⟨[.blob (List.replicate 2100 7)]⟩
    ∃ d s d', ∃ t : Tree 1, Database.openWithCapacity env 2 d = .ok s d' ∧
      replies env u32Max [.scan, .get key, .scan] s
        = [.ok (.rows [(key, row)]), .ok (.binding (t.rows.lookup key)), .ok (.rows [(key, row)])] ∧
      (afterCalls env u32Max [.scan, .get key, .scan] s).disk.clock
        = ((⟨2, [], ∅, d'.clock⟩ : Lru Nat).reads (t.pages ++ (t.copied key ++ t.pages))).moved := by
  intro env key row
  obtain ⟨d, t, -, rows, opens⟩ := singleRow_opened
  obtain ⟨s, d', opened, contains⟩ := opens 2 (by decide)
  have looks : ∀ call ∈ [Call.scan, .get key, .scan], ¬ call.Mutates := by
    intro call member
    simp only [List.mem_cons, List.not_mem_nil, or_false] at member
    rcases member with rfl | rfl | rfl <;> exact id
  have cost := read_calls_cost (fun _ => rfl) opened contains (show 1 < u32Max by decide) looks
  refine ⟨d, s, d', t, opened, ?_, ?_⟩
  · rw [cost.1, ← rows]
    rfl
  · rw [cost.2.1]
    show (Lru.reads _ (t.pages ++ (t.copied key ++ (t.pages ++ [])))).moved = _
    rw [List.append_nil]

/-- Scanning over and over.  Each of `n + 1` scans of a database that was just opened returns the
rows.  If the pool has room for all pages of the tree, the first scan reads each page once and the
others make no I/O call; if it has not, every scan reads every page again. -/
theorem repeated_scans_cost (works : ∀ k, env.fault k = none)
    (opened : Database.openWithCapacity env capacity d = .ok s d') (contains : s.Contains env c)
    (deep : c.height < fuel) (n : Nat) :
    let pages := (c.visited .scan).length
    let calls := List.replicate (n + 1) Call.scan
    replies env fuel calls s = List.replicate (n + 1) (.ok (.rows c.rows)) ∧
      (afterCalls env fuel calls s).disk.clock = d'.clock + if pages ≤ capacity then pages
        else (n + 1) * pages := by
  intro pages calls
  obtain ⟨pager, -, made⟩ := Database.opened_new opened
  obtain ⟨positive, cache, empty⟩ := BufferPool.new_lru env made
  have looks : ∀ call ∈ calls, ¬ call.Mutates := by
    intro call member
    rw [List.eq_of_mem_replicate member]
    exact id
  obtain ⟨answers, lru⟩ := opened_reads works opened contains deep looks
  have sane := cache.sane
  rw [empty] at sane
  constructor
  · rw [answers, List.map_replicate]
    rfl
  · have visited : calls.flatMap c.visited = (List.replicate (n + 1) (c.visited .scan)).flatten := by
      rw [List.flatMap_def, List.map_replicate]
    show (afterCalls env fuel calls s).lru.moved = _
    rw [lru, visited, sane.reads_passes rfl rfl (Content.Planted.distinct contains) n]

/-- A pool of two pages reads a tree of three pages anew in each of four scans. -/
theorem repeated_scans_cost_singleRow :
    let env := Env.faultless .dev fun _ => 0
    let key : I64 := ⟨7, by decide, by decide⟩
    let row : Row := ⟨[.blob (List.replicate 2100 7)]⟩
    ∃ d s d', Database.openWithCapacity env 2 d = .ok s d' ∧
      replies env u32Max [.scan, .scan, .scan, .scan] s = List.replicate 4 (.ok (.rows [(key, row)])) ∧
      (afterCalls env u32Max [.scan, .scan, .scan, .scan] s).disk.clock = d'.clock + 12 := by
  intro env key row
  obtain ⟨d, t, three, rows, opens⟩ := singleRow_opened
  obtain ⟨s, d', opened, contains⟩ := opens 2 (by decide)
  have cost := repeated_scans_cost (fun _ => rfl) opened contains (show 1 < u32Max by decide) 3
  have pages : (Content.visited (some ⟨1, t⟩) .scan).length = 3 := three
  refine ⟨d, s, d', opened, ?_, ?_⟩
  · rw [← rows]
    exact cost.1
  · exact cost.2.trans (by rw [pages]; rfl)

/-- The first lookup in a database that was just opened reads one page on each level of the tree and
the overflow pages of the key's row, whatever the capacity of the pool. -/
theorem first_lookup_cost (works : ∀ k, env.fault k = none)
    (opened : Database.openWithCapacity env capacity d = .ok s d')
    (contains : s.Contains env (some ⟨h, t⟩)) (deep : h < fuel) (key : I64) :
    ∃ s', (Call.get key).run env fuel s = .ok (.binding (t.rows.lookup key)) s' ∧
      s'.disk.clock = d'.clock + (h + 1) + (t.chain key).length := by
  obtain ⟨pager, -, made⟩ := Database.opened_new opened
  obtain ⟨positive, cache, empty⟩ := BufferPool.new_lru env made
  have looks : ∀ call ∈ [Call.get key], ¬ call.Mutates := by
    intro call member
    rw [List.mem_singleton.mp member]
    exact id
  obtain ⟨answers, lru⟩ := opened_reads works opened contains deep looks
  have sane := cache.sane
  have distinct : (t.copied key ++ t.shared key).Nodup :=
    (t.pages_shared key).nodup_iff.mp (contains.wellFormed _ rfl).distinct
  rw [empty] at sane
  -- nothing is cached and no page is read twice, so each page costs one read
  have cost := sane.reads_fresh rfl (List.nodup_append.mp distinct).1 fun id _ => List.not_mem_nil
  have visited : [Call.get key].flatMap (Content.visited (some ⟨h, t⟩)) = t.copied key :=
    List.append_nil _
  -- a page for each level, and those of the chain of the row
  have len : (t.copied key).length = h + 1 + (t.chain key).length := by
    rw [Tree.copied, List.length_append, t.length_spine, List.length_cons]
    omega
  rw [visited] at lru
  have same : (afterCalls env fuel [Call.get key] s).disk.clock =
    d'.clock + (h + 1) + (t.chain key).length := by
    show (afterCalls env fuel [Call.get key] s).lru.moved = _
    rw [lru, cost, len]
    exact (Nat.add_assoc ..).symm
  have answer : answerOf ((Call.get key).run env fuel s) = .ok (.binding (t.rows.lookup key)) :=
    (List.cons.inj answers).1
  rw [show afterCalls env fuel [Call.get key] s = final ((Call.get key).run env fuel s) from rfl] at same
  cases run : (Call.get key).run env fuel s with
  | error e s' =>
    rw [run] at answer
    cases answer
  | ok reply s' =>
    rw [run] at answer same
    obtain rfl := Except.ok.inj answer
    exact ⟨s', rfl, same⟩

/-- A lookup of a row of 5009 bytes reads its leaf and one overflow page. -/
theorem first_lookup_cost_spilled :
    let env := Env.faultless .dev fun _ => 0
    let key : I64 := ⟨7, by decide, by decide⟩
    let row : Row := ⟨[.blob (List.replicate 5000 7)]⟩
    ∃ d s d' s', Database.openWithCapacity env 1 d = .ok s d' ∧
      (Call.get key).run env u32Max s = .ok (.binding (some row)) s' ∧ s'.disk.clock = d'.clock + 2 := by
  intro env key row
  obtain ⟨encoded, encodes, len⟩ : ∃ encoded, row.encode key = .ok encoded ∧ encoded.length = 5009 :=
    Row.encode_blob List.length_replicate (by decide) key
  clear_value row
  obtain ⟨s₀, -, ran, next⟩ :=
    RanOn.created .dev (fun _ => 0) (fitting env) PageSize.default (Nat.le_refl 1)
  have root : s₀.pager.rootPageId = emptyTreeRoot := ran.contains.root.symm
  have sized : (Call.insert key row).Sized := by
    intro encoded' same
    obtain rfl := Except.ok.inj (encodes.symm.trans same)
    rw [len]
    decide
  have allowed : fitting env (.insert key row) u32Max s₀ :=
    ⟨Nat.le_refl _, sized, BufferPool.splitsFit_empty root _⟩
  have answer : Content.answer none (.insert key row) = .ok .done := by
    show (row.encode key).map (fun _ => Reply.done) = _
    rw [encodes]
    rfl
  have room : s₀.nextPageId + ((overflowChunks s₀.pager.pageSize encoded).length + 1) ≤ u32Max := by
    rw [ran.size, overflowChunks, length_chunksOf (overflowChunkCap_pos _) (Nat.le_refl _),
      List.length_drop, next, len]
    decide
  -- the row takes an overflow page and a leaf
  have spends : Spends _ s₀ ((Call.insert key row).run env u32Max s₀) :=
    insert_first_takes root ran.fresh encodes room
  obtain ⟨s₁, -, ran₁, -⟩ := ran.calls (fun _ => rfl) allowed allowed spends trivial answer
  rw [Content.after_insert encodes] at ran₁
  -- dropped and opened again, with room for one page
  obtain ⟨s, d', opened, contains⟩ := ran₁.reopened (fun _ => rfl) (Nat.le_refl 1)
  obtain ⟨s', run, cost⟩ :=
    first_lookup_cost (fun _ => rfl) opened contains (show 0 < u32Max by decide) key
  have chain : ∀ id e, e.cell.key = key →
    Tree.chain (h := 0) key (Leaf.fresh PageSize.default id [e]) = e.ids := by
    intro id e here
    show ([e].filter fun e => e.cell.key = key).flatMap Entry.ids = e.ids
    simp [here]
  have one : (overflowIds PageSize.default s₀.nextPageId encoded).length = 1 := by
    rw [length_overflowIds, overflowChunks, length_chunksOf (overflowChunkCap_pos _) (Nat.le_refl _),
      List.length_drop, len]
    decide
  -- one read for the leaf and one for the overflow page
  refine ⟨s₁.disk, s, d', s', opened, ?_, ?_⟩
  · rw [run]
    show EStateM.Result.ok (Reply.binding ([(key, row)].lookup key)) s' = _
    simp
  · rw [cost, chain _ _ rfl]
    show d'.clock + (0 + 1) + (overflowIds PageSize.default s₀.nextPageId encoded).length = _
    rw [one]

end Pinax
