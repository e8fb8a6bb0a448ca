import Pinax.Lexis
import Pinax.Verified.RowGrammar
import Pinax.Verified.Envelope

/-! # Tables and their rows

What `TableDef::new` accepts, what `check_value` admits, how many bytes a row takes whose columns
are bounded, and what follows for a database that holds such rows.
-/

namespace Pinax

open Lexis

/-! ## Building a table -/

variable {columns : List ColumnDef} {column : ColumnDef} {table : TableDef}

/-- The loop stops at the first column whose name was there before. -/
theorem checkDistinct_error {name : String} {seen : Finset String} {e : LexisError}
    (h : checkDistinct name seen columns = .error e) :
    ∃ before column after, columns = before ++ column :: after ∧
      e = .duplicateColumn name column.name.asStr ∧
      (before.map fun c => c.name.asStr).Nodup ∧ (∀ c ∈ before, c.name.asStr ∉ seen) ∧
      (column.name.asStr ∈ seen ∨ column.name.asStr ∈ before.map fun c => c.name.asStr) := by
  induction columns generalizing seen with
  | nil => cases h
  | cons first columns ih =>
    rw [checkDistinct] at h
    by_cases repeated : first.name.asStr ∈ seen
    · rw [if_pos repeated] at h
      injection h with same
      exact ⟨[], first, columns, rfl, same.symm, List.nodup_nil,
        fun c member => absurd member List.not_mem_nil, .inl repeated⟩
    · rw [if_neg repeated] at h
      obtain ⟨before, column, after, rfl, same, distinct, fresh, again⟩ := ih h
      refine ⟨first :: before, column, after, rfl, same, ?_, ?_, ?_⟩
      · rw [List.map_cons, List.nodup_cons]
        refine ⟨fun member => ?_, distinct⟩
        obtain ⟨c, inside, same⟩ := List.mem_map.mp member
        exact fresh c inside (Finset.mem_insert.mpr (.inl same))
      · rw [List.forall_mem_cons]
        exact ⟨repeated, fun c member old => fresh c member (Finset.mem_insert_of_mem old)⟩
      · rw [List.map_cons, List.mem_cons]
        cases again with
        | inr inside => exact .inr (.inr inside)
        | inl inserted =>
          cases Finset.mem_insert.mp inserted with
          | inl same => exact .inr (.inl same)
          | inr old => exact .inl old

/-- A column is looked up by its name. -/
theorem TableDef.column_iff {name : String} :
    table.column name = some column ↔ column ∈ table.columns ∧ column.name.asStr = name := by
  have distinct := table.distinct
  rw [TableDef.column]
  generalize table.columns = columns at distinct
  induction columns with
  | nil => simp
  | cons first columns ih =>
    rw [List.map_cons, List.nodup_cons] at distinct
    rw [List.find?_cons]
    by_cases here : first.name.asStr = name
    · simp only [here, decide_true, Option.some.injEq, List.mem_cons]
      constructor
      · rintro rfl
        exact ⟨.inl rfl, here⟩
      · rintro ⟨inside, same⟩
        cases inside with
        | inl same => exact same.symm
        | inr later => exact absurd (List.mem_map.mpr ⟨column, later, same.trans here.symm⟩) distinct.1
    · simp only [here, decide_false, ih distinct.2, List.mem_cons]
      constructor
      · exact fun both => ⟨.inr both.1, both.2⟩
      · rintro ⟨inside, same⟩
        cases inside with
        | inl first => exact absurd (by rw [← first]; exact same) here
        | inr later => exact ⟨later, same⟩

/-- `TableDef::new` accepts the nonempty lists of columns with distinct names; what it builds finds
every column by its name, and otherwise it names the first column that repeats one. -/
theorem table_def_new (name : TableName) (columns : List ColumnDef) :
    ((∃ table, TableDef.new name columns = .ok table) ↔ columns ≠ [] ∧
      (columns.map fun c => c.name.asStr).Nodup) ∧
      (∀ table, TableDef.new name columns = .ok table → table.name = name ∧ table.columns = columns ∧
        ∀ key column, table.column key = some column ↔ column ∈ columns ∧ column.name.asStr = key) ∧
      ∀ e, TableDef.new name columns = .error e → (columns = [] ∧ e = .emptyColumnList name.asStr) ∨
        ∃ before column after, columns = before ++ column :: after ∧
          e = .duplicateColumn name.asStr column.name.asStr ∧
          (before.map fun c => c.name.asStr).Nodup ∧
            column.name.asStr ∈ before.map fun c => c.name.asStr := by
  rw [TableDef.new]
  by_cases none : columns = []
  · rw [dif_pos none]
    refine ⟨⟨fun ⟨table, h⟩ => ?_, fun both => absurd none both.1⟩, fun table h => ?_, fun e h => ?_⟩
    · cases h
    · cases h
    · injection h with same
      exact .inl ⟨none, same.symm⟩
  · rw [dif_neg none]
    split
    next e checked =>
      -- the scan of the names fails only at a repeated one
      have notDistinct : ¬ (columns.map fun c => c.name.asStr).Nodup := by
        intro distinct
        have accepted : checkDistinct name.asStr ∅ columns = .ok () :=
          checkDistinct_ok.mpr ⟨distinct, fun c _ => Finset.notMem_empty _⟩
        cases checked.symm.trans accepted
      refine ⟨⟨fun ⟨table, h⟩ => ?_, fun both => absurd both.2 notDistinct⟩,
        fun table h => ?_, fun e' h => ?_⟩
      · cases h
      · cases h
      · injection h with same
        obtain ⟨before, column, after, split, error, distinct, -, again⟩ := checkDistinct_error checked
        exact .inr ⟨before, column, after, split, same.symm.trans error, distinct,
          again.resolve_left (Finset.notMem_empty _)⟩
    next checked =>
      refine ⟨⟨fun _ => ⟨none, (checkDistinct_ok.mp checked).1⟩, fun _ => ⟨_, rfl⟩⟩,
        fun table h => ?_, fun e h => ?_⟩
      · injection h with same
        subst same
        exact ⟨rfl, rfl, fun key column => TableDef.column_iff⟩
      · cases h

namespace Lexis

/-! ## Checking a value -/

/-- What a column is for. -/
inductive ColumnDef.Takes (column : ColumnDef) : Value → Prop
  | null (nullable : column.nullability = .nullable) : Takes column .null
  | text {s : String} (typed : column.sqlType = .text)
      (short : ∀ maxLen ∈ column.textMaxLen, s.length ≤ maxLen.get.toNat) :
      Takes column (.text s)
  | other {value : Value} (typed : sqlTypeOf value = some column.sqlType)
      (plain : column.sqlType ≠ .text) : Takes column value

variable {value : Value}

theorem ColumnDef.checkLen_ok {s : String} :
    column.checkLen (.text s) = .ok () ↔ ∀ maxLen ∈ column.textMaxLen, s.length ≤ maxLen.get.toNat := by
  cases bound : column.textMaxLen with
  | none => simp [ColumnDef.checkLen, bound]
  | some maxLen =>
    -- a length above `u32::MAX` is above every bound
    have small := maxLen.get.toNat_lt
    by_cases short : s.length ≤ maxLen.get.toNat
    · have fits : s.length < 4294967296 := by omega
      simp [ColumnDef.checkLen, bound, fits, short]
    · simp [ColumnDef.checkLen, bound, short]

theorem ColumnDef.checkValue_ok : column.checkValue value = .ok () ↔ column.Takes value := by
  constructor
  · intro checked
    cases value with
    | null =>
      by_cases nullable : column.nullability = .nullable
      · exact .null nullable
      · simp [ColumnDef.checkValue, sqlTypeOf, nullable] at checked
    | text s =>
      by_cases typed : SqlType.text = column.sqlType
      · simp only [ColumnDef.checkValue, sqlTypeOf, if_pos typed] at checked
        exact .text typed.symm (checkLen_ok.mp checked)
      · simp [ColumnDef.checkValue, sqlTypeOf, typed] at checked
    | integer v | real v | blob b | boolean b | datetime v =>
      simp only [ColumnDef.checkValue, sqlTypeOf] at checked
      split at checked
      next typed => exact .other (congrArg some typed) (by rw [← typed]; simp)
      next other => cases checked
  · intro takes
    cases takes with
    | null nullable => simp [ColumnDef.checkValue, sqlTypeOf, nullable]
    | text typed short => simpa [ColumnDef.checkValue, sqlTypeOf, typed] using checkLen_ok.mpr short
    | other typed plain =>
      cases value with
      | null => cases typed
      | text s => exact absurd (Option.some.inj typed).symm plain
      | integer v | real v | blob b | boolean b | datetime v =>
        have same := Option.some.inj typed
        simp [ColumnDef.checkValue, sqlTypeOf, same, ColumnDef.checkLen]

/-! ## How long a row is -/

/-- The most bytes that a value of the column is encoded in. -/
def ColumnDef.width (column : ColumnDef) : Option Nat :=
  match column.sqlType with
  | .integer | .real | .datetime => some 9
  | .boolean => some 2
  | .text => column.textMaxLen.map fun maxLen => 5 + 4 * maxLen.get.toNat
  | .blob => none

/-- A character takes up to four bytes. -/
theorem length_utf8_le (s : String) : (utf8 s).length ≤ 4 * s.length := by
  have bytes : utf8 s = s.toList.flatMap String.utf8EncodeChar := by
    rw [utf8, ← String.utf8Encode_toList, List.utf8Encode]
    simp
  rw [bytes, ← String.length_toList, List.length_flatMap]
  induction s.toList with
  | nil => simp
  | cons c chars ih =>
    have size := c.utf8Size_le_four
    simp only [List.map_cons, List.sum_cons, List.length_cons, String.length_utf8EncodeChar] at ih ⊢
    omega

theorem ColumnDef.two_le_width {width : Nat} (bounded : column.width = some width) : 2 ≤ width := by
  rw [ColumnDef.width] at bounded
  cases typed : column.sqlType with
  | integer | real | boolean | datetime =>
    rw [typed] at bounded
    obtain rfl := Option.some.inj bounded
    decide
  | text =>
    rw [typed] at bounded
    obtain ⟨maxLen, -, rfl⟩ := Option.map_eq_some_iff.mp bounded
    omega
  | blob =>
    rw [typed] at bounded
    cases bounded

theorem ColumnDef.Takes.width_le {width : Nat} (takes : column.Takes value)
    (bounded : column.width = some width) (small : width ≤ u32Max) :
    value.Fits ∧ (valueBytes value).length ≤ width := by
  cases takes with
  | null nullable =>
    have two := ColumnDef.two_le_width bounded
    refine ⟨trivial, ?_⟩
    simp [valueBytes]
    omega
  | @text s typed short =>
    rw [ColumnDef.width, typed] at bounded
    obtain ⟨maxLen, present, rfl⟩ := Option.map_eq_some_iff.mp bounded
    have chars := short maxLen present
    have bytes := length_utf8_le s
    simp only [u32Max] at small
    refine ⟨?_, ?_⟩
    · show (utf8 s).length < 2 ^ 32
      omega
    · simp only [valueBytes, List.length_append, BigEndian.length_toBe]
      omega
  | other typed plain =>
    rw [ColumnDef.width] at bounded
    cases value with
    | null => cases typed
    | text s => exact absurd (Option.some.inj typed).symm plain
    | blob b =>
      rw [← Option.some.inj typed] at bounded
      cases bounded
    | integer v | real v | boolean b | datetime v =>
      rw [← Option.some.inj typed] at bounded
      obtain rfl := Option.some.inj bounded
      exact ⟨trivial, by simp [valueBytes]⟩

/-- The most bytes that the values of the columns are encoded in. -/
def columnsWidth : List ColumnDef → Option Nat
  | [] => some 0
  | column :: columns => do
    let width ← column.width
    let others ← columnsWidth columns
    return width + others

/-- The most bytes that a row of the table is encoded in, if the columns bound it. -/
def TableDef.width (table : TableDef) : Option Nat := (columnsWidth table.columns).map (4 + ·)

/-- The row has a value for each column, which `check_value` accepts. -/
def TableDef.Admits (table : TableDef) (row : Row) : Prop :=
  List.Forall₂ (fun column value => column.checkValue value = .ok ()) table.columns row.values

theorem width_values {values : List Value} {width : Nat} (bounded : columnsWidth columns = some width)
    (small : width ≤ u32Max)
    (admits : List.Forall₂ (fun column value => ColumnDef.checkValue column value = .ok ())
      columns values) :
    (∀ value ∈ values, value.Fits) ∧ (values.flatMap valueBytes).length ≤ width ∧
      2 * values.length ≤ width := by
  induction admits generalizing width with
  | nil => exact ⟨fun _ member => absurd member List.not_mem_nil, Nat.zero_le _, Nat.zero_le _⟩
  | cons checked _ ih =>
    rw [columnsWidth] at bounded
    obtain ⟨first, one, bounded⟩ := Option.bind_eq_some_iff.mp bounded
    obtain ⟨others, rest, bounded⟩ := Option.bind_eq_some_iff.mp bounded
    obtain rfl := Option.some.inj bounded
    obtain ⟨fits, length⟩ := (ColumnDef.checkValue_ok.mp checked).width_le one (by omega)
    obtain ⟨allFit, total, count⟩ := ih rest (by omega)
    have two := ColumnDef.two_le_width one
    refine ⟨List.forall_mem_cons.mpr ⟨fits, allFit⟩, ?_, ?_⟩
    · rw [List.flatMap_cons, List.length_append]
      omega
    · rw [List.length_cons]
      omega

/-- A row of a table of bounded columns is encoded within its width. -/
theorem TableDef.Admits.encode {row : Row} {width : Nat} (admits : table.Admits row)
    (bounded : table.width = some width) (small : width ≤ u32Max) (key : I64) :
    ∃ out, row.encode key = .ok out ∧ 4 ≤ out.length ∧ out.length ≤ width := by
  obtain ⟨columns, sum, rfl⟩ := Option.map_eq_some_iff.mp bounded
  simp only [u32Max] at small
  obtain ⟨fits, total, count⟩ := width_values sum (by simp only [u32Max]; omega) admits
  refine ⟨toBe 4 row.values.length ++ row.values.flatMap valueBytes, ?_, ?_, ?_⟩
  · rw [Row.encode, tooLargeAsU32, if_pos (by omega), ok_bind]
    exact encodeValues_of_fits _ key fits
  · rw [List.length_append, BigEndian.length_toBe]
    exact Nat.le_add_right _ _
  · rw [List.length_append, BigEndian.length_toBe]
    omega

end Lexis

/-! ## Databases of rows of a kind -/

section kinds

variable {P : Row → Prop} {call : Call} {reply : Reply} {rows : List (I64 × Row)} {env : Env}
  {guard guard' : CallGuard}

def Call.Puts (P : Row → Prop) : Call → Prop
  | .insert _ row | .update _ row => P row
  | .get _ | .delete _ | .scan => True

/-- The rows that a reply shows. -/
def Reply.found : Reply → List Row
  | .done => []
  | .binding row => row.toList
  | .removed row => [row]
  | .rows rows => rows.map Prod.snd

theorem Call.Puts.rowsAfter (puts : call.Puts P) (all : ∀ r ∈ rows, P r.2) :
    ∀ r ∈ call.rowsAfter rows, P r.2 := by
  intro r member
  cases call with
  | insert key row | update key row =>
    cases List.mem_append.mp member with
    | inl below => exact all r (List.mem_of_mem_filter below)
    | inr from_here =>
      cases List.mem_cons.mp from_here with
      | inl new => exact new ▸ puts
      | inr above => exact all r (List.mem_of_mem_filter above)
  | delete key => exact all r (List.mem_of_mem_filter member)
  | get key => exact all r member
  | scan => exact all r member

theorem Call.reply_found (replies : call.reply rows = .ok reply) (all : ∀ r ∈ rows, P r.2) :
    ∀ row ∈ reply.found, P row := by
  -- a row that is found is one of the rows
  have looked : ∀ key row, rows.lookup key = some row → P row := by
    intro key row found
    obtain ⟨before, after, split, -⟩ := List.lookup_eq_some_iff.mp found
    exact all (key, row) (split ▸ List.mem_append_right before List.mem_cons_self)
  cases call with
  | insert key row =>
    by_cases present : (rows.lookup key).isSome
    · cases (if_pos present).symm.trans replies
    · obtain ⟨encoded, -, rfl⟩ := map_ok ((if_neg present).symm.trans replies)
      exact fun row none => absurd none List.not_mem_nil
  | update key row =>
    by_cases present : (rows.lookup key).isSome
    · obtain ⟨encoded, -, rfl⟩ := map_ok ((if_pos present).symm.trans replies)
      exact fun row none => absurd none List.not_mem_nil
    · cases (if_neg present).symm.trans replies
  | get key =>
    obtain rfl := Except.ok.inj replies
    exact fun row found => looked key row (Option.mem_toList.mp found)
  | delete key =>
    rw [Call.reply] at replies
    cases found : rows.lookup key with
    | none =>
      rw [found] at replies
      cases replies
    | some old =>
      rw [found] at replies
      obtain rfl := Except.ok.inj replies
      intro row member
      rw [List.mem_singleton.mp member]
      exact looked key old found
  | scan =>
    obtain rfl := Except.ok.inj replies
    intro row member
    obtain ⟨r, listed, rfl⟩ := List.mem_map.mp member
    exact all r listed

def DurableMap.All (P : Row → Prop) (m : DurableMap) : Prop :=
  (∀ r ∈ m.rows, P r.2) ∧ ∀ rows ∈ m.doubt, ∀ r ∈ rows, P r.2

/-- A step with rows of a kind keeps the rows of that kind, and shows such rows only. -/
theorem DurableMap.All.step {m m' : DurableMap} {observation : Observation} (all : m.All P)
    (step : m.Step observation m') (puts : ∀ call result, observation = .call call result → call.Puts P) :
    m'.All P ∧ ∀ call reply, observation = .call call (.ok reply) → ∀ row ∈ reply.found, P row := by
  obtain ⟨current, doubted⟩ := all
  cases step with
  | looked looks replies =>
    refine ⟨⟨current, doubted⟩, fun call' reply' same => ?_⟩
    cases same
    exact Call.reply_found replies current
  | changed mutates replies =>
    refine ⟨⟨(puts _ _ rfl).rowsAfter current, fun rows none => by cases none⟩,
      fun call' reply' same => ?_⟩
    cases same
    exact Call.reply_found replies current
  | refused replies => exact ⟨⟨current, doubted⟩, fun call' reply' same => by cases same⟩
  | failed => exact ⟨⟨current, doubted⟩, fun call' reply' same => by cases same⟩
  | doubted mutates replies =>
    refine ⟨⟨current, fun rows inDoubt => ?_⟩, fun call' reply' same => by cases same⟩
    obtain rfl := Option.some.inj inDoubt
    exact (puts _ _ rfl).rowsAfter current
  | dropped => exact ⟨⟨current, doubted⟩, fun call' reply' same => by cases same⟩
  | found => exact ⟨⟨current, fun rows none => by cases none⟩, fun call' reply' same => by cases same⟩
  | resolved =>
    exact ⟨⟨doubted _ rfl, fun rows none => by cases none⟩, fun call' reply' same => by cases same⟩
  | unopened => exact ⟨⟨current, doubted⟩, fun call' reply' same => by cases same⟩

/-- A map into which rows of a kind are put holds and shows such rows only. -/
theorem durableMap_all (P : Row → Prop) :
    durableMap.Invariant fun observed m => (∀ call result, .call call result ∈ observed → call.Puts P) →
      m.All P ∧ ∀ call reply, .call call (.ok reply) ∈ observed → ∀ row ∈ reply.found, P row where
  start := by
    rintro m rfl _
    have empty : DurableMap.All P ⟨[], none, true⟩ :=
      ⟨fun r none => absurd none List.not_mem_nil, fun rows none => by cases none⟩
    exact ⟨empty, fun call reply none => absurd none List.not_mem_nil⟩
  step := by
    intro observed m observation m' ih step puts
    obtain ⟨all, shown⟩ := ih fun call result member => puts call result (List.mem_append_left _ member)
    obtain ⟨all', shows⟩ := all.step step fun call result same =>
      puts call result (List.mem_append_right _ (List.mem_singleton.mpr same.symm))
    refine ⟨all', fun call reply member => ?_⟩
    cases List.mem_append.mp member with
    | inl before => exact shown call reply before
    | inr last => exact shows call reply (List.mem_singleton.mp last).symm

/-- A weaker guard allows the same sessions. -/
theorem guardedSessions_mono (weaker : ∀ call fuel s, guard call fuel s → guard' call fuel s) :
    (guardedSessions env guard).Simulates (guardedSessions env guard') Eq where
  start := fun {s} starts => ⟨s, starts, rfl⟩
  step := by
    rintro session _ observation session' rfl step
    cases step with
    | call c fuel within caught allowed =>
      exact ⟨_, .call c fuel within caught (weaker c fuel _ allowed), rfl⟩
    | drop => exact ⟨_, .drop, rfl⟩
    | reopen run => exact ⟨_, .reopen run, rfl⟩
    | refused run => exact ⟨_, .refused run, rfl⟩

/-- The calls that are observed are such as the guard allows. -/
theorem guardedSessions_puts (only : ∀ call fuel s, guard call fuel s → call.Puts P) :
    (guardedSessions env guard).Invariant fun observed _ => ∀ call result,
      .call call result ∈ observed → call.Puts P where
  start := fun _ call result none => absurd none List.not_mem_nil
  step := by
    intro observed session observation session' ih step call result member
    cases List.mem_append.mp member with
    | inl before => exact ih call result before
    | inr last =>
      cases step with
      | call c fuel within caught allowed =>
        cases List.mem_singleton.mp last
        exact only _ fuel _ allowed
      | drop => cases List.mem_singleton.mp last
      | reopen run => cases List.mem_singleton.mp last
      | refused run => cases List.mem_singleton.mp last

end kinds

/-- Calls with rows of the table on a database of that page size, and a bound that no path of a tree
exceeds. -/
def typed (table : TableDef) (ps : PageSize) : CallGuard := fun call fuel s =>
  u32Max ≤ fuel ∧ call.Puts table.Admits ∧ s.pager.pageSize = ps

theorem typed_measured {ps : PageSize} {width fuel : Nat} {call : Call} {s : Database}
    (bounded : table.width = some width) (small : width ≤ u32Max)
    (allowed : typed table ps call fuel s) : measured ps 4 width call fuel s := by
  obtain ⟨deep, puts, size⟩ := allowed
  have within : ∀ key row, table.Admits row → ∀ encoded, row.encode key = .ok encoded →
      4 ≤ encoded.length ∧ encoded.length ≤ width := by
    intro key row admits encoded encodes
    obtain ⟨out, encodes', least, most⟩ := admits.encode bounded small key
    obtain rfl := Except.ok.inj (encodes.symm.trans encodes')
    exact ⟨least, most⟩
  refine ⟨deep, ?_, size⟩
  cases call with
  | insert key row => exact within key row puts
  | update key row => exact within key row puts
  | get key => trivial
  | delete key => trivial
  | scan => trivial

/-- A database of rows that `check_value` accepted for the columns of a table, where the columns
bound the rows and the page size is even for such rows: every such row has an encoding of at most
the width of the table, no split builds a half that does not fit, the database is a durable map, and
every row that any call ever shows is one that `check_value` accepts. -/
theorem typed_rows_refine_durable_map {env : Env} {ps : PageSize} {width : Nat}
    {observed : List Observation} {session : Session} (bounded : table.width = some width)
    (small : width ≤ u32Max) (evens : ps.Evens 4 width)
    (trace : (guardedSessions env (typed table ps)).Trace observed session) :
    (∀ row key, table.Admits row → ∃ out, row.encode key = .ok out ∧ 4 ≤ out.length ∧
      out.length ≤ width) ∧
      (sessions env).Trace observed session ∧ (∃ m, durableMap.Trace observed m ∧ session.Shows env m) ∧
      ∀ call reply, .call call (.ok reply) ∈ observed → ∀ row ∈ reply.found, table.Admits row := by
  have tracks := measured_tracks env evens small
  have measures := (guardedSessions_mono fun call fuel s => typed_measured bounded small).trace trace
  obtain ⟨_, measuring, rfl⟩ := measures
  obtain ⟨_, fitting, rfl, -⟩ := (guardedSessions_fitting tracks fun contains known allowed =>
    Content.Measured.fitting known contains evens small allowed).trace measuring
  obtain ⟨m, mapped, -, shows⟩ := (sessions_simulated env).trace fitting
  have puts := (guardedSessions_puts fun call fuel s allowed => allowed.2.1).trace trace
  exact ⟨fun row key admits => admits.encode bounded small key, fitting, ⟨m, mapped, shows⟩,
    ((durableMap_all table.Admits).trace mapped puts).2⟩

theorem Row.encode_four (key : I64) :
    Row.encode ⟨[.integer ⟨1, by decide, by decide⟩, .text "a", .boolean true, .null]⟩ key
    = .ok [0, 0, 0, 4, 1, 0, 0, 0, 0, 0, 0, 0, 1, 3, 0, 0, 0, 1, 97, 5, 1, 0] := rfl

/-- A row of a table with four columns is inserted, and found when the database was dropped and
opened again. -/
theorem typed_rows_refine_durable_map_kept :
    let one : I64 := ⟨1, by decide, by decide⟩
    let two : I64 := ⟨2, by decide, by decide⟩
    let row : Row := ⟨[.integer one, .text "a", .boolean true, .null]⟩
    ∃ (table : TableDef) (session : Session) (m : DurableMap), table.width = some 273 ∧ table.Admits row ∧
      durableMap.Trace [.call (.insert two row) (.error .io), .call (.insert one row) (.ok .done),
        .drop, .opened, .call (.get one) (.ok (.binding (some row)))] m ∧
          session.Shows (Env.failingAt .dev (fun _ => 0) 4) m := by
  intro one two row
  let table : TableDef := ⟨⟨"t", by decide⟩, [⟨⟨"id", by decide⟩, .integer, .notNull, none, by decide⟩,
    ⟨⟨"name", by decide⟩, .text, .nullable, some ⟨61, by decide⟩, by decide⟩,
    ⟨⟨"active", by decide⟩, .boolean, .notNull, none, by decide⟩,
    ⟨⟨"seen", by decide⟩, .datetime, .nullable, none, by decide⟩], by decide, by decide⟩
  have bounded : table.width = some 273 := by decide
  have admits : table.Admits row := .cons rfl (.cons rfl (.cons rfl (.cons rfl .nil)))
  have puts : ∀ call ∈ [Call.insert two row, .insert one row, .get one], call.Puts table.Admits := by
    intro call member
    simp only [List.mem_cons, List.not_mem_nil, or_false] at member
    rcases member with rfl | rfl | rfl
    · exact admits
    · exact admits
    · trivial
  obtain ⟨session, trace⟩ :=
    guardedSessions_kept .dev (fun _ => 0)
      (typed table PageSize.default) one two Row.encode_four (by decide)
    fun call s member size _ => ⟨Nat.le_refl _, puts call member, size⟩
  obtain ⟨-, -, ⟨m, mapped, shows⟩, -⟩ :=
    typed_rows_refine_durable_map bounded (by decide) (PageSize.default.evens_short (Nat.le_refl _)) trace
  exact ⟨table, session, m, bounded, admits, mapped, shows⟩

end Pinax
