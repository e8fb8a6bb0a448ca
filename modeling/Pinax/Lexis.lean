import Pinax.Row
import Mathlib.Data.Finset.Insert

/-! # The schema vocabulary (`lexis`: `types.rs`, `identifier.rs`, `schema.rs`)

`Value` and `RealValue` of `value.rs` are in `Pinax.Row`.
-/

namespace Pinax.Lexis

inductive SqlType
  | integer
  | real
  | text
  | blob
  | boolean
  | datetime
  deriving DecidableEq

/-- `LexisError`, without the source location. -/
inductive LexisError
  | emptyIdentifier (kind : String)
  | nanReal (bits : Nat)
  | textMaxLenZero
  | textMaxLenOnNonText (sqlType : SqlType)
  | incomparableTypes (left right : SqlType)
  | emptyColumnList (table : String)
  | duplicateColumn (table column : String)
  | nullNotAllowed (column : String)
  | typeMismatch (column : String) (expected actual : SqlType)
  | textTooLong (column : String) (maxLen : UInt32) (actualLen : Nat)
  deriving DecidableEq

/-! ## Types and values -/

def sqlTypeOf : Value → Option SqlType
  | .null => none
  | .integer _ => some .integer
  | .real _ => some .real
  | .text _ => some .text
  | .blob _ => some .blob
  | .boolean _ => some .boolean
  | .datetime _ => some .datetime

/-! ## Identifiers -/

structure ColumnName where
  asStr : String
  nonempty : asStr.isEmpty = false
  deriving DecidableEq

def ColumnName.tryFrom (value : String) : Except LexisError ColumnName :=
  if h : value.isEmpty = false then .ok ⟨value, h⟩ else .error (.emptyIdentifier "column")

structure TableName where
  asStr : String
  nonempty : asStr.isEmpty = false
  deriving DecidableEq

def TableName.tryFrom (value : String) : Except LexisError TableName :=
  if h : value.isEmpty = false then .ok ⟨value, h⟩ else .error (.emptyIdentifier "table")

/-! ## Columns -/

inductive Nullability
  | nullable
  | notNull
  deriving DecidableEq

/-- The bound of a `TEXT(n)` column. -/
structure TextMaxLen where
  get : UInt32
  nonzero : get ≠ 0
  deriving DecidableEq

def TextMaxLen.tryFrom (value : UInt32) : Except LexisError TextMaxLen :=
  if h : value ≠ 0 then .ok ⟨value, h⟩ else .error .textMaxLenZero

structure ColumnDef where
  name : ColumnName
  sqlType : SqlType
  nullability : Nullability
  textMaxLen : Option TextMaxLen
  onText : textMaxLen = none ∨ sqlType = .text
  deriving DecidableEq

def ColumnDef.new (name : ColumnName) (sqlType : SqlType) (nullability : Nullability)
    (textMaxLen : Option TextMaxLen) :
    Except LexisError ColumnDef :=
  if h : textMaxLen = none ∨ sqlType = .text then .ok ⟨name, sqlType, nullability, textMaxLen, h⟩
  else .error (.textMaxLenOnNonText sqlType)

/-- The length check at the end of `check_value`; `len` is a `usize`. -/
def ColumnDef.checkLen (column : ColumnDef) (value : Value) : Except LexisError Unit :=
  match value, column.textMaxLen with
  | .text text, some maxLen =>
    let len := text.length
    let withinBound := len < 2 ^ 32 ∧ len ≤ maxLen.get.toNat
    if withinBound then .ok () else .error (.textTooLong column.name.asStr maxLen.get len)
  | _, _ => .ok ()

/-- The match at the start of `check_value` is the one of `sql_type`. -/
def ColumnDef.checkValue (column : ColumnDef) (value : Value) : Except LexisError Unit :=
  match sqlTypeOf value with
  | none => if column.nullability = .nullable then .ok () else .error (.nullNotAllowed column.name.asStr)
  | some actual =>
    if actual = column.sqlType then column.checkLen value
    else .error (.typeMismatch column.name.asStr column.sqlType actual)

/-! ## Tables -/

/-- The loop of `TableDef::new`; `seen` is its hash set. -/
def checkDistinct (table : String) : Finset String → List ColumnDef → Except LexisError Unit
  | _, [] => .ok ()
  | seen, column :: columns =>
    if column.name.asStr ∈ seen then .error (.duplicateColumn table column.name.asStr)
    else checkDistinct table (insert column.name.asStr seen) columns

theorem checkDistinct_ok {table : String} {columns : List ColumnDef} {seen : Finset String} :
    checkDistinct table seen columns = .ok () ↔
      (columns.map fun c => c.name.asStr).Nodup ∧ ∀ c ∈ columns, c.name.asStr ∉ seen := by
  induction columns generalizing seen with
  | nil => simp [checkDistinct]
  | cons column columns ih =>
    rw [checkDistinct]
    by_cases repeated : column.name.asStr ∈ seen
    · rw [if_pos repeated]
      constructor
      · intro h
        cases h
      · exact fun both => absurd repeated (both.2 column List.mem_cons_self)
    · rw [if_neg repeated, ih, List.map_cons, List.nodup_cons, List.forall_mem_cons]
      constructor
      · rintro ⟨distinct, fresh⟩
        refine ⟨⟨fun member => ?_, distinct⟩, repeated,
          fun c member old => fresh c member (Finset.mem_insert_of_mem old)⟩
        obtain ⟨c, inside, same⟩ := List.mem_map.mp member
        exact fresh c inside (Finset.mem_insert.mpr (.inl same))
      · rintro ⟨⟨first, distinct⟩, -, fresh⟩
        refine ⟨distinct, fun c member inserted => ?_⟩
        cases Finset.mem_insert.mp inserted with
        | inl same => exact first (List.mem_map.mpr ⟨c, member, same⟩)
        | inr old => exact fresh c member old

structure TableDef where
  name : TableName
  columns : List ColumnDef
  nonempty : columns ≠ []
  distinct : (columns.map fun c => c.name.asStr).Nodup

def TableDef.new (name : TableName) (columns : List ColumnDef) : Except LexisError TableDef :=
  if nonempty : columns = [] then .error (.emptyColumnList name.asStr)
  else match checked : checkDistinct name.asStr ∅ columns with
    | .error e => .error e
    | .ok () => .ok ⟨name, columns, nonempty, (checkDistinct_ok.mp checked).1⟩

/-- `TableDef::column` -/
def TableDef.column (table : TableDef) (name : String) : Option ColumnDef :=
  table.columns.find? fun column => column.name.asStr = name

end Pinax.Lexis
