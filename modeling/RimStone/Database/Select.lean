import RimStone.Database.Lite
import RimStone.Database.Session

/-!
# The rows of a query

`rim_select_table` executes a query, has its result stored, and fills an array with its fields row by row. The array
has room for 200 rows and grows by as many. The client libraries are not part of the program: what they answer is part
of the query, and a row is a list of fields, where `none` is NULL. MariaDB answers the fetch of a prepared statement
into buffers of length 0 with `MYSQL_DATA_TRUNCATED` if a field of the row has a byte, and with 0 if none has; the
lengths of the fields are known then. The rows of SQLite are those that `lite.c` gathered.
-/

namespace RimStone

structure ResultSet where
  columns : List Bytes
  rows : List (List (Option Bytes))
  rect : ∀ row ∈ rows, row.length = columns.length
  wide : rows ≠ [] → columns ≠ []

structure MariaAnswers extends ResultSet where
  isPrep : Bool
  executes : Bool := true
  /-- `mysql_store_result` or `mysql_stmt_store_result` fails. -/
  storeFails : Bool := false
  /-- `mysql_use_result` fails. -/
  useFails : Bool := false
  /-- `mysql_stmt_result_metadata` fails. -/
  metaFails : Bool := false
  /-- `mysql_stmt_bind_result`, `mysql_stmt_fetch` and `mysql_stmt_fetch_column` fail for a row. -/
  bindFails : Nat → Bool := fun _ => false
  fetchFails : Nat → Bool := fun _ => false
  columnFails : Nat → Nat → Bool := fun _ _ => false
  /-- What `rim_malloc` finds in memory. -/
  stale : UInt8 := 0

structure PgAnswers extends ResultSet where
  executes : Bool := true

structure LiteAnswers where
  compile : Nat → Bytes → Option LiteInfo
  before : RimLite
  call : LiteCall

inductive QuerySource
  | mariadb (m : MariaAnswers)
  | postgres (p : PgAnswers)
  | sqlite (l : LiteAnswers)

/-- A call of `rim_select_table`. -/
structure Select where
  source : QuerySource
  /-- `col_names != NULL` -/
  wantNames : Bool := false
  /-- `data != NULL` -/
  wantData : Bool := true
  affected : Int := 0
  /-- The code of the vendor's error, whether the connection is lost then, and whether an error ends the request. -/
  errorCode : Bytes := []
  lost : Bool := false
  exits : Bool := false

/-- What `row[i]` points to. -/
inductive RowPtr
  | null
  | library (b : Bytes)
  /-- A block of `rim_malloc`, or `RIM_EMPTY_STRING`. -/
  | block (b : Bytes)
  /-- `dummy` of `rim_maria_stmt_rows`, which has returned. -/
  | dummy
  deriving DecidableEq, Repr

/-- What an entry of `data` points to. -/
inductive DbCell
  /-- `rim_calloc` made it `NULL`, or `rim_realloc` anything. -/
  | unset
  | block (b : Bytes)
  | dummy
  deriving DecidableEq, Repr

/-- What `rim_select_table` returns. An output that it does not write is `none`. -/
structure SelectOut where
  nrow : Option Nat := none
  ncol : Option Nat := none
  arow : Option Int := none
  colNames : Option (List Bytes) := none
  /-- `data` and `dlen`, entry by entry -/
  cells : List (DbCell × Nat) := []
  er : Bytes := ascii "0"
  deriving DecidableEq, Repr

/-- How a call of `rim_select_table` ends. -/
inductive SelectEnd
  | returns (o : SelectOut)
  /-- `rim_report_error`: Database operation failed: [%s], error code [%s] -/
  | reports
  | undefined
  deriving DecidableEq, Repr

/-- `rim_handle_error` without a retry, where `o` is what was written. -/
def Select.rimHandleError (q : Select) (o : SelectOut) : SelectEnd :=
  if q.exits then .reports else .returns { o with er := if q.lost then ascii "-1" else q.errorCode }

/-! ## MariaDB -/

namespace MariaAnswers

variable (m : MariaAnswers)

/-- `rim_maria_store` fails. -/
def rimMariaStore : Bool := m.storeFails

/-- `rim_maria_use` fails. -/
def rimMariaUse : Bool := if m.isPrep then m.metaFails else m.useFails

/-- `rim_maria_nfield`, unless there is no metadata to ask. -/
def rimMariaNfield : Option Nat := if m.isPrep && m.metaFails then none else some m.columns.length

/-- What `mysql_stmt_fetch` answers, where buffers have length 0. -/
inductive Fetched
  | okay
  | truncated
  | failed
  deriving DecidableEq, Repr

/-- `mysql_stmt_fetch` of row `r` -/
def mysqlStmtFetch (r : Nat) (row : List (Option Bytes)) : Fetched :=
  if m.fetchFails r then .failed
  else if row.any fun v => !(v.getD []).isEmpty then .truncated
  else .okay

/-- A buffer of `rlen[i] + 2` bytes after `mysql_stmt_fetch_column`, which writes nothing for NULL. -/
def fetchedBuffer : Option Bytes → Bytes
  | none => [m.stale, m.stale]
  | some v => v ++ [0, m.stale]

/-- `rim_maria_stmt_rows` of row `r`: the fields and their lengths, unless it fails. -/
def rimMariaStmtRows (r : Nat) : Option (List (RowPtr × Nat)) :=
  if m.bindFails r then none
  else match m.rows[r]? with
    | none => none
    | some row =>
      match m.mysqlStmtFetch r row with
      | .failed => none
      | .okay => some (row.map fun v => (.dummy, (v.getD []).length))
      | .truncated =>
        if (List.range row.length).any (m.columnFails r) then none
        else some (row.map fun v => (.block (m.fetchedBuffer v), (v.getD []).length))

/-- `rim_maria_rows` of row `r`: `need_copy`, the fields and their lengths. -/
def rimMariaRows (r : Nat) : Option (Bool × List (RowPtr × Nat)) :=
  if m.isPrep then (m.rimMariaStmtRows r).map fun row => (false, row)
  else
    let row := (m.rows[r]?).getD []
    some (true, row.map fun v => (match v with | none => .null | some b => .library b, (v.getD []).length))

end MariaAnswers

/-- `rim_pg_rows` of row `r` -/
def PgAnswers.rimPgRows (p : PgAnswers) (r : Nat) : List (RowPtr × Nat) :=
  ((p.rows[r]?).getD []).map fun v => (.library (v.getD []), (v.getD []).length)

/-- The variables of `lite.c` after the execution. -/
def LiteAnswers.after (l : LiteAnswers) : RimLite := (l.before.rimLiteExec l.compile l.call).1

/-! ## Any database -/

namespace QuerySource

/-- `rim_execute_SQL` comes back with a connection. -/
def executes : QuerySource → Bool
  | mariadb m => m.executes
  | postgres p => p.executes
  | sqlite l => !(l.before.rimLiteExec l.compile l.call).2

/-- The variables of `lite.c` when the query was executed. -/
def lite : QuerySource → RimLite
  | sqlite l => l.after
  | _ => {}

/-- The result cannot be stored, or not be used where only its columns are asked for. -/
def storeFails (wantData : Bool) : QuerySource → Bool
  | mariadb m => if wantData then m.rimMariaStore else m.rimMariaUse
  | _ => false

def nfield : QuerySource → Option Nat
  | mariadb m => m.rimMariaNfield
  | postgres p => some p.columns.length
  | sqlite l => some l.after.rimLiteNfield

def nrows : QuerySource → Nat
  | mariadb m => m.rows.length
  | postgres p => p.rows.length
  | sqlite l => l.after.rimLiteNrows

/-- The name of column `i`, which is the next for SQLite. -/
def fieldname (s : RimLite) (i : Nat) : QuerySource → Option Bytes × RimLite
  | mariadb m => (m.columns[i]?, s)
  | postgres p => (p.columns[i]?, s)
  | sqlite l => s.rimLiteFieldname l.call.db

/-- Row `r`, which is the next: `need_copy`, the fields and their lengths, unless it cannot be fetched. -/
def fetchRow (s : RimLite) (r : Nat) : QuerySource → Option (Bool × List (RowPtr × Nat)) × RimLite
  | mariadb m => (m.rimMariaRows r, s)
  | postgres p => (some (true, p.rimPgRows r), s)
  | sqlite _ =>
    let (row, s) := s.rimLiteRows
    (row.map fun row => (false, row.map fun v => (.block (v.1 ++ [0]), v.2)), s)

end QuerySource

def nameLoop (src : QuerySource) : Nat → Nat → RimLite → Option (List Bytes × RimLite)
  | 0, _, s => some ([], s)
  | n + 1, i, s => do
    let (name, s) := src.fieldname s i
    let name ← name -- `rim_strdup` of `NULL` is undefined
    let (names, s) ← nameLoop src n (i + 1) s
    some (name :: names, s)

/-- A field becomes an entry of `data`, with a null behind its `len` bytes. -/
def fillCell (needCopy : Bool) (p : RowPtr) (len : Nat) : Option DbCell :=
  if needCopy then
    let b := match p with
      | .library b => b
      | .block b => b
      | _ => []
    if len ≤ b.length then some (.block (b.take len ++ [0])) else none
  else match p with
    | .block b => (poke b len 0).map .block
    | .dummy => some .dummy -- the null is written where the array was
    | _ => none

/-- The loop over the fields of row `r`, of which `n` are left. -/
def fieldLoop (needCopy : Bool) (numFields r : Nat) (row : List (RowPtr × Nat)) :
    Nat → List (DbCell × Nat) → Option (List (DbCell × Nat))
  | 0, cells => some cells
  | n + 1, cells => do
    let i := numFields - (n + 1)
    let cpos := r * numFields + i
    let (p, len) ← row[i]?
    let cell ← fillCell needCopy p len
    if cpos < cells.length then fieldLoop needCopy numFields r row n (cells.set cpos (cell, len)) else none

def RIM_INITIAL_QUERY_BATCH : Nat := 200

/-- Entries of `data` and `dlen` that were not filled. -/
def emptyCells (rows numFields : Nat) : List (DbCell × Nat) := List.replicate (rows * numFields) (.unset, 0)

namespace Select

/-- The loop over the rows, of which `n` are left, from row `r` on. -/
def selectLoop (q : Select) (numFields : Nat) : Nat → Nat → Nat → RimLite → SelectOut → SelectEnd
  | 0, _, _, _, o => .returns o
  | n + 1, r, queryBatch, s, o =>
    match q.source.fetchRow s r with
    | (none, _) => q.rimHandleError o
    | (some (needCopy, row), s) =>
      let (queryBatch, cells) :=
        if r ≥ queryBatch then
          (queryBatch + RIM_INITIAL_QUERY_BATCH, o.cells ++ emptyCells RIM_INITIAL_QUERY_BATCH numFields)
        else (queryBatch, o.cells)
      match fieldLoop needCopy numFields r row numFields cells with
      | none => .undefined
      | some cells => selectLoop q numFields n (r + 1) queryBatch s { o with cells }

/-- `rim_select_table`, where `er`, `arow`, `nrow` and `ncol` are not `NULL`. -/
def rimSelectTable (q : Select) : SelectEnd :=
  if !q.source.executes then
    -- `rim_execute_SQL` handled the error
    match q.rimHandleError {} with
    | .returns o => .returns { o with nrow := some 0 }
    | e => e
  else if q.source.storeFails q.wantData then q.rimHandleError {}
  else match q.source.nfield with
    | none => .undefined
    | some numFields =>
      let o : SelectOut := { arow := some q.affected, ncol := some numFields }
      match if q.wantNames then (nameLoop q.source numFields 0 q.source.lite).map fun (names, s) => (some names, s)
          else some (none, q.source.lite) with
      | none => .undefined
      | some (colNames, s) =>
        if !q.wantData then .returns { o with nrow := some 0, colNames }
        else
          let nrow := q.source.nrows
          q.selectLoop numFields nrow 0 RIM_INITIAL_QUERY_BATCH s
            { o with nrow := some nrow, colNames, cells := emptyCells RIM_INITIAL_QUERY_BATCH numFields }

end Select

end RimStone
