import RimStone.Memory.Str

/-!
# Queries of SQLite

`rim_lite_exec` of `lite.c` prepares a statement, or takes one that it prepared before,
binds its parameters and steps it until there are no more rows, which it gathers. What it
gathers, and which row and column come next, is in variables of the file: there is one of
each, for all databases and statements.

SQLite is a library. What it knows of a text is the parameter `compile`. A statement that
it prepared cannot be bound if it was stepped since its last reset; what the steps of an
execution answer is part of the call. The text of a call is what SQLite is given.
-/

namespace RimStone

/-- What SQLite knows of a text: how many parameters it has, and its columns. -/
structure LiteInfo where
  params : Nat
  columns : List Bytes
  deriving DecidableEq, Repr

structure LiteStmt where
  info : LiteInfo
  /-- It was stepped since its last reset. -/
  stepped : Bool := false
  deriving DecidableEq, Repr

structure LiteCall where
  db : Nat
  prep : Nat
  isPrep : Bool
  text : Bytes
  params : List Bytes
  /-- The rows that the steps answer, `NULL` being a column without a value. -/
  rows : List (List (Option Bytes))
  /-- After the rows there is `SQLITE_DONE`, and no error. -/
  done : Bool
  /-- How often `rim_lite_fieldname` and `rim_lite_rows` are called after it. -/
  names : Nat := 0
  fetch : Nat := 0
  deriving DecidableEq, Repr

/-- The variables of `lite.c`, those of the program that keep statements, and the
statements there are. -/
structure RimLite where
  qnumrows : Nat := 0
  qnumfields : Nat := 0
  qrownow : Nat := 0
  qcolid : Nat := 0
  qrows : Option (List Bytes) := none
  qlens : Option (List Nat) := none
  /-- `sqlite.stmt` of a database -/
  stmt : Nat → Option Nat := fun _ => none
  prep : Nat → Option Nat := fun _ => none
  stmts : Nat → Option LiteStmt := fun _ => none
  next : Nat := 0

/-- What can be asked of a query that was executed. -/
structure LiteReport where
  nfield : Nat
  names : List (Option Bytes)
  nrows : Nat
  rows : List (Option (List (Bytes × Nat)))
  deriving DecidableEq, Repr

namespace RimLite

def current (s : RimLite) (db : Nat) : Option LiteStmt := (s.stmt db).bind s.stmts

def setStepped (s : RimLite) (db : Nat) (stepped : Bool) : RimLite :=
  match s.stmt db with
  | none => s
  | some id => { s with stmts := Function.update s.stmts id ((s.stmts id).map ({ · with stepped })) }

section

variable (compile : Nat → Bytes → Option LiteInfo)

/-- `rim_lite_prep_stmt`, and whether it fails. -/
def rimLitePrepStmt (s : RimLite) (c : LiteCall) : RimLite × Bool :=
  let (s, failed) :=
    match if c.isPrep then s.prep c.prep else none with
    | some id => ({ s with stmt := Function.update s.stmt c.db (some id) }, false)
    | none =>
      match compile c.db c.text with
      | none => ({ s with stmt := Function.update s.stmt c.db none }, true)
      | some info =>
        ({ s with
          stmt := Function.update s.stmt c.db (some s.next)
          prep := Function.update s.prep c.prep (some s.next)
          stmts := Function.update s.stmts s.next (some { info })
          next := s.next + 1 }, false)
  if failed then (s, true)
  else
    let count := ((s.current c.db).map (·.info.params)).getD 0
    (s, count ≠ c.params.length)

/-- `rim_lite_add_input` fails. -/
def rimLiteAddInput (s : RimLite) (db : Nat) (_arg : Bytes) : Bool := (s.current db).any (·.stepped)

/-- The loop over the parameters fails. -/
def bindLoop (s : RimLite) (db : Nat) : List Bytes → Bool
  | [] => false
  | arg :: params => if s.rimLiteAddInput db arg then true else bindLoop s db params

/-- A column of a row; one without a value is `RIM_EMPTY_STRING`. -/
def columnText (row : List (Option Bytes)) (i : Nat) : Bytes := (row[i]?.join).getD []

def cells (n : Nat) (row : List (Option Bytes)) : List Bytes := (List.range n).map (columnText row)

/-- The rounds of `rim_lite_get_data` for rows. The columns are counted in the first. -/
def rowLoop (count : Nat) : RimLite → Bool → List (List (Option Bytes)) → RimLite
  | s, _, [] => s
  | s, firstr, row :: rows =>
    let s := if firstr then s else { s with qnumfields := count, qrows := some [], qlens := some [] }
    let cs := cells s.qnumfields row
    rowLoop count
      { s with
        qrows := s.qrows.map (· ++ cs)
        qlens := s.qlens.map (· ++ cs.map List.length)
        qnumrows := s.qnumrows + 1 }
      true rows

/-- `rim_lite_get_data`, and whether it fails. What was gathered before an error is freed. -/
def rimLiteGetData (s : RimLite) (c : LiteCall) : RimLite × Bool :=
  let count := ((s.current c.db).map (·.info.columns.length)).getD 0
  let s := rowLoop count { s with qrows := none, qlens := none, qnumrows := 0 } false c.rows
  let s := s.setStepped c.db true
  if c.done then ({ s with qcolid := 0 }, false)
  else ({ s with qrows := s.qrows.map fun _ => [], qlens := s.qlens.map fun _ => [] }, true)

/-- `rim_lite_exec`, and whether it fails. -/
def rimLiteExec (s : RimLite) (c : LiteCall) : RimLite × Bool :=
  let (s, failed) := s.rimLitePrepStmt compile c
  if failed then (s, true)
  else if s.bindLoop c.db c.params then (s, true)
  else
    let (s, failed) := s.rimLiteGetData c
    if failed then (s, true)
    else ({ s with qrownow := 0 }.setStepped c.db false, false)

def rimLiteNrows (s : RimLite) : Nat := s.qnumrows

def rimLiteNfield (s : RimLite) : Nat := s.qnumfields

def rimLiteFieldname (s : RimLite) (db : Nat) : Option Bytes × RimLite :=
  ((s.current db).bind (·.info.columns[s.qcolid]?), { s with qcolid := s.qcolid + 1 })

/-- `rim_lite_rows`: the columns of a row and their lengths. -/
def rimLiteRows (s : RimLite) : Option (List (Bytes × Nat)) × RimLite :=
  match s.qrows, s.qlens with
  | some rows, some lens =>
    let from' := s.qnumfields * s.qrownow
    (some (((rows.drop from').take s.qnumfields).zip ((lens.drop from').take s.qnumfields)),
      { s with qrownow := s.qrownow + 1 })
  | _, _ => (none, s)

/-- `rim_lite_free`, after which a statement that is not kept is gone. -/
def rimLiteFree (s : RimLite) (db : Nat) (isPrep : Bool) : RimLite :=
  if isPrep then s
  else match s.stmt db with
    | none => s
    | some id => { s with stmts := Function.update s.stmts id none }

def fieldnames (db : Nat) : Nat → RimLite → List (Option Bytes) × RimLite
  | 0, s => ([], s)
  | n + 1, s =>
    let (name, s) := s.rimLiteFieldname db
    let (names, s) := fieldnames db n s
    (name :: names, s)

def fetchRows : Nat → RimLite → List (Option (List (Bytes × Nat))) × RimLite
  | 0, s => ([], s)
  | n + 1, s =>
    let (row, s) := s.rimLiteRows
    let (rows, s) := fetchRows n s
    (row :: rows, s)

/-- What a program learns if it asks for everything. -/
def report (s : RimLite) (db : Nat) : LiteReport where
  nfield := s.rimLiteNfield
  names := (fieldnames db s.rimLiteNfield s).1
  nrows := s.rimLiteNrows
  rows := (fetchRows s.rimLiteNrows s).1

/-- A statement of the program: the query is executed, the program asks what it wants to
know, and the result is freed. The outcome is what it could learn, or that it failed. -/
def perform (s : RimLite) (c : LiteCall) : RimLite × Option LiteReport :=
  let (s, failed) := s.rimLiteExec compile c
  if failed then (s.rimLiteFree c.db c.isPrep, none)
  else
    let s' := (fetchRows c.fetch (fieldnames c.db c.names s).2).2
    (s'.rimLiteFree c.db c.isPrep, some (s.report c.db))

end

end RimLite

/-! ## A call on its own -/

section

variable (compile : Nat → Bytes → Option LiteInfo)

/-- What a call reports if nothing but its statement, its parameters and the answers of its
steps counts. -/
def LiteCall.alone (c : LiteCall) : Option LiteReport :=
  match compile c.db c.text with
  | none => none
  | some info =>
    if info.params = c.params.length ∧ c.done = true then
      some {
        nfield := info.columns.length
        names := info.columns.map some
        nrows := c.rows.length
        rows := c.rows.map fun row => some ((RimLite.cells info.columns.length row).map fun v => (v, v.length)) }
    else none

/-- A program: the database and the text of each statement that it keeps. -/
def LiteCall.Legal (src : Nat → Option (Nat × Bytes)) (c : LiteCall) : Prop :=
  match src c.prep with
  | some (db, text) => c.isPrep = true ∧ c.db = db ∧ c.text = text
  | none => c.isPrep = false

/-- The statement that a call finds kept was stepped and not reset. -/
def LiteCall.stuck (s : RimLite) (c : LiteCall) : Bool :=
  ((if c.isPrep then s.prep c.prep else none).bind s.stmts).any (·.stepped) && !c.params.isEmpty

/-- A call that would succeed on its own does not find its statement stuck, and it returns a
row or has as many columns as the last query that returned one. -/
def LiteCall.Guard (s : RimLite) (c : LiteCall) : Prop :=
  ∀ info, compile c.db c.text = some info → info.params = c.params.length → c.done = true →
    c.stuck s = false ∧ (c.rows ≠ [] ∨ s.qnumfields = info.columns.length)

def RimLite.Step (src : Nat → Option (Nat × Bytes)) (s : RimLite) (ev : LiteCall × Option LiteReport)
    (s' : RimLite) : Prop :=
  ev.1.Legal src ∧ s.perform compile ev.1 = (s', ev.2)

end

end RimStone
