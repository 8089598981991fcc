import Mathlib.Data.Nat.Digits.Defs
import Mathlib.Logic.Function.Basic
import RimStone.Memory.Chars

/-!
# Connections and the statements prepared on them

`db.c` keeps one connection for each database and connects again when a connection was
lost outside of a transaction. A statement that was prepared belongs to the session it was
prepared on. The program keeps it in a static variable, which `rim_db_prep` registers at
the first execution and sets to `NULL`, with all others of the same vendor, when there is a
connection to make.

A session knows the statements prepared on it: those of PostgreSQL by their names, which
come from the address of the variable, those of MariaDB and SQLite by themselves. Whether a
server accepts a connection, whether it accepts a statement, and when a connection is lost
are part of the operations. What `lite.c` writes to the variable of a statement that is
not prepared is never read, and is left out.
-/

namespace RimStone

/-- The vendors: `RIM_DB_MARIADB`, `RIM_DB_POSTGRES`, `RIM_DB_SQLITE`. -/
inductive DbVendor
  | mariadb
  | postgres
  | sqlite
  deriving DecidableEq, Repr

/-- A prepared statement: the name it has, or the object it is. -/
inductive DbStmt
  | name (n : Bytes)
  | object (id : Nat)
  deriving DecidableEq, Repr

structure DbSession where
  alive : Bool := true
  stmts : List DbStmt := []
  deriving DecidableEq, Repr

/-- `rim_db_connection` -/
structure DbConn where
  dbType : DbVendor
  dbc : Option DbSession := none
  isBeginTransaction : Bool := false
  hasConnected : Bool := false
  deriving DecidableEq, Repr

structure RimDb where
  conn : Nat → DbConn
  prep : UInt64 → Option DbStmt := fun _ => none
  /-- `_rim_sql_buf_set`: the variable was registered. -/
  bufSet : UInt64 → Bool := fun _ => false
  allpreps : List (UInt64 × DbVendor) := []
  next : Nat := 0

inductive DbAnswer
  | connected
  | refused
  /-- `rim_maria_connect` cannot set the mode and closes the connection. -/
  | unset
  deriving DecidableEq, Repr

inductive DbError
  | connect
  | lost
  | rejected
  /-- A prepared statement that its session does not have. -/
  | unknown
  /-- A statement is prepared under a name that its session has. -/
  | duplicate
  deriving DecidableEq, Repr

/-- An execution of a statement, and what happens while it is carried out. -/
structure DbCall where
  db : Nat
  prep : UInt64
  isPrep : Bool
  prepares : Bool := true
  executes : Bool := true
  /-- Answers to the first connection and to the one after a loss. -/
  first : DbAnswer := .connected
  again : DbAnswer := .connected
  /-- The connection is lost when the statement is to be executed, and once more. -/
  drops : Bool := false
  dropsAgain : Bool := false
  exits : Bool := false
  deriving DecidableEq, Repr

/-- A digit of `%p`. -/
def pointerDigit (d : Nat) : UInt8 := UInt8.ofNat (if d < 10 then 48 + d else 87 + d)

/-- `%p` of an address that is not `NULL` -/
def pointerText (p : UInt64) : Bytes := ascii "0x" ++ (Nat.digits 16 p.toNat).reverse.map pointerDigit

/-- `rim_pg_stmt`, where `PGSTMTNAMEL` is 30. -/
def rimPgStmt (p : UInt64) : Bytes :=
  let tmp := (pointerText p).take 29
  let tmp := if tmp.head?.any fun c => isalnum c && !isdigit c then tmp else tmp.set 0 65
  tmp.map fun c => if isalnum c then c else 65

namespace RimDb

def setConn (s : RimDb) (db : Nat) (conn : DbConn) : RimDb := { s with conn := Function.update s.conn db conn }

def setPrep (s : RimDb) (p : UInt64) (st : Option DbStmt) : RimDb := { s with prep := Function.update s.prep p st }

/-- `rim_pg_close_stmt`, `rim_maria_close_stmt` and `rim_lite_close_stmt`: nothing is done
without a connection. -/
def rimCloseStmt (s : RimDb) (db : Nat) (st : Option DbStmt) : RimDb :=
  match st, (s.conn db).dbc with
  | some st, some ses => s.setConn db { s.conn db with dbc := some { ses with stmts := ses.stmts.erase st } }
  | _, _ => s

/-- `rim_db_prep(NULL)`, for the vendor of a database -/
def rimDbPrepReset (s : RimDb) (db : Nat) : RimDb :=
  s.allpreps.foldl
    (fun s e => if e.2 = (s.conn db).dbType then (s.rimCloseStmt db (s.prep e.1)).setPrep e.1 none else s) s

/-- `rim_db_prep` of a variable, at the first execution of its statement. -/
def rimDbPrep (s : RimDb) (db : Nat) (p : UInt64) : RimDb :=
  if s.bufSet p then s
  else { s with bufSet := Function.update s.bufSet p true, allpreps := s.allpreps ++ [(p, (s.conn db).dbType)] }

/-- `rim_pg_connect`, `rim_maria_connect` and `rim_lite_connect`, and whether there is a
connection. A connection that was refused ends the request, and its structure stays. -/
def rimConnect (s : RimDb) (db : Nat) (answer : DbAnswer) : RimDb × Bool :=
  let s := s.rimDbPrepReset db
  if answer = .refused then (s.setConn db { s.conn db with dbc := some { alive := false } }, false)
  else if answer = .unset ∧ (s.conn db).dbType = .mariadb then
    (s.setConn db { s.conn db with isBeginTransaction := false }, false)
  else (s.setConn db { s.conn db with dbc := some {} }, true)

def rimGetDbConnection (s : RimDb) (db : Nat) (answer : DbAnswer) : RimDb × Bool :=
  if (s.conn db).dbc.isSome then (s, true)
  else if (s.conn db).hasConnected && (s.conn db).isBeginTransaction then (s, false)
  else
    let (s, connected) := s.rimConnect db answer
    if connected then
      (s.setConn db { s.conn db with hasConnected := true, isBeginTransaction := false }, true)
    else (s, false)

def rimEndConnection (s : RimDb) (db : Nat) : RimDb :=
  if (s.conn db).dbc.isSome then s.setConn db { s.conn db with dbc := none, isBeginTransaction := false } else s

def rimRetryDb (s : RimDb) (db : Nat) (answer : DbAnswer) : RimDb × Bool :=
  (s.rimEndConnection db).rimGetDbConnection db answer

/-- The connection of a database is lost. A library cannot be lost. -/
def lose (s : RimDb) (db : Nat) : RimDb :=
  match (s.conn db).dbType, (s.conn db).dbc with
  | .sqlite, _ => s
  | _, some ses => s.setConn db { s.conn db with dbc := some { ses with alive := false } }
  | _, none => s

def session (s : RimDb) (db : Nat) : DbSession := ((s.conn db).dbc).getD { alive := false }

/-- The statement that is prepared. PostgreSQL is given a name; the others make an object. -/
def newStmt (s : RimDb) (c : DbCall) : DbStmt :=
  if (s.conn c.db).dbType = .postgres then .name (rimPgStmt c.prep) else .object s.next

/-- `rim_pg_prep_stmt`, `rim_maria_prep_stmt` and `rim_lite_prep_stmt` -/
def rimPrepStmt (s : RimDb) (c : DbCall) : RimDb × Except DbError DbStmt :=
  match s.prep c.prep with
  | some st => (s, .ok st)
  | none =>
    let ses := s.session c.db
    let st := s.newStmt c
    if ses.alive = false then (s, .error .lost)
    else if (s.conn c.db).dbType = .postgres ∧ st ∈ ses.stmts then (s, .error .duplicate)
    else if c.prepares = false then (s, .error .rejected)
    else
      let s := s.setConn c.db { s.conn c.db with dbc := some { ses with stmts := st :: ses.stmts } }
      ({ s.setPrep c.prep (some st) with next := s.next + 1 }, .ok st)

def send (s : RimDb) (c : DbCall) (st : Option DbStmt) (drops : Bool) : RimDb × Option DbError :=
  let s := if drops then s.lose c.db else s
  let ses := s.session c.db
  if ses.alive = false then (s, some .lost)
  else if st.any (· ∉ ses.stmts) then (s, some .unknown)
  else if c.executes = false then (s, some .rejected)
  else (s, none)

/-- `rim_pg_exec`, `rim_maria_exec` and `rim_lite_exec`. -/
def rimExec (s : RimDb) (c : DbCall) (drops : Bool) : RimDb × Option DbError :=
  if c.isPrep = false then s.send c none drops
  else
    match s.rimPrepStmt c with
    | (s, .error e) => (s, some e)
    | (s, .ok st) => s.send c (some st) drops

/-- The error of an execution is that the connection was lost: `rim_pg_checkc`,
`rim_maria_checkc` and `rim_lite_checkc`. -/
def connlost (s : RimDb) (db : Nat) : Bool := (s.conn db).dbType ≠ .sqlite && !(s.session db).alive

/-- `rim_execute_SQL`, when there is a connection. If it was lost outside of a transaction
another one is made, and the statement is executed once more. -/
def execConnected (s : RimDb) (c : DbCall) : RimDb × Option DbError :=
  let (s, e) := s.rimExec c c.drops
  if e.isSome && !(s.conn c.db).isBeginTransaction && s.connlost c.db then
    let (s, connected) := s.rimRetryDb c.db c.again
    if connected = false then (s, some .connect) else s.rimExec c c.dropsAgain
  else (s, e)

def rimExecuteSQL (s : RimDb) (c : DbCall) : RimDb × Option DbError :=
  let (s, connected) := s.rimGetDbConnection c.db c.first
  if connected = false then (s, some .connect) else s.execConnected c

def setTransaction (s : RimDb) (db : Nat) (b : Bool) : RimDb :=
  s.setConn db { s.conn db with isBeginTransaction := b }

/-- `rim_begin_transaction`. Where an error ends the request the flag stays. -/
def rimBeginTransaction (s : RimDb) (c : DbCall) : RimDb × Option DbError :=
  let (s, e) := s.rimExecuteSQL { c with isPrep := false }
  match e with
  | none => (s.setTransaction c.db true, none)
  | some .connect => (s, some .connect)
  | some e => if c.exits then (s, some e) else (s.setTransaction c.db false, some e)

/-- `rim_commit` and `rim_rollback` -/
def rimCommit (s : RimDb) (c : DbCall) : RimDb × Option DbError :=
  (s.setTransaction c.db false).rimExecuteSQL { c with isPrep := false }

end RimDb

inductive DbOp
  | query (c : DbCall)
  | beginTransaction (c : DbCall)
  | commit (c : DbCall)
  | rollback (c : DbCall)
  /-- `rim_db_escape` -/
  | escape (db : Nat) (answer : DbAnswer)
  | lose (db : Nat)

namespace RimDb

def perform (s : RimDb) : DbOp → RimDb × Option DbError
  | .query c => (if c.isPrep then s.rimDbPrep c.db c.prep else s).rimExecuteSQL c
  | .beginTransaction c => s.rimBeginTransaction c
  | .commit c => s.rimCommit c
  | .rollback c => s.rimCommit c
  | .escape db answer =>
    let (s, connected) := s.rimGetDbConnection db answer
    (s, if connected then none else some .connect)
  | .lose db => (s.lose db, none)

end RimDb

/-- The connection is lost before a statement is executed. -/
def DbCall.loses (s : RimDb) (c : DbCall) : Bool :=
  !(s.session c.db).alive || (c.drops && (!c.isPrep || (s.prep c.prep).isSome || c.prepares))

/-- An execution, inside of a transaction or not, makes a connection. -/
def DbCall.connects (s : RimDb) (c : DbCall) (transaction : Bool) : Bool :=
  if (s.conn c.db).dbc.isNone then !((s.conn c.db).hasConnected && transaction)
  else !transaction && decide ((s.conn c.db).dbType ≠ .sqlite) && c.loses s

/-- A program: the database of each statement that it prepares. -/
def DbCall.Legal (src : UInt64 → Option Nat) (c : DbCall) : Prop := c.isPrep = true → src c.prep = some c.db

namespace DbOp

def db : DbOp → Nat
  | query c | beginTransaction c | commit c | rollback c => c.db
  | escape db _ | lose db => db

def connects (s : RimDb) : DbOp → Bool
  | query c => c.connects s (s.conn c.db).isBeginTransaction
  | beginTransaction c => DbCall.connects s { c with isPrep := false } (s.conn c.db).isBeginTransaction
  | commit c | rollback c => DbCall.connects s { c with isPrep := false } false
  | escape db _ => (s.conn db).dbc.isNone && !((s.conn db).hasConnected && (s.conn db).isBeginTransaction)
  | lose _ => false

def Legal (src : UInt64 → Option Nat) : DbOp → Prop
  | query c => c.Legal src
  | _ => True

/-- No PostgreSQL connection is made while there are statements prepared on another one. -/
def Guard (s : RimDb) (op : DbOp) : Prop :=
  op.connects s = true → (s.conn op.db).dbType = .postgres → ∀ db, db ≠ op.db → (s.conn db).dbType = .postgres →
    ∀ ses, (s.conn db).dbc = some ses → ses.alive = true → ses.stmts = []

end DbOp

namespace RimDb

def Step (src : UInt64 → Option Nat) (s : RimDb) (ev : DbOp × Option DbError) (s' : RimDb) : Prop :=
  ev.1.Legal src ∧ s.perform ev.1 = (s', ev.2)

def init (types : Nat → DbVendor) : RimDb where
  conn db := { dbType := types db }

/-- No execution fails because of a statement that was kept, or was not. -/
def Sound (src : UInt64 → Option Nat) (s : RimDb) : Prop :=
  ∀ op : DbOp, op.Legal src → (s.perform op).2 ≠ some .unknown ∧ (s.perform op).2 ≠ some .duplicate

end RimDb

end RimStone
