import RimStone.Database.Session

/-!
# Transactions of the connections

`rim_begin_transaction`, `rim_commit` and `rim_rollback` send a statement as any other one is sent, and `db.c` keeps for
each connection whether a transaction was begun. It connects again, and sends the statement again, only if none was.

The connections are those of `RimStone.Database.Session`. A session has a transaction or has none here, and each
connection has a list of what was executed, with the session it was executed on. Prepared statements are left out: the
error of a statement that cannot be prepared is one of its execution. What a server answers, and when a connection is
lost, is part of an operation.
-/

namespace RimStone

/-- What a statement does to the transaction of its session. -/
inductive SqlStmt
  | beginTransaction
  | commit
  | rollback
  /-- a statement of the user, which `user_check` lets be none of these -/
  | other
  deriving DecidableEq, Repr

/-- Whether there is a transaction after a statement that was executed. -/
def SqlStmt.opens (before : Bool) : SqlStmt → Bool
  | beginTransaction => true
  | commit | rollback => false
  | other => before

structure TxSession where
  id : Nat
  alive : Bool := true
  transaction : Bool := false
  deriving DecidableEq, Repr

/-- `rim_db_connection` -/
structure TxConn where
  dbType : DbVendor
  dbc : Option TxSession := none
  isBeginTransaction : Bool := false
  hasConnected : Bool := false
  /-- What was executed, in order, and on which session. -/
  done : List (Nat × SqlStmt) := []
  deriving DecidableEq, Repr

structure TxDb where
  conn : Nat → TxConn
  next : Nat := 0

/-- A statement that is sent, and what happens while it is. -/
structure TxCall where
  db : Nat
  /-- Answers to the first connection and to the one after a loss. -/
  first : DbAnswer := .connected
  again : DbAnswer := .connected
  executes : Bool := true
  /-- The connection is lost when the statement is to be executed, and once more. -/
  drops : Bool := false
  dropsAgain : Bool := false
  /-- An error ends the request: `on-error`, of the database or of the statement. -/
  exits : Bool := false
  deriving DecidableEq, Repr

namespace TxConn

def alive (conn : TxConn) : Bool := conn.dbc.any fun ses => ses.alive

/-- The session has a transaction. What is lost has none. -/
def inTransaction (conn : TxConn) : Bool := conn.dbc.any fun ses => ses.alive && ses.transaction

/-- The connection is not lost when a statement is sent. -/
def stays (conn : TxConn) (drops : Bool) : Bool := conn.alive && !(drops && conn.dbType != .sqlite)

def connects (conn : TxConn) (answer : DbAnswer) : Bool :=
  answer != .refused && !(answer == .unset && conn.dbType == .mariadb)

/-- The statement is executed by the session that the connection has. -/
def accepts (conn : TxConn) (c : TxCall) : Bool := conn.stays c.drops && c.executes

def rejects (conn : TxConn) (c : TxCall) : Bool := conn.stays c.drops && !c.executes

/-- The connection was lost, and the statement is executed by the session of another one. -/
def retries (conn : TxConn) (c : TxCall) : Bool :=
  conn.dbc.isSome && conn.dbType != .sqlite && !conn.stays c.drops && conn.connects c.again && c.executes && !c.dropsAgain

end TxConn

namespace TxDb

def setConn (s : TxDb) (db : Nat) (conn : TxConn) : TxDb := { s with conn := Function.update s.conn db conn }

def newSession (s : TxDb) (db : Nat) (alive : Bool) : TxDb :=
  { s.setConn db { s.conn db with dbc := some { id := s.next, alive := alive } } with next := s.next + 1 }

/-- `rim_pg_connect`, `rim_maria_connect` and `rim_lite_connect`, and whether there is a connection. -/
def rimConnect (s : TxDb) (db : Nat) (answer : DbAnswer) : TxDb × Bool :=
  if answer = .refused then (s.newSession db false, false)
  else if answer = .unset ∧ (s.conn db).dbType = .mariadb then
    (s.setConn db { s.conn db with isBeginTransaction := false }, false)
  else (s.newSession db true, true)

def rimGetDbConnection (s : TxDb) (db : Nat) (answer : DbAnswer) : TxDb × Bool :=
  if (s.conn db).dbc.isSome then (s, true)
  else if (s.conn db).hasConnected && (s.conn db).isBeginTransaction then (s, false)
  else
    let (s, connected) := s.rimConnect db answer
    if connected then
      (s.setConn db { s.conn db with hasConnected := true, isBeginTransaction := false }, true)
    else (s, false)

def rimEndConnection (s : TxDb) (db : Nat) : TxDb :=
  if (s.conn db).dbc.isSome then s.setConn db { s.conn db with dbc := none, isBeginTransaction := false } else s

def rimRetryDb (s : TxDb) (db : Nat) (answer : DbAnswer) : TxDb × Bool :=
  (s.rimEndConnection db).rimGetDbConnection db answer

/-- The connection of a database is lost. A library cannot be lost. -/
def lose (s : TxDb) (db : Nat) : TxDb :=
  match (s.conn db).dbType, (s.conn db).dbc with
  | .sqlite, _ => s
  | _, some ses => s.setConn db { s.conn db with dbc := some { ses with alive := false } }
  | _, none => s

/-- A statement is sent to the session that there is. -/
def send (s : TxDb) (c : TxCall) (stmt : SqlStmt) : TxDb × Option DbError :=
  match (s.conn c.db).dbc with
  | none => (s, some .lost)
  | some ses =>
    if ses.alive = false then (s, some .lost)
    else if c.executes = false then (s, some .rejected)
    else
      (s.setConn c.db { s.conn c.db with
        dbc := some { ses with transaction := stmt.opens ses.transaction }
        done := (s.conn c.db).done ++ [(ses.id, stmt)] }, none)

/-- `rim_pg_exec`, `rim_maria_exec` and `rim_lite_exec` -/
def rimExec (s : TxDb) (c : TxCall) (stmt : SqlStmt) (drops : Bool) : TxDb × Option DbError :=
  (if drops then s.lose c.db else s).send c stmt

/-- The error of an execution is that the connection was lost: `rim_pg_checkc`, `rim_maria_checkc` and
`rim_lite_checkc`. -/
def connlost (s : TxDb) (db : Nat) : Bool :=
  (s.conn db).dbType != .sqlite && !(s.conn db).alive

/-- `rim_execute_SQL`, when there is a connection. -/
def execConnected (s : TxDb) (c : TxCall) (stmt : SqlStmt) : TxDb × Option DbError :=
  let (s, e) := s.rimExec c stmt c.drops
  if e.isSome && !(s.conn c.db).isBeginTransaction && s.connlost c.db then
    let (s, connected) := s.rimRetryDb c.db c.again
    if connected = false then (s, some .connect) else s.rimExec c stmt c.dropsAgain
  else (s, e)

def rimExecuteSQL (s : TxDb) (c : TxCall) (stmt : SqlStmt) : TxDb × Option DbError :=
  let (s, connected) := s.rimGetDbConnection c.db c.first
  if connected = false then (s, some .connect) else s.execConnected c stmt

def setTransaction (s : TxDb) (db : Nat) (b : Bool) : TxDb :=
  s.setConn db { s.conn db with isBeginTransaction := b }

/-- `rim_begin_transaction`. Where an error ends the request the flag stays. -/
def rimBeginTransaction (s : TxDb) (c : TxCall) : TxDb × Option DbError :=
  let (s, e) := s.rimExecuteSQL c .beginTransaction
  match e with
  | none => (s.setTransaction c.db true, none)
  | some .connect => (s, some .connect)
  | some e => if c.exits then (s, some e) else (s.setTransaction c.db false, some e)

def rimCommit (s : TxDb) (c : TxCall) : TxDb × Option DbError :=
  (s.setTransaction c.db false).rimExecuteSQL c .commit

def rimRollback (s : TxDb) (c : TxCall) : TxDb × Option DbError :=
  (s.setTransaction c.db false).rimExecuteSQL c .rollback

/-- The loop of `rim_check_transaction` over the databases: an error that ends the request ends it. -/
def rimCheckTransaction (s : TxDb) (calls : Nat → TxCall) : List Nat → TxDb × Option DbError
  | [] => (s, none)
  | db :: dbs =>
    if (s.conn db).isBeginTransaction then
      let (s, e) := s.rimRollback { calls db with db := db }
      if e = some .connect ∨ (e.isSome ∧ (calls db).exits) then (s, e) else s.rimCheckTransaction calls dbs
    else s.rimCheckTransaction calls dbs

end TxDb

inductive TxOp
  /-- `rim_execute_SQL`, by the user -/
  | query (c : TxCall)
  | beginTransaction (c : TxCall)
  | commit (c : TxCall)
  | rollback (c : TxCall)
  /-- `rim_get_db_connection`, by `rim_db_escape` -/
  | escape (db : Nat) (answer : DbAnswer)
  | lose (db : Nat)

namespace TxDb

def perform (s : TxDb) : TxOp → TxDb × Option DbError
  | .query c => s.rimExecuteSQL c .other
  | .beginTransaction c => s.rimBeginTransaction c
  | .commit c => s.rimCommit c
  | .rollback c => s.rimRollback c
  | .escape db answer =>
    let (s, connected) := s.rimGetDbConnection db answer
    (s, if connected then none else some .connect)
  | .lose db => (s.lose db, none)

def Step (s : TxDb) (ev : TxOp × Option DbError) (s' : TxDb) : Prop := s.perform ev.1 = (s', ev.2)

def init (types : Nat → DbVendor) : TxDb where
  conn db := { dbType := types db }

end TxDb

end RimStone
