import RimStone.Database.Transaction
import RimStone.Lib.Run

/-!
# What is committed was begun on the same connection

`rim_commit` takes back that a transaction was begun before it sends its statement, so a COMMIT whose connection is lost
is sent again, to a new session, and succeeds there; and so it does behind a statement of a transaction that failed, if
that statement begins, commits or rolls back. Where no connection is lost at a COMMIT, and no such statement fails inside
of a transaction, what is committed is what was done since the begin (`run_matched`). A transaction is open only where
`db.c` knows of it, as long as the server does not answer a COMMIT, a ROLLBACK or a nested begin with an error, and then
none is open at the end of a request (`run_flagged`).
-/

namespace RimStone

open RimStone.Lib

namespace TxDb

variable {s s' : TxDb} {db : Nat} {c : TxCall} {stmt : SqlStmt} {e : Option DbError}

/-! ## The connections -/

/-- Nothing but the connection of `db` changes. -/
def Only (db : Nat) (s s' : TxDb) : Prop := ∀ i, i ≠ db → s'.conn i = s.conn i

theorem Only.refl (db : Nat) (s : TxDb) : Only db s s := fun _ _ => rfl

theorem Only.trans {s'' : TxDb} (h : Only db s s') (h' : Only db s' s'') : Only db s s'' :=
    fun i hi => (h' i hi).trans (h i hi)

theorem setConn_only (s : TxDb) (db : Nat) (conn : TxConn) : Only db s (s.setConn db conn) :=
  fun _ hi => Function.update_of_ne hi _ _

@[simp] theorem setConn_self (s : TxDb) (db : Nat) (conn : TxConn) : (s.setConn db conn).conn db = conn :=
  Function.update_self ..

theorem newSession_only (s : TxDb) (db : Nat) (alive : Bool) : Only db s (s.newSession db alive) := setConn_only s db _

@[simp] theorem newSession_self (s : TxDb) (db : Nat) (alive : Bool) :
    (s.newSession db alive).conn db = { s.conn db with dbc := some { id := s.next, alive := alive } } :=
  Function.update_self ..

structure Kept (conn conn' : TxConn) : Prop where
  dbType : conn'.dbType = conn.dbType
  flag : conn'.isBeginTransaction = conn.isBeginTransaction
  hasConnected : conn'.hasConnected = conn.hasConnected
  done : conn'.done = conn.done
  ids : conn'.dbc.map TxSession.id = conn.dbc.map TxSession.id

theorem Kept.refl (conn : TxConn) : Kept conn conn := ⟨rfl, rfl, rfl, rfl, rfl⟩

variable {conn conn' : TxConn}

theorem Kept.trans {conn'' : TxConn} (h : Kept conn conn') (h' : Kept conn' conn'') : Kept conn conn'' :=
  ⟨h'.dbType.trans h.dbType, h'.flag.trans h.flag, h'.hasConnected.trans h.hasConnected, h'.done.trans h.done,
    h'.ids.trans h.ids⟩

/-- What is lost is a session of a server. -/
theorem lose_cases (s : TxDb) (db : Nat) :
    s.lose db = s ∧ ((s.conn db).dbType = .sqlite ∨ (s.conn db).dbc = none) ∨
      (s.conn db).dbType ≠ .sqlite ∧ ∃ ses, (s.conn db).dbc = some ses ∧
        s.lose db = s.setConn db { s.conn db with dbc := some { ses with alive := false } } := by
  unfold lose
  cases hdbc : (s.conn db).dbc with
  | none =>
    refine .inl ⟨?_, .inr rfl⟩
    cases (s.conn db).dbType <;> rfl
  | some ses =>
    cases (s.conn db).dbType with
    | sqlite => exact .inl ⟨rfl, .inl rfl⟩
    | mariadb => exact .inr ⟨by decide, ses, rfl, rfl⟩
    | postgres => exact .inr ⟨by decide, ses, rfl, rfl⟩

theorem lose_only (s : TxDb) (db : Nat) : Only db s (s.lose db) := by
  obtain ⟨hsame, -⟩ | ⟨-, ses, -, hlost⟩ := lose_cases s db
  · rw [hsame]
    exact Only.refl db s
  · rw [hlost]
    exact setConn_only s db _

theorem lose_kept (s : TxDb) (db : Nat) : Kept (s.conn db) ((s.lose db).conn db) := by
  obtain ⟨hsame, -⟩ | ⟨-, ses, hdbc, hlost⟩ := lose_cases s db
  · rw [hsame]
    exact Kept.refl _
  · rw [hlost, setConn_self]
    exact ⟨rfl, rfl, rfl, rfl, by rw [hdbc]; rfl⟩

theorem lose_sqlite (h : (s.conn db).dbType = .sqlite) : s.lose db = s := by
  obtain ⟨hsame, -⟩ | ⟨hvendor, -⟩ := lose_cases s db
  · exact hsame
  · exact absurd h hvendor

theorem lose_alive (h : (s.conn db).dbType ≠ .sqlite) : ((s.lose db).conn db).alive = false := by
  obtain ⟨hsame, hlib | hdbc⟩ | ⟨-, ses, -, hlost⟩ := lose_cases s db
  · exact absurd hlib h
  · rw [hsame, TxConn.alive, hdbc, Option.any_none]
  · rw [hlost, setConn_self]
    rfl

theorem not_inTransaction (h : conn.alive = false) : conn.inTransaction = false := by
  unfold TxConn.alive at h
  unfold TxConn.inTransaction
  cases hdbc : conn.dbc with
  | none => rfl
  | some ses =>
    rw [hdbc, Option.any_some] at h
    rw [Option.any_some, h]
    rfl

/-! ## A statement that is sent -/

/-- What a connection is after a statement that its session executed. -/
def executed (conn : TxConn) (ses : TxSession) (stmt : SqlStmt) : TxConn :=
  { conn with dbc := some { ses with transaction := stmt.opens ses.transaction }, done := conn.done ++ [(ses.id, stmt)] }

/-- How a statement that is sent to a session ends. -/
inductive Sent (stmt : SqlStmt) (executes reached : Bool) (conn : TxConn) : TxConn → Option DbError → Prop
  | ok (ses : TxSession) : reached = true → executes = true → conn.dbc = some ses → ses.alive = true →
      Sent stmt executes reached conn (executed conn ses stmt) none
  | rejected : reached = true → executes = false → Sent stmt executes reached conn conn (some .rejected)
  | lost (conn' : TxConn) : reached = false → Kept conn conn' → conn'.alive = false →
      Sent stmt executes reached conn conn' (some .lost)

theorem Sent.of_lost {executes reached : Bool} (h : Sent stmt executes reached conn conn' e)
    (hlost : reached = false) : e = some .lost ∧ Kept conn conn' ∧ conn'.alive = false := by
  cases h with
  | ok ses hreached => cases hreached.symm.trans hlost
  | rejected hreached => cases hreached.symm.trans hlost
  | lost conn' _ hkept halive => exact ⟨rfl, hkept, halive⟩

/-- What is not executed, and whose connection is not there, was not answered by a server. -/
theorem Sent.of_dead {executes drops : Bool} (h : Sent stmt executes (conn.stays drops) conn conn' e)
    (he : e.isSome = true) (hdead : conn'.alive = false) : conn.stays drops = false ∧ Kept conn conn' := by
  cases h with
  | ok => cases he
  | rejected hstays =>
    rw [TxConn.stays, hdead] at hstays
    cases hstays
  | lost conn' hstays hkept => exact ⟨hstays, hkept⟩

theorem send_only (s : TxDb) (c : TxCall) (stmt : SqlStmt) : Only c.db s (s.send c stmt).1 := by
  unfold send
  split
  · exact Only.refl _ s
  · split_ifs
    · exact Only.refl _ s
    · exact Only.refl _ s
    · exact setConn_only _ _ _

theorem send_sent (s : TxDb) (c : TxCall) (stmt : SqlStmt) :
    Sent stmt c.executes (s.conn c.db).alive (s.conn c.db) ((s.send c stmt).1.conn c.db) (s.send c stmt).2 := by
  unfold send
  cases hdbc : (s.conn c.db).dbc with
  | none =>
    have hdead : (s.conn c.db).alive = false := by rw [TxConn.alive, hdbc, Option.any_none]
    exact .lost _ hdead (Kept.refl _) hdead
  | some ses =>
    have halive : (s.conn c.db).alive = ses.alive := by rw [TxConn.alive, hdbc, Option.any_some]
    dsimp only
    split_ifs with hdead hrejected
    · rw [hdead] at halive
      exact .lost _ halive (Kept.refl _) halive
    · rw [Bool.not_eq_false] at hdead
      rw [hdead] at halive
      exact .rejected halive hrejected
    · rw [Bool.not_eq_false] at hdead hrejected
      rw [setConn_self]
      exact .ok ses (halive.trans hdead) hrejected hdbc hdead

theorem rimExec_only (s : TxDb) (c : TxCall) (stmt : SqlStmt) (drops : Bool) :
    Only c.db s (s.rimExec c stmt drops).1 := by
  unfold rimExec
  split
  · exact (lose_only s c.db).trans (send_only _ c stmt)
  · exact send_only s c stmt

/-- A statement goes to a session that is there, or the connection is lost. -/
theorem rimExec_sent (s : TxDb) (c : TxCall) (stmt : SqlStmt) (drops : Bool) :
    Sent stmt c.executes ((s.conn c.db).stays drops) (s.conn c.db) ((s.rimExec c stmt drops).1.conn c.db)
      (s.rimExec c stmt drops).2 := by
  unfold rimExec TxConn.stays
  by_cases hlost : drops = true ∧ (s.conn c.db).dbType ≠ .sqlite
  · obtain ⟨hdrops, hvendor⟩ := hlost
    have hreached : ((s.conn c.db).alive && !(drops && (s.conn c.db).dbType != .sqlite)) = false := by
      simp [hdrops, hvendor]
    have hdead := lose_alive hvendor
    have hsent := send_sent (s.lose c.db) c stmt
    rw [if_pos hdrops, hreached]
    rw [hdead] at hsent
    obtain ⟨herror, hkept, halive⟩ := hsent.of_lost rfl
    rw [herror]
    exact .lost _ rfl ((lose_kept s c.db).trans hkept) halive
  · have hsame : (if drops then s.lose c.db else s) = s := by
      split_ifs with hdrops
      · exact lose_sqlite (not_not.mp fun h => hlost ⟨hdrops, h⟩)
      · rfl
    have hnot : (drops && (s.conn c.db).dbType != .sqlite) = false := by simpa using hlost
    rw [hsame, hnot, Bool.not_false, Bool.and_true]
    exact send_sent s c stmt

inductive Got (answer : DbAnswer) (conn : TxConn) : TxConn → Bool → Prop
  | there : conn.dbc.isSome = true → Got answer conn conn true
  | closed : conn.dbc = none → conn.isBeginTransaction = true → Got answer conn conn false
  | fresh (k : Nat) : conn.dbc = none → Got answer conn
      { conn with dbc := some { id := k }, hasConnected := true, isBeginTransaction := false } true
  | failed (conn' : TxConn) : conn.dbc = none → conn.connects answer = false → conn'.done = conn.done → conn'.alive =
    false →
      (conn'.isBeginTransaction = true → conn.isBeginTransaction = true) → Got answer conn conn' false

theorem rimConnect_only (s : TxDb) (db : Nat) (answer : DbAnswer) : Only db s (s.rimConnect db answer).1 := by
  unfold rimConnect
  split_ifs
  · exact newSession_only s db false
  · exact setConn_only s db _
  · exact newSession_only s db true

theorem rimGetDbConnection_only (s : TxDb) (db : Nat) (answer : DbAnswer) :
    Only db s (s.rimGetDbConnection db answer).1 := by
  unfold rimGetDbConnection
  dsimp only
  split_ifs
  · exact Only.refl db s
  · exact Only.refl db s
  · exact (rimConnect_only s db answer).trans (setConn_only _ db _)
  · exact rimConnect_only s db answer

theorem rimGetDbConnection_got (s : TxDb) (db : Nat) (answer : DbAnswer) :
    Got answer (s.conn db) ((s.rimGetDbConnection db answer).1.conn db) (s.rimGetDbConnection db answer).2 := by
  unfold rimGetDbConnection
  by_cases hsome : (s.conn db).dbc.isSome = true
  · rw [if_pos hsome]
    exact .there hsome
  · have hnone : (s.conn db).dbc = none := by simpa using hsome
    rw [if_neg hsome]
    by_cases hflag : ((s.conn db).hasConnected && (s.conn db).isBeginTransaction) = true
    · rw [if_pos hflag]
      exact .closed hnone (Bool.and_eq_true_iff.mp hflag).2
    · rw [if_neg hflag]
      unfold rimConnect
      by_cases hrefused : answer = .refused
      · rw [if_pos hrefused]
        dsimp only
        rw [if_neg Bool.false_ne_true]
        refine .failed _ hnone ?_ ?_ ?_ ?_
        · rw [TxConn.connects, hrefused]
          rfl
        · rw [newSession_self]
        · rw [newSession_self]
          rfl
        · rw [newSession_self]
          exact id
      · rw [if_neg hrefused]
        by_cases hunset : answer = .unset ∧ (s.conn db).dbType = .mariadb
        · rw [if_pos hunset]
          obtain ⟨rfl, hvendor⟩ := hunset
          dsimp only
          rw [if_neg Bool.false_ne_true]
          refine .failed _ hnone ?_ ?_ ?_ ?_
          · rw [TxConn.connects, hvendor]
            rfl
          · rw [setConn_self]
          · rw [setConn_self, TxConn.alive, hnone, Option.any_none]
          · rw [setConn_self]
            exact fun h => absurd h Bool.false_ne_true
        · rw [if_neg hunset]
          dsimp only
          rw [if_pos rfl, setConn_self, newSession_self]
          exact .fresh s.next hnone

/-! ## The statement of a call -/

/-- How a call ends. -/
structure Answered (c : TxCall) (stmt : SqlStmt) (conn conn' : TxConn) (e : Option DbError) : Prop where
  /-- No transaction is known of that was not. -/
  flag : conn'.isBeginTransaction = true → conn.isBeginTransaction = true
  /-- Inside of a transaction that is known of there is no other session. -/
  same : conn.isBeginTransaction = true → conn.dbc.isSome = true →
    conn'.isBeginTransaction = true ∧ conn'.dbc.map TxSession.id = conn.dbc.map TxSession.id
  failed : e ≠ none → conn'.done =
    conn.done ∧ (conn'.inTransaction = true → conn.inTransaction = true ∧ conn.rejects c = true)
  ok : e = none → ∃ k before, conn'.dbc.map TxSession.id = some k ∧ conn'.done = conn.done ++ [(k, stmt)] ∧
    conn'.inTransaction = stmt.opens before ∧ (before = true → conn.inTransaction = true)
  accepted : conn.accepts c = true → e = none ∧ conn'.dbc.map TxSession.id = conn.dbc.map TxSession.id
  retried : conn.retries c = true → conn.isBeginTransaction = false → e = none
  rejected : conn.rejects c = true → e = some .rejected ∧ conn' = conn

theorem execConnected_only (s : TxDb) (c : TxCall) (stmt : SqlStmt) : Only c.db s (s.execConnected c stmt).1 := by
  have hexec := rimExec_only s c stmt c.drops
  have hend : ∀ t : TxDb, Only c.db t (t.rimEndConnection c.db) := by
    intro t
    unfold rimEndConnection
    split_ifs
    · exact setConn_only t c.db _
    · exact Only.refl _ t
  have hretry : ∀ t : TxDb, Only c.db t (t.rimRetryDb c.db c.again).1 :=
    fun t => (hend t).trans (rimGetDbConnection_only _ c.db c.again)
  unfold execConnected
  dsimp only
  split_ifs
  · exact hexec.trans (hretry _)
  · exact (hexec.trans (hretry _)).trans (rimExec_only _ c stmt c.dropsAgain)
  · exact hexec

theorem rimExecuteSQL_only (s : TxDb) (c : TxCall) (stmt : SqlStmt) : Only c.db s (s.rimExecuteSQL c stmt).1 := by
  have hget := rimGetDbConnection_only s c.db c.first
  unfold rimExecuteSQL
  dsimp only
  split_ifs
  · exact hget
  · exact hget.trans (execConnected_only _ c stmt)

/-- A statement that the session did not get. -/
theorem Answered.of_stays (hstays : conn.stays c.drops = false)
    (flag : conn'.isBeginTransaction = true → conn.isBeginTransaction = true)
    (same : conn.isBeginTransaction = true → conn.dbc.isSome = true →
      conn'.isBeginTransaction = true ∧ conn'.dbc.map TxSession.id = conn.dbc.map TxSession.id)
    (failed : e ≠ none → conn'.done = conn.done ∧ (conn'.inTransaction = true → conn.inTransaction = true ∧ False))
    (ok : e = none → ∃ k before, conn'.dbc.map TxSession.id = some k ∧ conn'.done = conn.done ++ [(k, stmt)] ∧
      conn'.inTransaction = stmt.opens before ∧ (before = true → conn.inTransaction = true))
    (retried : conn.retries c = true → conn.isBeginTransaction = false → e = none) : Answered c stmt conn conn' e := by
  have haccepts : conn.accepts c = false := by rw [TxConn.accepts, hstays, Bool.false_and]
  have hrejects : conn.rejects c = false := by rw [TxConn.rejects, hstays, Bool.false_and]
  refine ⟨flag, same, fun h => ⟨(failed h).1, fun htx => ((failed h).2 htx).2.elim⟩, ok, ?_, retried, ?_⟩
  · exact fun h => absurd h (ne_true_of_eq_false haccepts)
  · exact fun h => absurd h (ne_true_of_eq_false hrejects)

theorem Answered.of_failed {err : DbError} (hdone : conn'.done = conn.done)
    (hflag : conn'.isBeginTransaction = true → conn.isBeginTransaction = true) (htx : conn'.inTransaction = false)
      (hsame : conn.isBeginTransaction = true → conn.dbc = none) (hstays : conn.stays c.drops = false)
        (hretries : conn.retries c = false) : Answered c stmt conn conn' (some err) := by
  refine .of_stays hstays hflag (fun h hsome => ?_) (fun _ => ⟨hdone, fun h => absurd h (ne_true_of_eq_false htx)⟩)
    (fun h => absurd h (Option.some_ne_none _)) fun h => absurd h (ne_true_of_eq_false hretries)
  rw [hsame h] at hsome
  cases hsome

/-- A statement that is sent once. -/
theorem Sent.answered (h : Sent stmt c.executes (conn.stays c.drops) conn conn' e)
    (hretries : conn.retries c = true → conn.isBeginTransaction = false → e = none) : Answered c stmt conn conn' e := by
  cases h with
  | ok ses hstays hexec hdbc halive =>
    have htx : conn.inTransaction = ses.transaction := by
      rw [TxConn.inTransaction, hdbc, Option.any_some, halive, Bool.true_and]
    have hids : (executed conn ses stmt).dbc.map TxSession.id = conn.dbc.map TxSession.id := by
      rw [hdbc]
      rfl
    have hopens : (executed conn ses stmt).inTransaction = stmt.opens ses.transaction := by
      rw [executed, TxConn.inTransaction, Option.any_some, halive, Bool.true_and]
    have hrejects : conn.rejects c = false := by rw [TxConn.rejects, hexec, Bool.not_true, Bool.and_false]
    exact
      { flag := id
        same := fun hflag _ => ⟨hflag, hids⟩
        failed := fun h => absurd rfl h
        ok := fun _ => ⟨ses.id, ses.transaction, rfl, rfl, hopens, htx.trans⟩
        accepted := fun _ => ⟨rfl, hids⟩
        retried := fun _ _ => rfl
        rejected := fun h => absurd h (ne_true_of_eq_false hrejects) }
  | rejected hstays hexec =>
    have hrejects : conn.rejects c = true := by rw [TxConn.rejects, hstays, hexec]; rfl
    have haccepts : conn.accepts c = false := by rw [TxConn.accepts, hexec, Bool.and_false]
    exact
      { flag := id
        same := fun hflag _ => ⟨hflag, rfl⟩
        failed := fun _ => ⟨rfl, fun h => ⟨h, hrejects⟩⟩
        ok := fun h => absurd h (Option.some_ne_none _)
        accepted := fun h => absurd h (ne_true_of_eq_false haccepts)
        retried := hretries
        rejected := fun _ => ⟨rfl, rfl⟩ }
  | lost conn' hstays hkept halive =>
    exact .of_stays hstays hkept.flag.symm.trans (fun hflag _ => ⟨hkept.flag.trans hflag, hkept.ids⟩)
      (fun _ => ⟨hkept.done, fun h => absurd h (ne_true_of_eq_false (not_inTransaction halive))⟩)
      (fun h => absurd h (Option.some_ne_none _)) hretries

/-- A statement that is sent once more, on a connection made for it. -/
theorem Sent.again {fresh : TxConn} (hflag : conn.isBeginTransaction = false) (hstays : conn.stays c.drops = false)
    (hdone : fresh.done = conn.done) (hfresh : fresh.isBeginTransaction = false) (halive : fresh.alive = true)
      (htx : fresh.inTransaction = false) (h : Sent stmt c.executes (fresh.stays c.dropsAgain) fresh conn' e) :
    Answered c stmt conn conn' e := by
  have hout : ∀ {P : Prop}, conn.isBeginTransaction = true → P := fun h => absurd h (ne_true_of_eq_false hflag)
  cases h with
  | ok ses _ hexec hdbc hses =>
    have hno : ses.transaction = false := by
      rw [TxConn.inTransaction, hdbc, Option.any_some, hses, Bool.true_and] at htx
      exact htx
    have hopens : (executed fresh ses stmt).inTransaction = stmt.opens false := by
      rw [executed, TxConn.inTransaction, Option.any_some, hses, Bool.true_and, hno]
    have hlist : (executed fresh ses stmt).done = conn.done ++ [(ses.id, stmt)] := by
      rw [← hdone]
      rfl
    exact .of_stays hstays (fun h => absurd h (ne_true_of_eq_false hfresh)) hout (fun h => absurd rfl h)
      (fun _ => ⟨ses.id, false, rfl, hlist, hopens, fun h => absurd h Bool.false_ne_true⟩) fun _ _ => rfl
  | rejected _ hexec =>
    have hretries : conn.retries c = false := by rw [TxConn.retries, hexec, Bool.and_false, Bool.false_and]
    exact .of_failed hdone (fun h => absurd h (ne_true_of_eq_false hfresh)) htx hout hstays hretries
  | lost conn' hlost hkept hdead =>
    have hdrops : c.dropsAgain = true := by
      rw [TxConn.stays, halive, Bool.true_and, Bool.not_eq_false', Bool.and_eq_true] at hlost
      exact hlost.1
    have hretries : conn.retries c = false := by rw [TxConn.retries, hdrops, Bool.not_true, Bool.and_false]
    exact .of_failed (hkept.done.trans hdone)
      (fun h => absurd (hkept.flag.symm.trans h) (ne_true_of_eq_false hfresh)) (not_inTransaction hdead) hout hstays hretries

theorem Answered.of_closed {fresh : TxConn} (hdbc : conn.dbc = none) (hdone : fresh.done = conn.done)
    (hflag : fresh.isBeginTransaction = true → conn.isBeginTransaction = true) (htx : fresh.inTransaction = false)
      (h : Answered c stmt fresh conn' e) : Answered c stmt conn conn' e := by
  have hstays : conn.stays c.drops = false := by rw [TxConn.stays, TxConn.alive, hdbc, Option.any_none, Bool.false_and]
  have hretries : conn.retries c = false := by
    rw [TxConn.retries, hdbc]
    rfl
  refine .of_stays hstays (fun h' => hflag (h.flag h')) (fun _ hsome => ?_)
    (fun h' => ⟨(h.failed h').1.trans hdone, fun h'' => absurd ((h.failed h').2 h'').1 (ne_true_of_eq_false htx)⟩)
    (fun h' => ?_) fun h' => absurd h' (ne_true_of_eq_false hretries)
  · rw [hdbc] at hsome
    cases hsome
  · obtain ⟨k, before, hid, hdone', hopens, hbefore⟩ := h.ok h'
    rw [hdone] at hdone'
    exact ⟨k, before, hid, hdone', hopens, fun hb => absurd (hbefore hb) (ne_true_of_eq_false htx)⟩

theorem rimEndConnection_self (s : TxDb) (db : Nat) : ((s.rimEndConnection db).conn db).dbc = none ∧
    ((s.rimEndConnection db).conn db).dbType = (s.conn db).dbType ∧ ((s.rimEndConnection db).conn db).done =
      (s.conn db).done ∧
      (((s.rimEndConnection db).conn db).isBeginTransaction = true → (s.conn db).isBeginTransaction = true) := by
  unfold rimEndConnection
  split_ifs with hsome
  · rw [setConn_self]
    exact ⟨rfl, rfl, rfl, fun h => absurd h Bool.false_ne_true⟩
  · exact ⟨by simpa using hsome, rfl, rfl, id⟩

/-- A connection that is got where there was none. -/
theorem Got.cases_closed {answer : DbAnswer} {connected : Bool} (h : Got answer conn conn' connected)
    (hdbc : conn.dbc = none) :
    (connected = false ∧ conn'.done = conn.done ∧ conn'.inTransaction = false ∧
      (conn'.isBeginTransaction = true → conn.isBeginTransaction = true) ∧
      (conn.isBeginTransaction = false → conn.connects answer = false)) ∨
      connected = true ∧ conn'.done = conn.done ∧ conn'.inTransaction = false ∧ conn'.isBeginTransaction = false ∧
        conn'.alive = true := by
  cases h with
  | there hsome =>
    rw [hdbc] at hsome
    cases hsome
  | closed _ hflag =>
    refine .inl ⟨rfl, rfl, ?_, id, fun h => absurd hflag (ne_true_of_eq_false h)⟩
    rw [TxConn.inTransaction, hdbc, Option.any_none]
  | fresh k => exact .inr ⟨rfl, rfl, rfl, rfl, rfl⟩
  | failed conn' _ hfails hdone hdead hflag =>
    exact .inl ⟨rfl, hdone, not_inTransaction hdead, hflag, fun _ => hfails⟩

/-- The connection is made again, and the statement sent again, if it was lost where no transaction is known of. -/
theorem execConnected_answered (s : TxDb) (c : TxCall) (stmt : SqlStmt) :
    Answered c stmt (s.conn c.db) ((s.execConnected c stmt).1.conn c.db) (s.execConnected c stmt).2 := by
  have hsent := rimExec_sent s c stmt c.drops
  unfold execConnected
  generalize s.rimExec c stmt c.drops = r at hsent ⊢
  obtain ⟨s₁, e₁⟩ := r
  dsimp only at hsent ⊢
  by_cases hretry : (e₁.isSome && !(s₁.conn c.db).isBeginTransaction && s₁.connlost c.db) = true
  · rw [if_pos hretry]
    obtain ⟨⟨hsome, hflag₁⟩, hlost⟩ : (e₁.isSome = true ∧ (s₁.conn c.db).isBeginTransaction = false) ∧
      s₁.connlost c.db = true := by
      simpa using hretry
    have hdead : (s₁.conn c.db).alive = false := by
      unfold connlost at hlost
      simpa using (Bool.and_eq_true_iff.mp hlost).2
    -- the statement was not executed, and its connection was lost
    obtain ⟨hstays, hkept⟩ := hsent.of_dead hsome hdead
    have hflag : (s.conn c.db).isBeginTransaction = false := hkept.flag.symm.trans hflag₁
    obtain ⟨hdbc₂, htype₂, hdone₂, hflag₂⟩ := rimEndConnection_self s₁ c.db
    have hgot := rimGetDbConnection_got (s₁.rimEndConnection c.db) c.db c.again
    unfold rimRetryDb
    generalize s₁.rimEndConnection c.db = s₂ at hgot hdbc₂ htype₂ hdone₂ hflag₂ ⊢
    have hno₂ : (s₂.conn c.db).isBeginTransaction = false :=
      Bool.eq_false_iff.mpr fun h => absurd (hflag₂ h) (ne_true_of_eq_false hflag₁)
    generalize s₂.rimGetDbConnection c.db c.again = r at hgot ⊢
    obtain ⟨s₃, connected⟩ := r
    dsimp only at hgot ⊢
    have hdone : (s₂.conn c.db).done = (s.conn c.db).done := hdone₂.trans hkept.done
    obtain ⟨rfl, hdone₃, htx₃, hflag₃, hfails⟩ | ⟨rfl, hdone₃, htx₃, hflag₃, halive₃⟩ := hgot.cases_closed hdbc₂
    · rw [if_pos rfl]
      refine Answered.of_failed (hdone₃.trans hdone) (fun h => absurd (hflag₃ h) (ne_true_of_eq_false hno₂)) htx₃
        (fun h => absurd h (ne_true_of_eq_false hflag)) hstays ?_
      have hfails := hfails hno₂
      rw [TxConn.connects, htype₂.trans hkept.dbType] at hfails
      rw [TxConn.retries, TxConn.connects, hfails, Bool.and_false, Bool.false_and, Bool.false_and]
    · rw [if_neg (by decide)]
      have hagain := rimExec_sent s₃ c stmt c.dropsAgain
      exact hagain.again hflag hstays (hdone₃.trans hdone) hflag₃ halive₃ htx₃
  · rw [if_neg hretry]
    refine hsent.answered fun hretries hflag => ?_
    simp only [TxConn.retries, Bool.and_eq_true, Bool.not_eq_true', bne_iff_ne] at hretries
    obtain ⟨⟨⟨⟨⟨-, hvendor⟩, hstays⟩, -⟩, -⟩, -⟩ := hretries
    obtain ⟨rfl, hkept, hdead⟩ := hsent.of_lost hstays
    refine absurd ?_ hretry
    have hvendor₁ : (s₁.conn c.db).dbType ≠ .sqlite := by rwa [hkept.dbType]
    simp [connlost, hkept.flag, hflag, hdead, hvendor₁]

theorem rimExecuteSQL_answered (s : TxDb) (c : TxCall) (stmt : SqlStmt) :
    Answered c stmt (s.conn c.db) ((s.rimExecuteSQL c stmt).1.conn c.db) (s.rimExecuteSQL c stmt).2 := by
  have hgot := rimGetDbConnection_got s c.db c.first
  unfold rimExecuteSQL
  by_cases hsome : (s.conn c.db).dbc.isSome = true
  · have hthere : s.rimGetDbConnection c.db c.first = (s, true) := by rw [rimGetDbConnection, if_pos hsome]
    rw [hthere]
    dsimp only
    rw [if_neg (by decide)]
    exact execConnected_answered s c stmt
  · have hdbc : (s.conn c.db).dbc = none := by simpa using hsome
    generalize s.rimGetDbConnection c.db c.first = r at hgot ⊢
    obtain ⟨s₁, connected⟩ := r
    dsimp only at hgot ⊢
    obtain ⟨rfl, hdone, htx, hflag, -⟩ | ⟨rfl, hdone, htx, hflag, halive⟩ := hgot.cases_closed hdbc
    · rw [if_pos rfl]
      refine Answered.of_failed hdone hflag htx (fun _ => hdbc) ?_ ?_
      · rw [TxConn.stays, TxConn.alive, hdbc, Option.any_none, Bool.false_and]
      · rw [TxConn.retries, hdbc]
        rfl
    · rw [if_neg (by decide)]
      exact (execConnected_answered s₁ c stmt).of_closed hdbc hdone (fun h => absurd h (ne_true_of_eq_false hflag)) htx

/-! ## What is committed -/

/-- A COMMIT is executed on the session of the begin before it, and so is what is executed between them. -/
def Matched (done : List (Nat × SqlStmt)) : Prop :=
  ∀ pre mid post k k', done = pre ++ (k, .beginTransaction) :: (mid ++ (k', .commit) :: post) →
    (∀ e ∈ mid, e.2 = .other) →
    k' = k ∧ ∀ e ∈ mid, e.1 = k

/-- A connection knows of the transaction that was begun and not ended, and has its session. -/
structure Tied (conn : TxConn) : Prop where
  matched : Matched conn.done
  pending : ∀ pre mid k, conn.done = pre ++ (k, .beginTransaction) :: mid → (∀ e ∈ mid, e.2 = .other) →
    conn.isBeginTransaction = true ∧ conn.dbc.map TxSession.id = some k ∧ ∀ e ∈ mid, e.1 = k

/-- Where something is added behind a list, an element is that or is in front of it. -/
theorem concat_eq_append_cons {α : Type} {l pre mid : List α} {x y : α} (h : l ++ [x] = pre ++ y :: mid) :
    mid = [] ∧ l = pre ∧ x = y ∨ ∃ mid', mid = mid' ++ [x] ∧ l = pre ++ y :: mid' := by
  obtain rfl | ⟨mid', z, hconcat⟩ := List.eq_nil_or_concat mid
  · obtain ⟨hpre, hlast⟩ := List.append_inj' h rfl
    exact .inl ⟨rfl, hpre, (List.cons.inj hlast).1⟩
  · rw [List.concat_eq_append] at hconcat
    subst hconcat
    have hassoc : l ++ [x] = (pre ++ y :: mid') ++ [z] := by
      rw [h]
      simp
    obtain ⟨hpre, hlast⟩ := List.append_inj' hassoc rfl
    obtain rfl := (List.cons.inj hlast).1
    exact .inr ⟨mid', rfl, hpre⟩

theorem Tied.kept (h : Tied conn) (hdone : conn'.done = conn.done)
    (hsame : conn.isBeginTransaction = true → conn.dbc.isSome = true → conn'.isBeginTransaction =
      true ∧ conn'.dbc.map TxSession.id = conn.dbc.map TxSession.id) : Tied conn' := by
  refine ⟨hdone ▸ h.matched, fun pre mid k heq hmid => ?_⟩
  obtain ⟨hflag, hid, hall⟩ := h.pending pre mid k (hdone ▸ heq) hmid
  have hsome : conn.dbc.isSome = true := by
    rw [← Option.isSome_map, hid]
    rfl
  obtain ⟨hflag', hid'⟩ := hsame hflag hsome
  exact ⟨hflag', hid'.trans hid, hall⟩

/-- A statement was executed. -/
theorem Tied.next {k : Nat} (h : Tied conn) (hid : conn'.dbc.map TxSession.id = some k)
    (hdone : conn'.done = conn.done ++ [(k, stmt)]) (hbegin : stmt = .beginTransaction → conn'.isBeginTransaction =
      true) (hother : stmt = .other → conn.isBeginTransaction = true → conn.dbc.isSome =
        true → conn'.isBeginTransaction = true) (hsame : stmt = .other ∨ stmt = .commit → conn.isBeginTransaction =
          true → conn.dbc.isSome = true → conn'.dbc.map TxSession.id = conn.dbc.map TxSession.id) : Tied conn' := by
  -- what is pending is on the session that the statement was executed on
  have hpending : ∀ pre mid k₀, conn.done = pre ++ (k₀, .beginTransaction) :: mid → (∀ e ∈ mid, e.2 = .other) →
      stmt = .other ∨ stmt = .commit → k = k₀ ∧ conn.isBeginTransaction = true ∧ conn.dbc.isSome =
        true ∧ ∀ e ∈ mid, e.1 = k₀ := by
    intro pre mid k₀ heq hmid hstmt
    obtain ⟨hflag, hid₀, hall⟩ := h.pending pre mid k₀ heq hmid
    have hsome : conn.dbc.isSome = true := by
      rw [← Option.isSome_map, hid₀]
      rfl
    have hk := hid.symm.trans ((hsame hstmt hflag hsome).trans hid₀)
    exact ⟨Option.some.inj hk, hflag, hsome, hall⟩
  constructor
  · intro pre mid post k₀ k' heq hmid
    rw [hdone, ← List.cons_append, ← List.append_assoc] at heq
    obtain ⟨rfl, hfront, hlast⟩ | ⟨post', rfl, hfront⟩ := concat_eq_append_cons heq
    · obtain ⟨rfl, rfl⟩ := Prod.mk.inj hlast
      obtain ⟨hk, -, -, hall⟩ := hpending pre mid k₀ hfront hmid (.inr rfl)
      exact ⟨hk, hall⟩
    · rw [List.append_assoc, List.cons_append] at hfront
      exact h.matched pre mid post' k₀ k' hfront hmid
  · intro pre mid k₀ heq hmid
    rw [hdone] at heq
    obtain ⟨rfl, hfront, hlast⟩ | ⟨mid', rfl, hfront⟩ := concat_eq_append_cons heq
    · obtain ⟨rfl, rfl⟩ := Prod.mk.inj hlast
      exact ⟨hbegin rfl, hid, fun e he => absurd he List.not_mem_nil⟩
    · obtain ⟨hold, hnew⟩ := List.forall_mem_append.mp hmid
      have hstmt : stmt = .other := hnew _ (List.mem_singleton_self _)
      obtain ⟨rfl, hflag, hsome, hall⟩ := hpending pre mid' k₀ hfront hold (.inl hstmt)
      refine ⟨hother hstmt hflag hsome, hid, List.forall_mem_append.mpr ⟨hall, fun e he => ?_⟩⟩
      rw [List.mem_singleton.mp he]

def begun (conn : TxConn) : Prop := conn.isBeginTransaction = true ∧ conn.dbc.isSome = true

theorem escape_tied (h : Tied (s.conn db)) (answer : DbAnswer) : Tied ((s.rimGetDbConnection db answer).1.conn db) := by
  have hgot := rimGetDbConnection_got s db answer
  generalize (s.rimGetDbConnection db answer).1.conn db = conn' at hgot ⊢
  generalize (s.rimGetDbConnection db answer).2 = connected at hgot
  cases hgot with
  | there => exact h
  | closed => exact h
  | fresh k hdbc =>
    refine h.kept rfl fun _ hsome => ?_
    rw [hdbc] at hsome
    cases hsome
  | failed conn' hdbc _ hdone =>
    refine h.kept hdone fun _ hsome => ?_
    rw [hdbc] at hsome
    cases hsome

theorem lose_tied (h : Tied (s.conn db)) : Tied ((s.lose db).conn db) := by
  have hkept := lose_kept s db
  exact h.kept hkept.done fun hflag _ => ⟨hkept.flag.trans hflag, hkept.ids⟩

theorem query_tied (h : Tied (s.conn c.db)) : Tied ((s.rimExecuteSQL c .other).1.conn c.db) := by
  have hans := rimExecuteSQL_answered s c .other
  by_cases he : (s.rimExecuteSQL c .other).2 = none
  · obtain ⟨k, _, hid, hdone, -⟩ := hans.ok he
    exact h.next hid hdone (fun h => SqlStmt.noConfusion h) (fun _ hflag hsome => (hans.same hflag hsome).1)
      (fun _ hflag hsome => (hans.same hflag hsome).2)
  · exact h.kept (hans.failed he).1 hans.same

theorem rimBeginTransaction_cases (s : TxDb) (c : TxCall) :
    (s.rimExecuteSQL c .beginTransaction).2 = none ∧
        s.rimBeginTransaction c = ((s.rimExecuteSQL c .beginTransaction).1.setTransaction c.db true, none) ∨
      (s.rimExecuteSQL c .beginTransaction).2 ≠ none ∧ s.rimBeginTransaction c = s.rimExecuteSQL c .beginTransaction ∧
        ((s.rimExecuteSQL c .beginTransaction).2 = some .connect ∨ c.exits = true) ∨
      (s.rimExecuteSQL c .beginTransaction).2 ≠ none ∧ c.exits = false ∧
        s.rimBeginTransaction c = ((s.rimExecuteSQL c .beginTransaction).1.setTransaction c.db false,
          (s.rimExecuteSQL c .beginTransaction).2) := by
  unfold rimBeginTransaction
  generalize s.rimExecuteSQL c .beginTransaction = r
  obtain ⟨s₁, e₁⟩ := r
  dsimp only
  cases e₁ with
  | none => exact .inl ⟨rfl, rfl⟩
  | some err =>
    cases err with
    | connect => exact .inr (.inl ⟨Option.some_ne_none _, rfl, .inl rfl⟩)
    | _ =>
      cases hexits : c.exits with
      | true => exact .inr (.inl ⟨Option.some_ne_none _, rfl, .inr rfl⟩)
      | false => exact .inr (.inr ⟨Option.some_ne_none _, rfl, rfl⟩)

/-- A begin leaves what was begun, if it is executed or ends the request. -/
theorem beginTransaction_tied (h : Tied (s.conn c.db))
    (hguard : begun (s.conn c.db) → (s.conn c.db).accepts c = true ∨ c.exits = true) :
    Tied ((s.rimBeginTransaction c).1.conn c.db) := by
  have hans := rimExecuteSQL_answered s c .beginTransaction
  obtain ⟨he, hbegin⟩ | ⟨he, hbegin, -⟩ | ⟨he, hexits, hbegin⟩ := rimBeginTransaction_cases s c
  · obtain ⟨k, _, hid, hdone, -⟩ := hans.ok he
    rw [hbegin]
    dsimp only [setTransaction]
    rw [setConn_self]
    exact h.next hid hdone (fun _ => rfl)
      (fun h => SqlStmt.noConfusion h) fun h => h.elim SqlStmt.noConfusion SqlStmt.noConfusion
  · rw [hbegin]
    exact h.kept (hans.failed he).1 hans.same
  · rw [hbegin]
    dsimp only [setTransaction]
    rw [setConn_self]
    refine h.kept (hans.failed he).1 fun hflag hsome => ?_
    obtain haccepts | hexits' := hguard ⟨hflag, hsome⟩
    · exact absurd (hans.accepted haccepts).1 he
    · cases hexits.symm.trans hexits'

/-- A connection that is told that no transaction was begun. -/
theorem setTransaction_self (s : TxDb) (db : Nat) (b : Bool) :
    (s.setTransaction db b).conn db = { s.conn db with isBeginTransaction := b } := setConn_self s db _

/-- A COMMIT or ROLLBACK ends what was begun, if it is executed, a COMMIT on the session that there is. -/
theorem end_tied (h : Tied (s.conn c.db)) (hend : stmt = .commit ∨ stmt = .rollback)
    (hguard : begun (s.conn c.db) → (s.conn c.db).accepts c = true ∨ stmt = .rollback ∧ (s.conn c.db).retries c = true) :
    Tied (((s.setTransaction c.db false).rimExecuteSQL c stmt).1.conn c.db) := by
  have hans := rimExecuteSQL_answered (s.setTransaction c.db false) c stmt
  rw [setTransaction_self] at hans
  by_cases he : ((s.setTransaction c.db false).rimExecuteSQL c stmt).2 = none
  · obtain ⟨k, _, hid, hdone, -⟩ := hans.ok he
    refine h.next hid hdone ?_ ?_ ?_
    · rintro rfl
      cases hend <;> contradiction
    · rintro rfl
      cases hend <;> contradiction
    · intro hstmt hflag hsome
      obtain haccepts | ⟨rfl, -⟩ := hguard ⟨hflag, hsome⟩
      · exact (hans.accepted haccepts).2
      · cases hstmt <;> contradiction
  · refine h.kept (hans.failed he).1 fun hflag hsome => absurd ?_ he
    obtain haccepts | ⟨-, hretries⟩ := hguard ⟨hflag, hsome⟩
    · exact (hans.accepted haccepts).1
    · exact hans.retried hretries rfl

/-! ## Runs -/

def opDb : TxOp → Nat
  | .query c | .beginTransaction c | .commit c | .rollback c => c.db
  | .escape db _ | .lose db => db

def opStmt : TxOp → Option SqlStmt
  | .query _ => some .other
  | .beginTransaction _ => some .beginTransaction
  | .commit _ => some .commit
  | .rollback _ => some .rollback
  | .escape .. | .lose _ => none

theorem setTransaction_only (s : TxDb) (db : Nat) (b : Bool) : Only db s (s.setTransaction db b) := setConn_only s db _

/-- An operation does nothing to other connections. -/
theorem perform_only (s : TxDb) (op : TxOp) : Only (opDb op) s (s.perform op).1 := by
  cases op with
  | query c => exact rimExecuteSQL_only s c .other
  | beginTransaction c =>
    have hsql := rimExecuteSQL_only s c .beginTransaction
    unfold perform opDb
    dsimp only
    obtain ⟨-, hbegin⟩ | ⟨-, hbegin, -⟩ | ⟨-, -, hbegin⟩ := rimBeginTransaction_cases s c
    · rw [hbegin]
      exact hsql.trans (setTransaction_only _ c.db true)
    · rw [hbegin]
      exact hsql
    · rw [hbegin]
      exact hsql.trans (setTransaction_only _ c.db false)
  | commit c => exact (setTransaction_only s c.db false).trans (rimExecuteSQL_only _ c .commit)
  | rollback c => exact (setTransaction_only s c.db false).trans (rimExecuteSQL_only _ c .rollback)
  | escape db answer => exact rimGetDbConnection_only s db answer
  | lose db => exact lose_only s db

/-- Each answer that there was no error is that of a statement that was executed. -/
theorem perform_done {op : TxOp} (hstmt : opStmt op = some stmt) (he : (s.perform op).2 = none) :
    ∃ k, ((s.perform op).1.conn (opDb op)).done = (s.conn (opDb op)).done ++ [(k, stmt)] := by
  cases op with
  | query c =>
    obtain rfl := Option.some.inj hstmt
    obtain ⟨k, _, -, hdone, -⟩ := (rimExecuteSQL_answered s c .other).ok he
    exact ⟨k, hdone⟩
  | beginTransaction c =>
    obtain rfl := Option.some.inj hstmt
    unfold perform opDb at *
    dsimp only at *
    obtain ⟨hnone, hbegin⟩ | ⟨hsome, hbegin, -⟩ | ⟨hsome, -, hbegin⟩ := rimBeginTransaction_cases s c
    · obtain ⟨k, _, -, hdone, -⟩ := (rimExecuteSQL_answered s c .beginTransaction).ok hnone
      refine ⟨k, ?_⟩
      rw [hbegin, setTransaction_self]
      exact hdone
    · rw [hbegin] at he
      exact absurd he hsome
    · rw [hbegin] at he
      exact absurd he hsome
  | commit c =>
    obtain rfl := Option.some.inj hstmt
    have hans := rimExecuteSQL_answered (s.setTransaction c.db false) c .commit
    rw [setTransaction_self] at hans
    obtain ⟨k, _, -, hdone, -⟩ := hans.ok he
    exact ⟨k, hdone⟩
  | rollback c =>
    obtain rfl := Option.some.inj hstmt
    have hans := rimExecuteSQL_answered (s.setTransaction c.db false) c .rollback
    rw [setTransaction_self] at hans
    obtain ⟨k, _, -, hdone, -⟩ := hans.ok he
    exact ⟨k, hdone⟩
  | escape => cases hstmt
  | lose => cases hstmt

/-- Where a transaction was begun, a COMMIT is executed by its session, a ROLLBACK by that one or by another one, and
another begin is executed by it or ends the request. -/
def Keeps (s : TxDb) : TxOp → Prop
  | .beginTransaction c => begun (s.conn c.db) → (s.conn c.db).accepts c = true ∨ c.exits = true
  | .commit c => begun (s.conn c.db) → (s.conn c.db).accepts c = true
  | .rollback c => begun (s.conn c.db) → (s.conn c.db).accepts c = true ∨ (s.conn c.db).retries c = true
  | _ => True

theorem step_tied {op : TxOp} (h : Tied (s.conn (opDb op))) (hguard : s.Keeps op) :
    Tied ((s.perform op).1.conn (opDb op)) := by
  cases op with
  | query c => exact query_tied h
  | beginTransaction c => exact beginTransaction_tied h hguard
  | commit c => exact end_tied h (.inl rfl) fun hbegun => .inl (hguard hbegun)
  | rollback c => exact end_tied h (.inr rfl) fun hbegun => (hguard hbegun).imp_right fun hretries => ⟨rfl, hretries⟩
  | escape db answer => exact escape_tied h answer
  | lose db => exact lose_tied h

theorem init_tied (types : Nat → DbVendor) (db : Nat) : Tied ((init types).conn db) := by
  have hnil : ∀ (pre l : List (Nat × SqlStmt)) x, ([] : List (Nat × SqlStmt)) ≠ pre ++ x :: l := by simp
  exact ⟨fun pre mid post k k' heq => absurd heq (hnil _ _ _), fun pre mid k heq => absurd heq (hnil _ _ _)⟩

/-- A COMMIT that was answered without an error was executed by the session of the begin before it, and so was each
statement between them that was. -/
theorem run_matched {types : Nat → DbVendor} {evs : List (TxOp × Option DbError)} (op : TxOp)
    (hrun : GuardedRun Step (fun s ev => s.Keeps ev.1) (init types) evs s) (hguard : s.Keeps op) :
    (∀ db, Matched ((s.perform op).1.conn db).done) ∧
      ∀ stmt, opStmt op = some stmt → (s.perform op).2 = none →
        ∃ k, ((s.perform op).1.conn (opDb op)).done = (s.conn (opDb op)).done ++ [(k, stmt)] := by
  have hstep : ∀ {s : TxDb} {op : TxOp}, (∀ db, Tied (s.conn db)) → s.Keeps op →
    ∀ db, Tied ((s.perform op).1.conn db) := by
    intro s op h hguard db
    by_cases hdb : db = opDb op
    · subst hdb
      exact step_tied (h _) hguard
    · rw [perform_only s op db hdb]
      exact h db
  have htied : ∀ db, Tied (s.conn db) := by
    refine hrun.invariant (P := fun s => ∀ db, Tied (s.conn db)) (fun {s s' ev} h hguard hs => ?_) (init_tied types)
    have hnext := hstep h hguard
    rw [show s.perform ev.1 = (s', ev.2) from hs] at hnext
    exact hnext
  exact ⟨fun db => (hstep htied hguard db).matched, fun stmt hstmt he => perform_done hstmt he⟩

/-- A transaction is committed with one statement of the user in it. -/
theorem run_matched_one : ∃ s : TxDb, (s.conn 0).done = [(0, .beginTransaction), (0, .other)] ∧
    (∀ db, Matched ((s.perform (.commit { db := 0 })).1.conn db).done) ∧
      ∀ stmt, opStmt (.commit { db := 0 }) = some stmt → (s.perform (.commit { db := 0 })).2 = none →
        ∃ k, ((s.perform (.commit { db := 0 })).1.conn 0).done = (s.conn 0).done ++ [(k, stmt)] := by
  obtain ⟨s, hrun, hdone, haccepts⟩ : ∃ s, GuardedRun Step (fun s ev => s.Keeps ev.1) (init fun _ => .postgres)
      [((.beginTransaction { db := 0 } : TxOp), (none : Option DbError)), (.query { db := 0 }, none)] s ∧
      (s.conn 0).done = [(0, .beginTransaction), (0, .other)] ∧ (s.conn 0).accepts { db := 0 } = true := by
    refine ⟨_, .cons ?_ rfl (.cons trivial rfl (.nil _)), rfl, rfl⟩
    rintro ⟨hflag, -⟩
    cases hflag
  have hlast := run_matched (.commit { db := 0 }) hrun fun _ => haccepts
  exact ⟨s, hdone, hlast⟩

/-- The connection is lost when the COMMIT is sent. -/
theorem not_run_matched : ¬ ∀ (types : Nat → DbVendor) (evs : List (TxOp × Option DbError)) (s : TxDb),
    Run Step (init types) evs s → ∀ db, Matched (s.conn db).done := by
  intro hall
  obtain ⟨s, hrun, hdone⟩ : ∃ s, Run Step (init fun _ => .postgres)
      [((.beginTransaction { db := 0 } : TxOp), (none : Option DbError)), (.query { db := 0 }, none),
        (.commit { db := 0, drops := true }, none)] s ∧
      (s.conn 0).done = [(0, .beginTransaction), (0, .other), (1, .commit)] :=
    ⟨_, .cons trivial rfl (.cons trivial rfl (.cons trivial rfl (.nil _))), rfl⟩
  have hmatched := hall _ _ s hrun 0 [] [(0, .other)] [] 0 1 hdone fun e he => by rw [List.mem_singleton.mp he]
  cases hmatched.1

/-! ## Transactions that are known of -/

/-- Each open transaction is one that `db.c` knows of. -/
def Flagged (s : TxDb) : Prop := ∀ db, (s.conn db).inTransaction = true → (s.conn db).isBeginTransaction = true

/-- In an open transaction, a server does not answer a COMMIT or ROLLBACK with an error, nor a begin, unless that ends the
request. -/
def Open (s : TxDb) : TxOp → Prop
  | .beginTransaction c => (s.conn c.db).inTransaction = true → (s.conn c.db).rejects c = true → c.exits = true
  | .commit c | .rollback c => (s.conn c.db).inTransaction = true → (s.conn c.db).rejects c = false
  | _ => True

theorem isSome_of_inTransaction (h : conn.inTransaction = true) : conn.dbc.isSome = true := by
  cases hdbc : conn.dbc with
  | none =>
    rw [TxConn.inTransaction, hdbc] at h
    cases h
  | some ses => rfl

/-- After a statement that leaves transactions as they are, or ends none. -/
theorem Answered.flagged (hans : Answered c stmt conn conn' e) (hstmt : e = none → stmt = .other)
    (h : conn.inTransaction = true → conn.isBeginTransaction = true) (htx : conn'.inTransaction = true) :
    conn'.isBeginTransaction = true := by
  have hbefore : conn.inTransaction = true := by
    by_cases he : e = none
    · obtain ⟨k, before, -, -, hopens, hbefore⟩ := hans.ok he
      rw [hstmt he] at hopens
      exact hbefore (hopens.symm.trans htx)
    · exact ((hans.failed he).2 htx).1
  exact (hans.same (h hbefore) (isSome_of_inTransaction hbefore)).1

theorem beginTransaction_flagged (h : (s.conn c.db).inTransaction = true → (s.conn c.db).isBeginTransaction = true) :
    (((s.rimBeginTransaction c).1.conn c.db).inTransaction = true →
      ((s.rimBeginTransaction c).1.conn c.db).isBeginTransaction = true) ↔ s.Open (.beginTransaction c) := by
  have hans := rimExecuteSQL_answered s c .beginTransaction
  obtain ⟨he, hbegin⟩ | ⟨he, hbegin, hend⟩ | ⟨he, hexits, hbegin⟩ := rimBeginTransaction_cases s c
  · rw [hbegin, setTransaction_self]
    refine ⟨fun _ _ hrejects => ?_, fun _ _ => rfl⟩
    rw [(hans.rejected hrejects).1] at he
    cases he
  · rw [hbegin]
    refine ⟨fun _ _ hrejects => ?_, fun _ => hans.flagged (fun hnone => absurd hnone he) h⟩
    obtain hconnect | hexits := hend
    · rw [(hans.rejected hrejects).1] at hconnect
      cases hconnect
    · exact hexits
  · rw [hbegin, setTransaction_self]
    constructor
    · intro hafter htx hrejects
      rw [(hans.rejected hrejects).2] at hafter
      cases hafter htx
    · intro hopen htx
      obtain ⟨hbefore, hrejects⟩ := (hans.failed he).2 htx
      exact absurd (hopen hbefore hrejects) (ne_true_of_eq_false hexits)

/-- After a COMMIT or ROLLBACK no transaction is known of, so there must be none. -/
theorem end_flagged (hend : stmt = .commit ∨ stmt = .rollback) :
    ((((s.setTransaction c.db false).rimExecuteSQL c stmt).1.conn c.db).inTransaction = true →
      (((s.setTransaction c.db false).rimExecuteSQL c stmt).1.conn c.db).isBeginTransaction = true) ↔
      ((s.conn c.db).inTransaction = true → (s.conn c.db).rejects c = false) := by
  have hans := rimExecuteSQL_answered (s.setTransaction c.db false) c stmt
  rw [setTransaction_self] at hans
  constructor
  · intro hafter htx
    by_contra hrejects
    rw [Bool.not_eq_false] at hrejects
    rw [(hans.rejected hrejects).2] at hafter
    cases hafter htx
  · intro hopen htx
    by_cases he : ((s.setTransaction c.db false).rimExecuteSQL c stmt).2 = none
    · obtain ⟨k, before, -, -, hopens, -⟩ := hans.ok he
      have hclosed : stmt.opens before = false := by
        obtain rfl | rfl := hend <;> rfl
      cases htx.symm.trans (hopens.trans hclosed)
    · obtain ⟨hbefore, hrejects⟩ := (hans.failed he).2 htx
      exact absurd hrejects (ne_true_of_eq_false (hopen hbefore))

theorem escape_flagged (h : (s.conn db).inTransaction = true → (s.conn db).isBeginTransaction = true) (answer : DbAnswer)
    (htx : ((s.rimGetDbConnection db answer).1.conn db).inTransaction = true) :
    ((s.rimGetDbConnection db answer).1.conn db).isBeginTransaction = true := by
  have hgot := rimGetDbConnection_got s db answer
  generalize (s.rimGetDbConnection db answer).1.conn db = conn' at hgot htx ⊢
  generalize (s.rimGetDbConnection db answer).2 = connected at hgot
  cases hgot with
  | there => exact h htx
  | closed _ hflag => exact hflag
  | fresh k => cases htx
  | failed conn' _ _ _ hdead => exact absurd htx (ne_true_of_eq_false (not_inTransaction hdead))

theorem lose_flagged (h : (s.conn db).inTransaction = true → (s.conn db).isBeginTransaction = true)
    (htx : ((s.lose db).conn db).inTransaction = true) : ((s.lose db).conn db).isBeginTransaction = true := by
  by_cases hlib : (s.conn db).dbType = .sqlite
  · rw [lose_sqlite hlib] at htx ⊢
    exact h htx
  · exact absurd htx (ne_true_of_eq_false (not_inTransaction (lose_alive hlib)))

/-- Where each open transaction is known of, that remains if and only if the next operation is such a one. -/
theorem step_flagged (h : Flagged s) (op : TxOp) : Flagged (s.perform op).1 ↔ s.Open op := by
  have hother : (((s.perform op).1.conn (opDb op)).inTransaction = true →
      ((s.perform op).1.conn (opDb op)).isBeginTransaction = true) ↔ Flagged (s.perform op).1 := by
    refine ⟨fun hhere db htx => ?_, fun hall => hall _⟩
    by_cases hdb : db = opDb op
    · subst hdb
      exact hhere htx
    · rw [perform_only s op db hdb] at htx ⊢
      exact h db htx
  rw [← hother]
  cases op with
  | query c =>
    refine ⟨fun _ => trivial, fun _ => ?_⟩
    exact (rimExecuteSQL_answered s c .other).flagged (fun _ => rfl) (h c.db)
  | beginTransaction c => exact beginTransaction_flagged (h c.db)
  | commit c => exact end_flagged (.inl rfl)
  | rollback c => exact end_flagged (.inr rfl)
  | escape db answer => exact ⟨fun _ => trivial, fun _ => escape_flagged (h db) answer⟩
  | lose db => exact ⟨fun _ => trivial, fun _ => lose_flagged (h db)⟩

/-- What `rim_check_transaction` leaves, where its rollbacks are executed. -/
theorem rimCheckTransaction_closed (calls : Nat → TxCall) (dbs : List Nat) (h : Flagged s)
    (hcalls : ∀ db, (s.conn db).isBeginTransaction = true →
      (s.conn db).accepts (calls db) = true ∨ (s.conn db).retries (calls db) = true) :
    (s.rimCheckTransaction calls dbs).2 = none ∧
      ∀ db, db ∈ dbs ∨ (s.conn db).inTransaction =
        false → ((s.rimCheckTransaction calls dbs).1.conn db).inTransaction = false := by
  induction dbs generalizing s with
  | nil => exact ⟨rfl, fun db hdb => hdb.resolve_left List.not_mem_nil⟩
  | cons i dbs ih =>
    rw [rimCheckTransaction]
    by_cases hflag : (s.conn i).isBeginTransaction = true
    · rw [if_pos hflag]
      have hans := rimExecuteSQL_answered (s.setTransaction i false) { calls i with db := i } .rollback
      have honly : Only i s (s.rimRollback { calls i with db := i }).1 :=
        (setTransaction_only s i false).trans (rimExecuteSQL_only _ { calls i with db := i } .rollback)
      dsimp only at hans
      rw [setTransaction_self] at hans
      have hend : s.rimRollback { calls i with db := i } =
        (s.setTransaction i false).rimExecuteSQL { calls i with db := i } .rollback := rfl
      rw [← hend] at hans
      generalize s.rimRollback { calls i with db := i } = r at hans honly ⊢
      obtain ⟨s₁, e₁⟩ := r
      dsimp only at hans honly ⊢
      have he : e₁ = none := by
        obtain haccepts | hretries := hcalls i hflag
        · exact (hans.accepted haccepts).1
        · exact hans.retried hretries rfl
      subst he
      obtain ⟨k, before, -, -, hclosed, -⟩ := hans.ok rfl
      have hno : (s₁.conn i).isBeginTransaction = false :=
        Bool.eq_false_iff.mpr fun h => absurd (hans.flag h) Bool.false_ne_true
      rw [if_neg (by simp)]
      have hnext := ih (s := s₁) ?_ ?_
      · refine ⟨hnext.1, fun db hdb => hnext.2 db ?_⟩
        by_cases heq : db = i
        · subst heq
          exact .inr hclosed
        · rw [honly db heq]
          exact hdb.imp_left fun hmem => (List.mem_cons.mp hmem).resolve_left heq
      · intro db htx
        by_cases heq : db = i
        · subst heq
          cases hclosed.symm.trans htx
        · rw [honly db heq] at htx ⊢
          exact h db htx
      · intro db hbegun
        by_cases heq : db = i
        · subst heq
          cases hno.symm.trans hbegun
        · rw [honly db heq] at hbegun ⊢
          exact hcalls db hbegun
    · rw [if_neg hflag]
      obtain ⟨hnone, hclosed⟩ := ih h hcalls
      refine ⟨hnone, fun db hdb => hclosed db ?_⟩
      by_cases heq : db = i
      · subst heq
        exact .inr (Bool.eq_false_iff.mpr fun htx => hflag (h db htx))
      · exact hdb.imp_left fun hmem => (List.mem_cons.mp hmem).resolve_left heq

/-- In every run in which no server answers the end of an open transaction, or a begin in one, with an error, each open
transaction is known of, and none is left at the end of the request. Each is known of after the next operation if and
only if that is such a one. -/
theorem run_flagged {types : Nat → DbVendor} {evs : List (TxOp × Option DbError)}
    (hrun : GuardedRun Step (fun s ev => s.Open ev.1) (init types) evs s) :
    Flagged s ∧ (∀ op, Flagged (s.perform op).1 ↔ s.Open op) ∧
      ∀ calls tot, (∀ db, (s.conn db).isBeginTransaction = true →
          (s.conn db).accepts (calls db) = true ∨ (s.conn db).retries (calls db) = true) →
        ∀ db < tot, ((s.rimCheckTransaction calls (List.range tot)).1.conn db).inTransaction = false := by
  have h : Flagged s := by
    refine hrun.invariant (P := Flagged) (fun {s s' ev} h hguard hs => ?_) fun db htx => ?_
    · have hnext := (step_flagged h ev.1).mpr hguard
      rw [show s.perform ev.1 = (s', ev.2) from hs] at hnext
      exact hnext
    · cases htx
  refine ⟨h, step_flagged h, fun calls tot hcalls db hdb => ?_⟩
  exact (rimCheckTransaction_closed calls (List.range tot) h hcalls).2 db (.inl (List.mem_range.mpr hdb))

/-- A transaction is begun, and rolled back at the end of the request. -/
theorem run_flagged_one : ∃ s : TxDb, (s.conn 0).inTransaction = true ∧ Flagged s ∧
    ∀ db < 1, ((s.rimCheckTransaction (fun _ => { db := 0 }) (List.range 1)).1.conn db).inTransaction = false := by
  obtain ⟨s, hrun, htx, haccepts, hother⟩ : ∃ s, GuardedRun Step (fun s ev => s.Open ev.1) (init fun _ => .postgres)
      [((.beginTransaction { db := 0 } : TxOp), (none : Option DbError))] s ∧ (s.conn 0).inTransaction = true ∧
      (s.conn 0).accepts { db := 0 } = true ∧ ∀ db, db ≠ 0 → (s.conn db).isBeginTransaction = false := by
    refine ⟨_, .cons ?_ rfl (.nil _), rfl, rfl, fun db hdb => ?_⟩
    · intro htx
      cases htx
    · have honly := perform_only (init fun _ => .postgres) (.beginTransaction { db := 0 }) db hdb
      exact congrArg TxConn.isBeginTransaction honly
  obtain ⟨hflagged, -, hclosed⟩ := run_flagged hrun
  refine ⟨s, htx, hflagged, hclosed _ 1 fun db hflag => ?_⟩
  by_cases hdb : db = 0
  · subst hdb
    exact .inl haccepts
  · cases (hother db hdb).symm.trans hflag

/-- A server answers a COMMIT with an error. -/
theorem not_run_flagged : ¬ ∀ (types : Nat → DbVendor) (evs : List (TxOp × Option DbError)) (s : TxDb),
    Run Step (init types) evs s → Flagged s := by
  intro hall
  obtain ⟨s, hrun, hno, htx⟩ : ∃ s, Run Step (init fun _ => .postgres)
      [((.beginTransaction { db := 0 } : TxOp), (none : Option DbError)),
        (.commit { db := 0, executes := false }, some .rejected)] s ∧
      (s.conn 0).isBeginTransaction = false ∧ (s.conn 0).inTransaction = true :=
    ⟨_, .cons trivial rfl (.cons trivial rfl (.nil _)), rfl, rfl⟩
  cases hno.symm.trans (hall _ _ s hrun 0 htx)

/-! ## The connections of the prepared statements -/

def eraseConn (conn : TxConn) : DbConn where
  dbType := conn.dbType
  dbc := conn.dbc.map fun ses => { alive := ses.alive }
  isBeginTransaction := conn.isBeginTransaction
  hasConnected := conn.hasConnected

def erase (s : TxDb) : RimDb where
  conn db := eraseConn (s.conn db)

def eraseCall (c : TxCall) : DbCall where
  db := c.db
  prep := 0
  isPrep := false
  executes := c.executes
  first := c.first
  again := c.again
  drops := c.drops
  dropsAgain := c.dropsAgain
  exits := c.exits

def eraseOp : TxOp → DbOp
  | .query c => .query (eraseCall c)
  | .beginTransaction c => .beginTransaction (eraseCall c)
  | .commit c => .commit (eraseCall c)
  | .rollback c => .rollback (eraseCall c)
  | .escape db answer => .escape db answer
  | .lose db => .lose db

@[simp] theorem erase_setConn (s : TxDb) (db : Nat) (conn : TxConn) :
    (s.setConn db conn).erase = s.erase.setConn db (eraseConn conn) := by
  have hconn : ∀ i, eraseConn (Function.update s.conn db conn i) =
      Function.update (fun i => eraseConn (s.conn i)) db (eraseConn conn) i :=
    fun i => Function.apply_update (fun _ => eraseConn) s.conn db conn i
  unfold erase RimDb.setConn setConn
  simp only [hconn]

@[simp] theorem erase_newSession (s : TxDb) (db : Nat) (alive : Bool) :
    (s.newSession db alive).erase = s.erase.setConn db { s.erase.conn db with dbc := some { alive := alive } } :=
  erase_setConn s db _

theorem erase_rimConnect (s : TxDb) (db : Nat) (answer : DbAnswer) :
    s.erase.rimConnect db answer = ((s.rimConnect db answer).1.erase, (s.rimConnect db answer).2) := by
  have hreset : s.erase.rimDbPrepReset db = s.erase := rfl
  have htype : (s.erase.conn db).dbType = (s.conn db).dbType := rfl
  unfold RimDb.rimConnect rimConnect
  dsimp only
  rw [hreset, htype]
  split_ifs
  · rw [erase_newSession]
    rfl
  · rw [erase_setConn]
    rfl
  · rw [erase_newSession]
    rfl

theorem erase_rimGetDbConnection (s : TxDb) (db : Nat) (answer : DbAnswer) :
    s.erase.rimGetDbConnection db answer =
      ((s.rimGetDbConnection db answer).1.erase, (s.rimGetDbConnection db answer).2) := by
  have hsome : (s.erase.conn db).dbc.isSome = (s.conn db).dbc.isSome := Option.isSome_map
  have hflag : ((s.erase.conn db).hasConnected && (s.erase.conn db).isBeginTransaction) =
      ((s.conn db).hasConnected && (s.conn db).isBeginTransaction) := rfl
  unfold RimDb.rimGetDbConnection rimGetDbConnection
  rw [hsome, hflag, erase_rimConnect]
  dsimp only
  split_ifs
  · rfl
  · rfl
  · rw [erase_setConn]
    rfl
  · rfl

theorem erase_rimRetryDb (s : TxDb) (db : Nat) (answer : DbAnswer) :
    s.erase.rimRetryDb db answer = ((s.rimRetryDb db answer).1.erase, (s.rimRetryDb db answer).2) := by
  have hend : s.erase.rimEndConnection db = (s.rimEndConnection db).erase := by
    have hsome : (s.erase.conn db).dbc.isSome = (s.conn db).dbc.isSome := Option.isSome_map
    unfold RimDb.rimEndConnection rimEndConnection
    rw [hsome]
    split_ifs
    · rw [erase_setConn]
      rfl
    · rfl
  unfold RimDb.rimRetryDb rimRetryDb
  rw [hend, erase_rimGetDbConnection]

theorem erase_lose (s : TxDb) (db : Nat) : s.erase.lose db = (s.lose db).erase := by
  have htype : (s.erase.conn db).dbType = (s.conn db).dbType := rfl
  have hdbc : (s.erase.conn db).dbc = (s.conn db).dbc.map fun ses => { alive := ses.alive } := rfl
  unfold RimDb.lose lose
  rw [htype, hdbc]
  cases (s.conn db).dbc with
  | none => cases (s.conn db).dbType <;> rfl
  | some ses =>
    cases (s.conn db).dbType with
    | sqlite => rfl
    | mariadb =>
      dsimp only [Option.map_some]
      rw [erase_setConn]
      rfl
    | postgres =>
      dsimp only [Option.map_some]
      rw [erase_setConn]
      rfl

/-- What is executed changes the transaction only. -/
theorem eraseConn_executed {ses : TxSession} (h : conn.dbc = some ses) :
    eraseConn (executed conn ses stmt) = eraseConn conn := by
  unfold eraseConn executed
  rw [h]
  rfl

theorem erase_rimExec (s : TxDb) (c : TxCall) (stmt : SqlStmt) (drops : Bool) :
    s.erase.rimExec (eraseCall c) drops = ((s.rimExec c stmt drops).1.erase, (s.rimExec c stmt drops).2) := by
  have hlose : (if drops then s.erase.lose c.db else s.erase) = (if drops then s.lose c.db else s).erase := by
    split_ifs
    · exact erase_lose s c.db
    · rfl
  have hsend : s.erase.rimExec (eraseCall c) drops = s.erase.send (eraseCall c) none drops := rfl
  have hdb : (eraseCall c).db = c.db := rfl
  have hexec : (eraseCall c).executes = c.executes := rfl
  rw [hsend]
  unfold RimDb.send rimExec
  rw [hdb, hexec, hlose]
  generalize (if drops then s.lose c.db else s) = t
  have hdbc : (t.erase.conn c.db).dbc = (t.conn c.db).dbc.map fun ses => { alive := ses.alive } := rfl
  unfold RimDb.session send
  dsimp only
  rw [hdbc]
  cases hses : (t.conn c.db).dbc with
  | none => rfl
  | some ses =>
    dsimp only [Option.map_some, Option.getD_some]
    have hnone : ¬ (none : Option DbStmt).any (· ∉ ([] : List DbStmt)) = true := Bool.false_ne_true
    rw [if_neg hnone]
    split_ifs
    · rfl
    · rfl
    · have hsame : eraseConn (executed (t.conn c.db) ses stmt) = t.erase.conn c.db := eraseConn_executed hses
      unfold executed at hsame
      have hself : t.erase.setConn c.db (t.erase.conn c.db) = t.erase := by
        unfold RimDb.setConn
        rw [Function.update_eq_self]
      rw [erase_setConn, hsame, hself]

theorem erase_connlost (s : TxDb) (db : Nat) : s.erase.connlost db = s.connlost db := by
  have hdbc : (s.erase.conn db).dbc = (s.conn db).dbc.map fun ses => { alive := ses.alive } := rfl
  have htype : (s.erase.conn db).dbType = (s.conn db).dbType := rfl
  unfold RimDb.connlost RimDb.session connlost TxConn.alive
  rw [hdbc, htype]
  cases (s.conn db).dbc <;> cases (s.conn db).dbType <;> rfl

theorem erase_execConnected (s : TxDb) (c : TxCall) (stmt : SqlStmt) :
    s.erase.execConnected (eraseCall c) = ((s.execConnected c stmt).1.erase, (s.execConnected c stmt).2) := by
  have hfirst : s.erase.rimExec (eraseCall c) (eraseCall c).drops =
      ((s.rimExec c stmt c.drops).1.erase, (s.rimExec c stmt c.drops).2) := erase_rimExec s c stmt c.drops
  unfold RimDb.execConnected execConnected
  rw [hfirst]
  generalize s.rimExec c stmt c.drops = r
  obtain ⟨s₁, e₁⟩ := r
  have hcond : (e₁.isSome && !(s₁.erase.conn (eraseCall c).db).isBeginTransaction && s₁.erase.connlost (eraseCall c).db) =
      (e₁.isSome && !(s₁.conn c.db).isBeginTransaction && s₁.connlost c.db) := by
    rw [← erase_connlost]
    rfl
  have hretry : s₁.erase.rimRetryDb (eraseCall c).db (eraseCall c).again =
      ((s₁.rimRetryDb c.db c.again).1.erase, (s₁.rimRetryDb c.db c.again).2) := erase_rimRetryDb s₁ c.db c.again
  dsimp only
  rw [hcond, hretry]
  split_ifs
  · rfl
  · exact erase_rimExec _ c stmt c.dropsAgain
  · rfl

theorem erase_rimExecuteSQL (s : TxDb) (c : TxCall) (stmt : SqlStmt) :
    s.erase.rimExecuteSQL (eraseCall c) = ((s.rimExecuteSQL c stmt).1.erase, (s.rimExecuteSQL c stmt).2) := by
  have hget : s.erase.rimGetDbConnection (eraseCall c).db (eraseCall c).first =
      ((s.rimGetDbConnection c.db c.first).1.erase, (s.rimGetDbConnection c.db c.first).2) :=
    erase_rimGetDbConnection s c.db c.first
  unfold RimDb.rimExecuteSQL rimExecuteSQL
  rw [hget]
  dsimp only
  split_ifs
  · rfl
  · exact erase_execConnected _ c stmt

theorem erase_setTransaction (s : TxDb) (db : Nat) (b : Bool) :
    (s.setTransaction db b).erase = s.erase.setTransaction db b := erase_setConn s db _

/-- An operation is answered as by `RimDb.perform`, and the connections are the same after it. -/
theorem perform_erase (s : TxDb) (op : TxOp) :
    s.erase.perform (eraseOp op) = ((s.perform op).1.erase, (s.perform op).2) := by
  cases op with
  | query c => exact erase_rimExecuteSQL s c .other
  | beginTransaction c =>
    have hsql : s.erase.rimExecuteSQL { eraseCall c with isPrep := false } = _ :=
      erase_rimExecuteSQL s c .beginTransaction
    unfold perform rimBeginTransaction eraseOp RimDb.perform RimDb.rimBeginTransaction
    dsimp only
    rw [hsql]
    generalize s.rimExecuteSQL c .beginTransaction = r
    obtain ⟨s₁, e₁⟩ := r
    dsimp only
    cases e₁ with
    | none =>
      dsimp only
      rw [erase_setTransaction]
      rfl
    | some err =>
      have hexits : (eraseCall c).exits = c.exits := rfl
      cases err with
      | connect => rfl
      | _ =>
        dsimp only
        rw [hexits]
        split_ifs
        · rfl
        · rw [erase_setTransaction]
          rfl
  | commit c =>
    have hend := erase_rimExecuteSQL (s.setTransaction c.db false) c .commit
    rw [erase_setTransaction] at hend
    exact hend
  | rollback c =>
    have hend := erase_rimExecuteSQL (s.setTransaction c.db false) c .rollback
    rw [erase_setTransaction] at hend
    exact hend
  | escape db answer =>
    unfold perform eraseOp RimDb.perform
    dsimp only
    rw [erase_rimGetDbConnection]
  | lose db => exact congrArg (fun t => (t, none)) (erase_lose s db)

/-- A run is one of the connections in which no statement is prepared, with the same errors. -/
theorem run_erase (src : UInt64 → Option Nat) {types : Nat → DbVendor} {evs : List (TxOp × Option DbError)}
    (hrun : Run Step (init types) evs s) :
    GuardedRun (RimDb.Step src) (fun s ev => ev.1.Guard s) (RimDb.init types)
      (evs.map fun ev => (eraseOp ev.1, ev.2)) s.erase := by
  refine hrun.map erase (fun ev => (eraseOp ev.1, ev.2)) ?_
  intro s s' ev _ hs
  have herase := perform_erase s ev.1
  rw [show s.perform ev.1 = (s', ev.2) from hs] at herase
  refine ⟨?_, ?_, herase⟩
  · intro _ _ db _ _ ses hses _
    obtain ⟨ses', -, rfl⟩ := Option.map_eq_some_iff.mp hses
    rfl
  · cases ev.1 with
    | query c => exact fun hprep => absurd hprep Bool.false_ne_true
    | _ => trivial

/-- A COMMIT is sent again, to another session. -/
theorem run_erase_one : ∃ s : RimDb, GuardedRun (RimDb.Step fun _ => none) (fun s ev => ev.1.Guard s)
    (RimDb.init fun _ => .postgres)
    [(.beginTransaction { db := 0, prep := 0, isPrep := false }, none), (.lose 0, none),
      (.commit { db := 0, prep := 0, isPrep := false }, none)] s := by
  have hrun : ∃ s, Run Step (init fun _ => .postgres)
      [((.beginTransaction { db := 0 } : TxOp), (none : Option DbError)), (.lose 0, none), (.commit { db := 0 }, none)] s :=
    ⟨_, .cons trivial rfl (.cons trivial rfl (.cons trivial rfl (.nil _)))⟩
  obtain ⟨s, hrun⟩ := hrun
  exact ⟨s.erase, run_erase (fun _ => none) hrun⟩

end TxDb

end RimStone
