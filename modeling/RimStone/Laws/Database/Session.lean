import Mathlib.Data.Nat.Digits.Lemmas
import RimStone.Database.Session
import RimStone.Lib.Run

/-!
# Statements belong to their sessions

A variable that is not `NULL` holds a statement that the session of its database has, in
every state that is reached (`Inv`, `Kept`): a connection is made only after the variables of
its vendor were set to `NULL`, and nothing else ends a session. The other direction is
what fails. The variables of all databases of the vendor are set to `NULL`, and the sessions
of the others go on, so that for PostgreSQL a name can be prepared twice. A session is in
order (`ReadyAt`) if the names it has are those of variables that are not `NULL`; that is
kept by what does not connect, and by a connection if the other sessions have no names.
-/

namespace RimStone

open RimStone.Lib

/-! ## Names -/

def pointerVal (c : UInt8) : Nat := if c.toNat < 58 then c.toNat - 48 else c.toNat - 87

theorem pointerVal_pointerDigit {d : Nat} (hd : d < 16) : pointerVal (pointerDigit d) = d := by
  have hall : ∀ d < 16, pointerVal (pointerDigit d) = d := by decide
  exact hall d hd

theorem isalnum_pointerDigit {d : Nat} (hd : d < 16) : isalnum (pointerDigit d) = true := by
  have hall : ∀ d < 16, isalnum (pointerDigit d) = true := by decide
  exact hall d hd

theorem rimPgStmt_eq (p : UInt64) : rimPgStmt p = 65 :: 120 :: (Nat.digits 16 p.toNat).reverse.map pointerDigit := by
  have hlen : (Nat.digits 16 p.toNat).length ≤ 16 := (Nat.digits_length_le_iff (by decide) _).mpr p.toNat_lt
  have htext : pointerText p = 48 :: 120 :: (Nat.digits 16 p.toNat).reverse.map pointerDigit := rfl
  have htake : (pointerText p).take 29 = 48 :: 120 :: (Nat.digits 16 p.toNat).reverse.map pointerDigit := by
    rw [htext]
    apply List.take_of_length_le
    simp only [List.length_cons, List.length_map, List.length_reverse]
    omega
  have hdigits : ((Nat.digits 16 p.toNat).reverse.map pointerDigit).map (fun c => if isalnum c then c else 65) =
      (Nat.digits 16 p.toNat).reverse.map pointerDigit := by
    rw [List.map_map]
    apply List.map_congr_left
    intro d hd
    exact if_pos (isalnum_pointerDigit (Nat.digits_lt_base (by decide) (List.mem_reverse.mp hd)))
  unfold rimPgStmt
  rw [htake]
  show List.map _ (65 :: 120 :: _) = _
  rw [List.map_cons, List.map_cons, hdigits]
  rfl

/-- Variables have different addresses, and so different names. -/
theorem rimPgStmt_injective : Function.Injective rimPgStmt := by
  intro p q h
  have hval : ∀ n : Nat, ((Nat.digits 16 n).reverse.map pointerDigit).map pointerVal = (Nat.digits 16 n).reverse := by
    intro n
    rw [List.map_map]
    refine (List.map_congr_left fun d hd => ?_).trans (List.map_id _)
    exact pointerVal_pointerDigit (Nat.digits_lt_base (by decide) (List.mem_reverse.mp hd))
  rw [rimPgStmt_eq, rimPgStmt_eq] at h
  have htail := congrArg (fun l => (l.drop 2).map pointerVal) h
  simp only [List.drop_succ_cons, List.drop_zero, hval] at htail
  exact UInt64.toNat_inj.mp (Nat.digits.injective 16 (List.reverse_inj.mp htail))

namespace RimDb

variable {src : UInt64 → Option Nat} {types : Nat → DbVendor} {s s' s'' : RimDb} {c : DbCall} {db db' : Nat}
  {p : UInt64} {st : DbStmt} {ses : DbSession} {e : Option DbError}

/-! ## What holds in every state -/

/-- The variables that are registered, and the names that sessions have. -/
structure Inv (src : UInt64 → Option Nat) (types : Nat → DbVendor) (s : RimDb) : Prop where
  vendor : ∀ db, (s.conn db).dbType = types db
  registered : ∀ p, s.bufSet p = true → ∃ db, src p = some db ∧ (p, types db) ∈ s.allpreps
  listed : ∀ p v, (p, v) ∈ s.allpreps → ∃ db, src p = some db ∧ v = types db
  owned : ∀ p st, s.prep p = some st → s.bufSet p = true
  named : ∀ db ses st, types db = .postgres → (s.conn db).dbc = some ses → st ∈ ses.stmts →
    ∃ p, src p = some db ∧ s.bufSet p = true ∧ st = .name (rimPgStmt p)

/-- A variable of a database that is not `NULL` holds a statement of its session. -/
def Kept (src : UInt64 → Option Nat) (types : Nat → DbVendor) (s : RimDb) (db : Nat) : Prop :=
  ∀ p st, src p = some db → s.prep p = some st →
    (∃ ses, (s.conn db).dbc = some ses ∧ st ∈ ses.stmts) ∧ (types db = .postgres → st = .name (rimPgStmt p))

/-- The names that the session of a database has are those of variables that are not
`NULL`. -/
def ReadyAt (src : UInt64 → Option Nat) (types : Nat → DbVendor) (s : RimDb) (db : Nat) : Prop :=
  types db = .postgres → ∀ ses p, (s.conn db).dbc = some ses → ses.alive = true → src p = some db →
    .name (rimPgStmt p) ∈ ses.stmts → (s.prep p).isSome

/-- What an operation on a database does to the others: nothing, but that their variables may
be set to `NULL` if a connection is made. -/
structure Frame (src : UInt64 → Option Nat) (types : Nat → DbVendor) (reset : Prop) (db : Nat) (s s' : RimDb) : Prop where
  conn : ∀ db', db' ≠ db → s'.conn db' = s.conn db'
  prep : ∀ p db', src p = some db' → db' ≠ db →
    s'.prep p = s.prep p ∨ (reset ∧ types db' = types db ∧ s'.prep p = none)
  bufSet : ∀ p, s.bufSet p = true → s'.bufSet p = true

variable {r : Prop}

theorem Frame.refl : Frame src types r db s s :=
  ⟨fun _ _ => rfl, fun _ _ _ _ => Or.inl rfl, fun _ h => h⟩

theorem Frame.trans (h : Frame src types r db s s') (h' : Frame src types r db s' s'') :
    Frame src types r db s s'' := by
  refine ⟨?_, ?_, fun p hp => h'.bufSet p (h.bufSet p hp)⟩
  · intro db' hne
    rw [h'.conn db' hne, h.conn db' hne]
  · intro p db' hp hne
    obtain hsame' | hnull' := h'.prep p db' hp hne
    · obtain hsame | ⟨hr, htype, hnull⟩ := h.prep p db' hp hne
      · exact Or.inl (hsame'.trans hsame)
      · exact Or.inr ⟨hr, htype, hsame'.trans hnull⟩
    · exact Or.inr hnull'

theorem Frame.mono {r' : Prop} (h : Frame src types r db s s') (hr : r → r') : Frame src types r' db s s' :=
  ⟨h.conn, fun p db' hp hne => (h.prep p db' hp hne).imp_right fun ⟨hreset, hrest⟩ => ⟨hr hreset, hrest⟩, h.bufSet⟩

/-- What is kept of another database is so still. -/
theorem Kept.frame (h : Kept src types s db') (hf : Frame src types r db s s') (hne : db' ≠ db) :
    Kept src types s' db' := by
  intro p st hp hst
  rw [hf.conn db' hne]
  obtain hsame | ⟨-, -, hnull⟩ := hf.prep p db' hp hne
  · exact h p st hp (hsame ▸ hst)
  · rw [hnull] at hst
    cases hst

/-- A variable of another database that is `NULL` stays so. -/
theorem Frame.null (hf : Frame src types r db s s') (hp : src p = some db') (hne : db' ≠ db) (hnull : s.prep p = none) :
    s'.prep p = none := by
  obtain hsame | ⟨-, -, hnull'⟩ := hf.prep p db' hp hne
  · rw [hsame, hnull]
  · exact hnull'

/-! ## Changes of a connection -/

@[simp] theorem setConn_self (s : RimDb) (db : Nat) (conn : DbConn) : (s.setConn db conn).conn db = conn :=
  Function.update_self _ _ _

theorem setConn_other (s : RimDb) (conn : DbConn) (hne : db' ≠ db) : (s.setConn db conn).conn db' = s.conn db' :=
  Function.update_of_ne hne _ _

theorem setConn_frame (s : RimDb) (db : Nat) (conn : DbConn) : Frame src types r db s (s.setConn db conn) :=
  ⟨fun _ hne => setConn_other s conn hne, fun _ _ _ _ => Or.inl rfl, fun _ h => h⟩

theorem Inv.setConn {conn : DbConn} (h : Inv src types s) (htype : conn.dbType = types db)
    (hnamed : ∀ ses st, types db = .postgres → conn.dbc = some ses → st ∈ ses.stmts →
      ∃ p, src p = some db ∧ s.bufSet p = true ∧ st = .name (rimPgStmt p)) :
    Inv src types (s.setConn db conn) := by
  refine ⟨?_, h.registered, h.listed, h.owned, ?_⟩
  · intro db'
    by_cases heq : db' = db
    · subst heq
      rw [setConn_self, htype]
    · rw [setConn_other s conn heq, h.vendor]
  · intro db' ses st hpg hdbc hst
    by_cases heq : db' = db
    · subst heq
      rw [setConn_self] at hdbc
      exact hnamed ses st hpg hdbc hst
    · rw [setConn_other s conn heq] at hdbc
      exact h.named db' ses st hpg hdbc hst

/-- A change that leaves the statements of the session. -/
theorem Inv.setConn_same {conn : DbConn} (h : Inv src types s) (htype : conn.dbType = (s.conn db).dbType)
    (hstmts : conn.dbc.map (·.stmts) = (s.conn db).dbc.map (·.stmts)) : Inv src types (s.setConn db conn) := by
  refine h.setConn (htype.trans (h.vendor db)) ?_
  intro ses st hpg hdbc hst
  rw [hdbc] at hstmts
  obtain ⟨ses', hdbc', heq⟩ := Option.map_eq_some_iff.mp hstmts.symm
  exact h.named db ses' st hpg hdbc' (heq ▸ hst)

theorem Kept.setConn_same {conn : DbConn} (h : Kept src types s db)
    (hstmts : conn.dbc.map (·.stmts) = (s.conn db).dbc.map (·.stmts)) : Kept src types (s.setConn db conn) db := by
  intro p st hp hst
  obtain ⟨⟨ses, hdbc, hmem⟩, hname⟩ := h p st hp hst
  rw [hdbc] at hstmts
  obtain ⟨ses', hdbc', heq⟩ := Option.map_eq_some_iff.mp hstmts
  rw [setConn_self]
  exact ⟨⟨ses', hdbc', heq ▸ hmem⟩, hname⟩

theorem ReadyAt.setConn_same {conn : DbConn} (h : ReadyAt src types s db)
    (hses : ∀ ses', conn.dbc = some ses' → ses'.alive = true → (s.conn db).dbc = some ses') :
    ReadyAt src types (s.setConn db conn) db := by
  intro hpg ses p hdbc halive hp hmem
  rw [setConn_self] at hdbc
  exact h hpg ses p (hses ses hdbc halive) halive hp hmem

/-- A loss changes neither the statements nor a session that is alive. -/
theorem lose_eq (s : RimDb) (db : Nat) : s.lose db = s ∨ ∃ ses, (s.conn db).dbc = some ses ∧
    s.lose db = s.setConn db { s.conn db with dbc := some { ses with alive := false } } := by
  unfold lose
  cases hdbc : (s.conn db).dbc with
  | none => cases (s.conn db).dbType <;> exact Or.inl rfl
  | some ses =>
    cases (s.conn db).dbType with
    | sqlite => exact Or.inl rfl
    | mariadb => exact Or.inr ⟨ses, rfl, rfl⟩
    | postgres => exact Or.inr ⟨ses, rfl, rfl⟩

theorem lose_inv (h : Inv src types s) (db : Nat) : Inv src types (s.lose db) := by
  obtain heq | ⟨ses, hdbc, heq⟩ := lose_eq s db
  · rw [heq]
    exact h
  · rw [heq]
    exact h.setConn_same rfl (by rw [hdbc]; rfl)

theorem lose_kept (h : Kept src types s db) : Kept src types (s.lose db) db := by
  obtain heq | ⟨ses, hdbc, heq⟩ := lose_eq s db
  · rw [heq]
    exact h
  · rw [heq]
    exact h.setConn_same (by rw [hdbc]; rfl)

theorem lose_readyAt (h : ReadyAt src types s db) : ReadyAt src types (s.lose db) db := by
  obtain heq | ⟨ses, hdbc, heq⟩ := lose_eq s db
  · rw [heq]
    exact h
  · rw [heq]
    refine h.setConn_same ?_
    intro ses' hses' halive
    obtain rfl := Option.some.inj hses'
    cases halive

theorem lose_frame (s : RimDb) (db : Nat) : Frame src types r db s (s.lose db) := by
  obtain heq | ⟨ses, hdbc, heq⟩ := lose_eq s db
  · rw [heq]
    exact .refl
  · rw [heq]
    exact setConn_frame s db _

/-! ## A connection is made -/

/-- Without a connection nothing is closed. -/
theorem rimDbPrepReset_eq (hdbc : (s.conn db).dbc = none) :
    s.rimDbPrepReset db = { s with
      prep := fun p => if (p, (s.conn db).dbType) ∈ s.allpreps then none else s.prep p } := by
  have hloop : ∀ (l : List (UInt64 × DbVendor)) (s : RimDb), (s.conn db).dbc = none →
      l.foldl (fun s e => if e.2 = (s.conn db).dbType then (s.rimCloseStmt db (s.prep e.1)).setPrep e.1 none else s) s =
        { s with prep := fun p => if (p, (s.conn db).dbType) ∈ l then none else s.prep p } := by
    intro l
    induction l with
    | nil =>
      intro s _
      rfl
    | cons e l ih =>
      intro s hnone
      have hclose : s.rimCloseStmt db (s.prep e.1) = s := by
        unfold rimCloseStmt
        rw [hnone]
        cases s.prep e.1 <;> rfl
      have hmem : ∀ p v, (p, v) ≠ e → ((p, v) ∈ e :: l) = ((p, v) ∈ l) := by
        intro p v hne
        rw [List.mem_cons]
        exact propext (or_iff_right hne)
      rw [List.foldl_cons]
      by_cases hvendor : e.2 = (s.conn db).dbType
      · rw [if_pos hvendor, hclose, ih (s.setPrep e.1 none) hnone]
        unfold setPrep
        congr 1
        funext p
        by_cases hp : p = e.1
        · subst hp
          simp [← hvendor]
        · simp only [hmem p _ fun heq => hp (congrArg Prod.fst heq), Function.update_of_ne hp]
      · rw [if_neg hvendor, ih s hnone]
        congr 1
        funext p
        simp only [hmem p _ fun heq => hvendor (congrArg Prod.snd heq).symm]
  exact hloop s.allpreps s hdbc

/-- After a connection was asked for the variables of its vendor are `NULL`, and its session
has no statements. -/
structure Connected (src : UInt64 → Option Nat) (types : Nat → DbVendor) (db : Nat) (s s' : RimDb) : Prop where
  inv : Inv src types s'
  kept : Kept src types s' db
  ready : ReadyAt src types s' db
  frame : Frame src types True db s s'
  null : ∀ p db', src p = some db' → types db' = types db → s.bufSet p = true → s'.prep p = none

theorem connected_of_reset (h : Inv src types s) (hdbc : (s.conn db).dbc = none) (conn : DbConn)
    (htype : conn.dbType = (s.conn db).dbType) (hfresh : ∀ ses, conn.dbc = some ses → ses.stmts = []) :
    Connected src types db s ((s.rimDbPrepReset db).setConn db conn) := by
  have hnull : ∀ p db', src p = some db' → types db' = types db → s.bufSet p = true →
      (p, (s.conn db).dbType) ∈ s.allpreps := by
    intro p db' hp htypes hbuf
    obtain ⟨db'', hp', hmem⟩ := h.registered p hbuf
    rw [hp] at hp'
    obtain rfl := Option.some.inj hp'
    rw [h.vendor db, ← htypes]
    exact hmem
  rw [rimDbPrepReset_eq hdbc]
  have hreset : Inv src types { s with prep := fun p => if (p, (s.conn db).dbType) ∈ s.allpreps then none else s.prep p } := by
    refine ⟨h.vendor, h.registered, h.listed, ?_, h.named⟩
    intro p st hst
    by_cases hmem : (p, (s.conn db).dbType) ∈ s.allpreps
    · simp [hmem] at hst
    · simp only [hmem, if_false] at hst
      exact h.owned p st hst
  have hprep : ∀ p db', src p = some db' → types db' = types db → s.bufSet p = true →
      (if (p, (s.conn db).dbType) ∈ s.allpreps then none else s.prep p) = none := by
    intro p db' hp htypes hbuf
    exact if_pos (hnull p db' hp htypes hbuf)
  refine ⟨?_, ?_, ?_, ?_, hprep⟩
  · refine hreset.setConn (htype.trans (h.vendor db)) ?_
    intro ses st _ hses hst
    rw [hfresh ses hses] at hst
    cases hst
  · intro p st hp hst
    have hst' : (if (p, (s.conn db).dbType) ∈ s.allpreps then none else s.prep p) = some st := hst
    by_cases hmem : (p, (s.conn db).dbType) ∈ s.allpreps
    · rw [if_pos hmem] at hst'
      cases hst'
    · rw [if_neg hmem] at hst'
      exact absurd (hnull p db hp rfl (h.owned p st hst')) hmem
  · intro _ ses p hses _ _ hmem
    rw [setConn_self] at hses
    rw [hfresh ses hses] at hmem
    cases hmem
  · refine ⟨fun _ hne => setConn_other _ conn hne, ?_, fun _ hp => hp⟩
    intro p db' hp _
    show (if (p, (s.conn db).dbType) ∈ s.allpreps then none else s.prep p) = _ ∨ _ ∧ _ ∧
      (if (p, (s.conn db).dbType) ∈ s.allpreps then none else s.prep p) = none
    by_cases hmem : (p, (s.conn db).dbType) ∈ s.allpreps
    · obtain ⟨db'', hp', htypes⟩ := h.listed _ _ hmem
      rw [hp] at hp'
      obtain rfl := Option.some.inj hp'
      rw [if_pos hmem]
      exact Or.inr ⟨trivial, htypes.symm.trans (h.vendor db), rfl⟩
    · exact Or.inl (if_neg hmem)

theorem Connected.setConn_same {conn : DbConn} (h : Connected src types db s s') (htype : conn.dbType = (s'.conn db).dbType)
    (hdbc : conn.dbc = (s'.conn db).dbc) : Connected src types db s (s'.setConn db conn) :=
  ⟨h.inv.setConn_same htype (by rw [hdbc]), h.kept.setConn_same (by rw [hdbc]),
    h.ready.setConn_same (fun ses' hses' _ => hdbc ▸ hses'), h.frame.trans (setConn_frame s' db conn), h.null⟩

theorem rimConnect_connected (h : Inv src types s) (hdbc : (s.conn db).dbc = none) (answer : DbAnswer) :
    Connected src types db s (s.rimConnect db answer).1 ∧
      ((s.rimConnect db answer).2 = true → ((s.rimConnect db answer).1.conn db).dbc = some {}) := by
  have hconn : (s.rimDbPrepReset db).conn db = s.conn db := by rw [rimDbPrepReset_eq hdbc]
  have hrefused := connected_of_reset h hdbc { s.conn db with dbc := some { alive := false } } rfl
    fun ses hses => by cases hses; rfl
  have hmade := connected_of_reset h hdbc { s.conn db with dbc := some {} } rfl
    fun ses hses => by cases hses; rfl
  have hunset := connected_of_reset h hdbc { s.conn db with isBeginTransaction := false } rfl
    fun ses hses => by rw [hdbc] at hses; cases hses
  unfold rimConnect
  simp only [hconn]
  split
  · exact ⟨hrefused, fun hfalse => by cases hfalse⟩
  · split
    · exact ⟨hunset, fun hfalse => by cases hfalse⟩
    · exact ⟨hmade, fun _ => by rw [setConn_self]⟩

/-- A connection is there, is not to be made inside of a transaction, or is made. -/
theorem rimGetDbConnection_cases (h : Inv src types s) (db : Nat) (answer : DbAnswer) :
    ((s.conn db).dbc.isSome = true ∧ s.rimGetDbConnection db answer = (s, true)) ∨
    ((s.conn db).dbc = none ∧ ((s.conn db).hasConnected && (s.conn db).isBeginTransaction) = true ∧
      s.rimGetDbConnection db answer = (s, false)) ∨
    ((s.conn db).dbc = none ∧ ((s.conn db).hasConnected && (s.conn db).isBeginTransaction) = false ∧
      Connected src types db s (s.rimGetDbConnection db answer).1 ∧
      ((s.rimGetDbConnection db answer).2 = true →
        ((s.rimGetDbConnection db answer).1.conn db).dbc = some {} ∧
          ((s.rimGetDbConnection db answer).1.conn db).isBeginTransaction = false)) := by
  unfold rimGetDbConnection
  cases hdbc : (s.conn db).dbc with
  | some ses => exact Or.inl ⟨rfl, rfl⟩
  | none =>
    right
    cases htx : (s.conn db).hasConnected && (s.conn db).isBeginTransaction with
    | true => exact Or.inl ⟨rfl, rfl, rfl⟩
    | false =>
      refine Or.inr ⟨rfl, rfl, ?_⟩
      obtain ⟨hconnected, hmade⟩ := rimConnect_connected h hdbc answer
      simp only [Option.isSome_none, Bool.false_eq_true, if_false]
      cases hconn : s.rimConnect db answer with
      | mk s₁ connected =>
        rw [hconn] at hconnected hmade
        cases connected with
        | false => exact ⟨hconnected, fun hfalse => by cases hfalse⟩
        | true =>
          refine ⟨hconnected.setConn_same rfl rfl, fun _ => ?_⟩
          simp only [if_true, setConn_self]
          exact ⟨hmade rfl, trivial⟩

/-! ## An attempt -/

/-- What an attempt on the session of a database leaves. -/
structure Tried (src : UInt64 → Option Nat) (types : Nat → DbVendor) (db : Nat) (s s' : RimDb) (e : Option DbError) :
    Prop where
  inv : Inv src types s'
  kept : Kept src types s' db
  frame : Frame src types False db s s'
  known : e ≠ some .unknown
  ready : ReadyAt src types s db → ReadyAt src types s' db ∧ e ≠ some .duplicate
  transaction : (s'.conn db).isBeginTransaction = (s.conn db).isBeginTransaction
  session : (s.conn db).dbc.isSome → (s'.conn db).dbc.isSome

theorem session_eq (hdbc : (s.conn db).dbc = some ses) : s.session db = ses := by
  unfold session
  rw [hdbc]
  rfl

theorem session_setConn {conn : DbConn} (hdbc : conn.dbc = some ses) : (s.setConn db conn).session db = ses := by
  apply session_eq
  rw [setConn_self, hdbc]

/-- A call of a program, whose variable was registered. -/
def Known (src : UInt64 → Option Nat) (s : RimDb) (c : DbCall) : Prop :=
  c.isPrep = true → src c.prep = some c.db ∧ s.bufSet c.prep = true

def prepError : Except DbError DbStmt → Option DbError
  | .ok _ => none
  | .error e => some e

theorem Tried.refl (h : Inv src types s) (hk : Kept src types s db) (hknown : e ≠ some .unknown)
    (hready : ReadyAt src types s db → e ≠ some .duplicate) : Tried src types db s s e :=
  ⟨h, hk, .refl, hknown, fun hr => ⟨hr, hready hr⟩, rfl, fun hses => hses⟩

/-- A statement that is new on the session of its variable, which was `NULL`. -/
theorem newStmt_tried (h : Inv src types s) (hk : Kept src types s c.db) (hp : src c.prep = some c.db)
    (hbuf : s.bufSet c.prep = true) (hses : (s.conn c.db).dbc = some ses)
    (hname : types c.db = .postgres → st = .name (rimPgStmt c.prep)) (next : Nat) :
    Tried src types c.db s
      { (s.setConn c.db { s.conn c.db with dbc := some { ses with stmts := st :: ses.stmts } }).setPrep c.prep (some st) with
        next := next } none := by
  have hconn : Inv src types (s.setConn c.db { s.conn c.db with dbc := some { ses with stmts := st :: ses.stmts } }) := by
    refine h.setConn (h.vendor c.db) ?_
    intro ses' st' hpg hses' hst'
    obtain rfl := Option.some.inj hses'
    rcases List.mem_cons.mp hst' with rfl | hold
    · exact ⟨c.prep, hp, hbuf, hname hpg⟩
    · exact h.named c.db ses st' hpg hses hold
  refine ⟨⟨hconn.vendor, hconn.registered, hconn.listed, ?_, hconn.named⟩, ?_, ⟨?_, ?_, fun _ h => h⟩, nofun, ?_, ?_, ?_⟩
  · intro p st' hst'
    have hst' : Function.update s.prep c.prep (some st) p = some st' := hst'
    by_cases heq : p = c.prep
    · subst heq
      exact hbuf
    · rw [Function.update_of_ne heq] at hst'
      exact h.owned p st' hst'
  · intro p st' hp' hst'
    have hst' : Function.update s.prep c.prep (some st) p = some st' := hst'
    refine ⟨⟨{ ses with stmts := st :: ses.stmts }, congrArg DbConn.dbc (setConn_self _ _ _), ?_⟩, ?_⟩
    · by_cases heq : p = c.prep
      · subst heq
        rw [Function.update_self] at hst'
        obtain rfl := Option.some.inj hst'
        exact List.mem_cons_self
      · rw [Function.update_of_ne heq] at hst'
        obtain ⟨⟨ses', hses', hmem⟩, -⟩ := hk p st' hp' hst'
        rw [hses] at hses'
        obtain rfl := Option.some.inj hses'
        exact List.mem_cons_of_mem _ hmem
    · by_cases heq : p = c.prep
      · subst heq
        rw [Function.update_self] at hst'
        obtain rfl := Option.some.inj hst'
        exact hname
      · rw [Function.update_of_ne heq] at hst'
        exact (hk p st' hp' hst').2
  · intro db' hne
    exact setConn_other s _ hne
  · intro p db' hp' hne
    left
    show Function.update s.prep c.prep (some st) p = s.prep p
    refine Function.update_of_ne ?_ _ _
    rintro rfl
    rw [hp] at hp'
    exact hne (Option.some.inj hp').symm
  · intro hready
    refine ⟨?_, nofun⟩
    intro hpg ses' p hses' halive hp' hmem
    show (Function.update s.prep c.prep (some st) p).isSome = true
    by_cases heq : p = c.prep
    · subst heq
      rw [Function.update_self]
      rfl
    · rw [Function.update_of_ne heq]
      have hses'' : some { ses with stmts := st :: ses.stmts } = some ses' :=
        (congrArg DbConn.dbc (setConn_self s c.db _)).symm.trans hses'
      obtain rfl := Option.some.inj hses''
      rcases List.mem_cons.mp hmem with hnew | hold
      · rw [hname hpg] at hnew
        injection hnew with hsame
        exact absurd (rimPgStmt_injective hsame) heq
      · exact hready hpg ses p hses halive hp' hold
  · show ((s.setConn c.db _).conn c.db).isBeginTransaction = _
    rw [setConn_self]
  · intro _
    show ((s.setConn c.db _).conn c.db).dbc.isSome = true
    rw [setConn_self]
    rfl

theorem rimPrepStmt_tried (h : Inv src types s) (hk : Kept src types s c.db) (hp : src c.prep = some c.db)
    (hbuf : s.bufSet c.prep = true) (hses : (s.conn c.db).dbc = some ses) :
    Tried src types c.db s (s.rimPrepStmt c).1 (prepError (s.rimPrepStmt c).2) ∧
      (∀ st, (s.rimPrepStmt c).2 = .ok st → st ∈ ((s.rimPrepStmt c).1.session c.db).stmts) ∧
      ((s.rimPrepStmt c).1.session c.db).alive = ses.alive := by
  unfold rimPrepStmt
  cases hprep : s.prep c.prep with
  | some st =>
    obtain ⟨⟨ses', hses', hmem⟩, -⟩ := hk c.prep st hp hprep
    refine ⟨.refl h hk nofun nofun, ?_, ?_⟩
    · intro st' hst'
      obtain rfl := Except.ok.inj hst'
      rw [session_eq hses']
      exact hmem
    · rw [session_eq hses]
  | none =>
    have hname : types c.db = .postgres → s.newStmt c = .name (rimPgStmt c.prep) :=
      fun hpg => if_pos ((h.vendor c.db).trans hpg)
    simp only [session_eq hses]
    split
    · exact ⟨.refl h hk nofun nofun, nofun, by rw [session_eq hses]⟩
    · rename_i halive
      split
      · rename_i hdup
        refine ⟨.refl h hk nofun ?_, nofun, by rw [session_eq hses]⟩
        intro hready
        have hpg : types c.db = .postgres := (h.vendor c.db).symm.trans hdup.1
        have hmem := hdup.2
        rw [hname hpg] at hmem
        have hsome := hready hpg ses c.prep hses (Bool.eq_true_of_not_eq_false halive) hp hmem
        rw [hprep] at hsome
        cases hsome
      · split
        · exact ⟨.refl h hk nofun nofun, nofun, by rw [session_eq hses]⟩
        · refine ⟨newStmt_tried h hk hp hbuf hses hname _, ?_, ?_⟩
          · intro st hst
            obtain rfl := Except.ok.inj hst
            rw [session_eq (congrArg DbConn.dbc (setConn_self _ _ _))]
            exact List.mem_cons_self
          · rw [session_eq (congrArg DbConn.dbc (setConn_self _ _ _))]

theorem rimPrepStmt_error {err : DbError} (herr : (s.rimPrepStmt c).2 = .error err) :
    s.prep c.prep = none ∧ ((s.session c.db).alive = false ∨ err = .duplicate ∨ c.prepares = false) := by
  unfold rimPrepStmt at herr
  cases hkept : s.prep c.prep with
  | some st =>
    rw [hkept] at herr
    cases herr
  | none =>
    refine ⟨rfl, ?_⟩
    rw [hkept] at herr
    simp only at herr
    split at herr
    · exact Or.inl ‹_›
    · split at herr
      · exact Or.inr (Or.inl (Except.error.inj herr).symm)
      · split at herr
        · exact Or.inr (Or.inr ‹_›)
        · cases herr

theorem rimPrepStmt_ok (hok : (s.rimPrepStmt c).2 = .ok st) : (s.prep c.prep).isSome = true ∨ c.prepares = true := by
  unfold rimPrepStmt at hok
  cases hkept : s.prep c.prep with
  | some st' => exact Or.inl rfl
  | none =>
    rw [hkept] at hok
    simp only at hok
    split at hok
    · cases hok
    · split at hok
      · cases hok
      · split at hok
        · cases hok
        · exact Or.inr (Bool.eq_true_of_not_eq_false ‹_›)

theorem Tried.trans {e' : Option DbError} (h : Tried src types db s s' none) (h' : Tried src types db s' s'' e') :
    Tried src types db s s'' e' :=
  ⟨h'.inv, h'.kept, h.frame.trans h'.frame, h'.known, fun hr => h'.ready (h.ready hr).1,
    h'.transaction.trans h.transaction, fun hses => h'.session (h.session hses)⟩

theorem lose_tried (h : Inv src types s) (hk : Kept src types s db) : Tried src types db s (s.lose db) none := by
  refine ⟨lose_inv h db, lose_kept hk, lose_frame s db, nofun, fun hr => ⟨lose_readyAt hr, nofun⟩, ?_, ?_⟩
  · obtain heq | ⟨ses, hdbc, heq⟩ := lose_eq s db
    · rw [heq]
    · rw [heq, setConn_self]
  · intro hses
    obtain heq | ⟨ses, hdbc, heq⟩ := lose_eq s db
    · rw [heq]
      exact hses
    · rw [heq, setConn_self]
      rfl

theorem lose_stmts (s : RimDb) (db : Nat) : ((s.lose db).session db).stmts = (s.session db).stmts := by
  obtain heq | ⟨ses, hdbc, heq⟩ := lose_eq s db
  · rw [heq]
  · rw [heq, session_setConn rfl, session_eq hdbc]

/-- What is sent to the server is a statement of its session. -/
theorem send_tried (h : Inv src types s) (hk : Kept src types s c.db) (st : Option DbStmt) (drops : Bool)
    (hst : ∀ st', st = some st' → st' ∈ (s.session c.db).stmts) :
    Tried src types c.db s (s.send c st drops).1 (s.send c st drops).2 := by
  have hlost : Tried src types c.db s (if drops then s.lose c.db else s) none := by
    cases drops with
    | false => exact .refl h hk nofun nofun
    | true => exact lose_tried h hk
  have hstmts : ((if drops then s.lose c.db else s).session c.db).stmts = (s.session c.db).stmts := by
    cases drops with
    | false => rfl
    | true => exact lose_stmts s c.db
  unfold send
  generalize (if drops = true then s.lose c.db else s) = s₁ at hlost hstmts ⊢
  simp only [hstmts]
  split
  · exact hlost.trans (.refl hlost.inv hlost.kept nofun nofun)
  · split
    · rename_i hunknown
      obtain ⟨st', rfl, hnot⟩ := (Option.any_eq_true _ _).mp hunknown
      exact absurd (hst st' rfl) (decide_eq_true_iff.mp hnot)
    · split
      · exact hlost.trans (.refl hlost.inv hlost.kept nofun nofun)
      · exact hlost

/-- An execution on a session that is there. -/
theorem rimExec_tried (h : Inv src types s) (hk : Kept src types s c.db) (hc : Known src s c)
    (hses : (s.conn c.db).dbc = some ses) (drops : Bool) :
    Tried src types c.db s (s.rimExec c drops).1 (s.rimExec c drops).2 := by
  unfold rimExec
  cases hprep : c.isPrep with
  | false => exact send_tried h hk none drops nofun
  | true =>
    obtain ⟨hp, hbuf⟩ := hc hprep
    obtain ⟨htried, hmem, -⟩ := rimPrepStmt_tried h hk hp hbuf hses
    cases hr : s.rimPrepStmt c with
    | mk s₁ r =>
      rw [hr] at htried hmem
      cases r with
      | error e => exact htried
      | ok st =>
        have hst : ∀ st', some st = some st' → st' ∈ (s₁.session c.db).stmts := by
          intro st' heq
          exact hmem st' (congrArg Except.ok (Option.some.inj heq))
        exact htried.trans (send_tried htried.inv htried.kept (some st) drops hst)

/-! ## Losing a connection -/

theorem lose_alive (hvendor : (s.conn db).dbType ≠ .sqlite) : ((s.lose db).session db).alive = false := by
  unfold lose
  cases hdbc : (s.conn db).dbc with
  | none =>
    unfold session
    cases hv : (s.conn db).dbType <;> simp [hdbc]
  | some ses =>
    cases hv : (s.conn db).dbType with
    | sqlite => exact absurd hv hvendor
    | mariadb =>
      show ((s.setConn db { s.conn db with dbc := some { ses with alive := false } }).session db).alive = false
      rw [session_setConn rfl]
    | postgres =>
      show ((s.setConn db { s.conn db with dbc := some { ses with alive := false } }).session db).alive = false
      rw [session_setConn rfl]

/-- Whatever is sent to a session that is not alive is lost. -/
theorem send_lost (s : RimDb) (c : DbCall) (st : Option DbStmt) (drops : Bool) :
    ((s.send c st drops).1.session c.db).alive = ((if drops then s.lose c.db else s).session c.db).alive ∧
      (((s.send c st drops).1.session c.db).alive = false → (s.send c st drops).2 = some .lost) := by
  unfold send
  generalize (if drops = true then s.lose c.db else s) = s₁
  simp only
  split
  · exact ⟨rfl, fun _ => rfl⟩
  · rename_i halive
    split
    · exact ⟨rfl, fun h => absurd h halive⟩
    · split
      · exact ⟨rfl, fun h => absurd h halive⟩
      · exact ⟨rfl, fun h => absurd h halive⟩

/-- If a session is not alive after an execution, the connection was lost before. -/
theorem rimExec_dead (h : Inv src types s) (hk : Kept src types s c.db) (hc : Known src s c)
    (hses : (s.conn c.db).dbc = some ses) (hdead : ((s.rimExec c c.drops).1.session c.db).alive = false) :
    c.loses s = true := by
  unfold DbCall.loses
  cases halive : (s.session c.db).alive with
  | false => rfl
  | true =>
    unfold rimExec at hdead
    cases hprep : c.isPrep with
    | false =>
      rw [if_pos hprep, (send_lost s c none c.drops).1] at hdead
      cases hdrops : c.drops with
      | false =>
        rw [hdrops, if_neg Bool.false_ne_true, halive] at hdead
        cases hdead
      | true => rfl
    | true =>
      obtain ⟨hp, hbuf⟩ := hc hprep
      obtain ⟨-, -, hsame⟩ := rimPrepStmt_tried h hk hp hbuf hses
      rw [if_neg (by rw [hprep]; decide)] at hdead
      cases hr : s.rimPrepStmt c with
      | mk s₁ r =>
        rw [hr] at hdead hsame
        cases r with
        | error e =>
          rw [session_eq hses] at halive
          rw [show (s₁.session c.db).alive = ses.alive from hsame, halive] at hdead
          cases hdead
        | ok st =>
          rw [(send_lost s₁ c (some st) c.drops).1] at hdead
          cases hdrops : c.drops with
          | false =>
            rw [session_eq hses] at halive
            rw [hdrops, if_neg Bool.false_ne_true, show (s₁.session c.db).alive = ses.alive from hsame, halive] at hdead
            cases hdead
          | true =>
            have hok : (s.rimPrepStmt c).2 = .ok st := by rw [hr]
            have hthrough := rimPrepStmt_ok hok
            simpa using hthrough

/-- A connection that is lost before an execution is found to be. -/
theorem rimExec_loses (h : Inv src types s) (hk : Kept src types s c.db) (hready : ReadyAt src types s c.db)
    (hc : Known src s c) (hses : (s.conn c.db).dbc = some ses) (hvendor : types c.db ≠ .sqlite)
    (hl : c.loses s = true) :
    ((s.rimExec c c.drops).1.session c.db).alive = false ∧ (s.rimExec c c.drops).2.isSome = true := by
  have hsent : ∀ (s₁ : RimDb) (st : Option DbStmt), Inv src types s₁ →
      ((s₁.session c.db).alive = false ∨ c.drops = true) →
      ((s₁.send c st c.drops).1.session c.db).alive = false ∧ (s₁.send c st c.drops).2.isSome = true := by
    intro s₁ st hinv₁ hwhy
    obtain ⟨halive, hlost⟩ := send_lost s₁ c st c.drops
    have hdead : ((s₁.send c st c.drops).1.session c.db).alive = false := by
      rw [halive]
      split
      · exact lose_alive ((hinv₁.vendor c.db).trans_ne hvendor)
      · rename_i hdrops
        exact hwhy.resolve_right hdrops
    exact ⟨hdead, by rw [hlost hdead]; rfl⟩
  have hwhy : (s.session c.db).alive = false ∨ c.drops = true ∧ (c.isPrep = false ∨ (s.prep c.prep).isSome = true ∨ c.prepares = true) := by
    unfold DbCall.loses at hl
    revert hl
    cases (s.session c.db).alive <;> cases c.drops <;> cases c.isPrep <;> simp
  unfold rimExec
  cases hprep : c.isPrep with
  | false => exact hsent s none h (hwhy.imp_right And.left)
  | true =>
    obtain ⟨hp, hbuf⟩ := hc hprep
    obtain ⟨htried, -, hsame⟩ := rimPrepStmt_tried h hk hp hbuf hses
    rw [if_neg (by decide)]
    cases hr : s.rimPrepStmt c with
    | mk s₁ r =>
      rw [hr] at htried hsame
      have halive : (s₁.session c.db).alive = (s.session c.db).alive := by rw [session_eq hses]; exact hsame
      cases r with
      | ok st => exact hsent s₁ (some st) htried.inv (halive ▸ hwhy.imp_right And.left)
      | error e =>
        refine ⟨?_, rfl⟩
        show (s₁.session c.db).alive = false
        rw [halive]
        obtain hdead | ⟨-, hthrough⟩ := hwhy
        · exact hdead
        · have herr : (s.rimPrepStmt c).2 = .error e := by rw [hr]
          obtain ⟨hnull, hdead | rfl | hrejected⟩ := rimPrepStmt_error herr
          · exact hdead
          · exact absurd rfl (htried.ready hready).2
          · rw [hprep, hnull, hrejected] at hthrough
            simp at hthrough

/-! ## An execution -/

/-- What an operation on a database leaves, where `connects` says that a connection is made. -/
structure Done (src : UInt64 → Option Nat) (types : Nat → DbVendor) (connects : Prop) (db : Nat) (s s' : RimDb)
    (e : Option DbError) : Prop where
  inv : Inv src types s'
  kept : Kept src types s' db
  frame : Frame src types connects db s s'
  known : e ≠ some .unknown
  ready : ReadyAt src types s db → ReadyAt src types s' db ∧ e ≠ some .duplicate
  null : ReadyAt src types s db → connects → ∀ p db', db' ≠ db → src p = some db' → types db' = types db →
    s.bufSet p = true → s'.prep p = none

theorem Tried.done (h : Tried src types db s s' e) (hnot : ¬ r) : Done src types r db s s' e :=
  ⟨h.inv, h.kept, h.frame.mono False.elim, h.known, h.ready, fun _ hr => absurd hr hnot⟩

/-- A connection is made, and what follows is done on it. -/
theorem Connected.done {r' : Prop} (h : Connected src types db s s') (hd : Done src types r' db s' s'' e) (hr : r) :
    Done src types r db s s'' e := by
  have hframe : Frame src types True db s' s'' := hd.frame.mono fun _ => trivial
  refine ⟨hd.inv, hd.kept, (h.frame.trans hframe).mono fun _ => hr, hd.known, fun _ => hd.ready h.ready, ?_⟩
  intro _ _ p db' hne hp htypes hbuf
  exact hframe.null hp hne (h.null p db' hp htypes hbuf)

/-- The connection failed, or ended the request. -/
theorem Connected.failed (h : Connected src types db s s') (hr : r) : Done src types r db s s' (some .connect) := by
  have htried : Tried src types db s' s' (some .connect) := .refl h.inv h.kept nofun nofun
  exact h.done (htried.done not_false) hr

theorem Connected.after {s₁ : RimDb} (ht : Tried src types db s s₁ e) (h : Connected src types db s₁ s') :
    Connected src types db s s' :=
  ⟨h.inv, h.kept, h.ready, (ht.frame.mono False.elim).trans h.frame,
    fun p db' hp htypes hbuf => h.null p db' hp htypes (ht.frame.bufSet p hbuf)⟩

theorem Known.frame (hc : Known src s c) (hf : Frame src types r db s s') : Known src s' c := by
  intro hprep
  obtain ⟨hp, hbuf⟩ := hc hprep
  exact ⟨hp, hf.bufSet _ hbuf⟩

theorem rimRetryDb_connected (h : Inv src types s) (hses : (s.conn db).dbc = some ses) (answer : DbAnswer) :
    Connected src types db s (s.rimRetryDb db answer).1 ∧
      ((s.rimRetryDb db answer).2 = true → ((s.rimRetryDb db answer).1.conn db).dbc = some {}) := by
  have hend : s.rimEndConnection db = s.setConn db { s.conn db with dbc := none, isBeginTransaction := false } := by
    unfold rimEndConnection
    rw [hses]
    rfl
  have hinv : Inv src types (s.rimEndConnection db) := by
    rw [hend]
    exact h.setConn (h.vendor db) fun _ _ _ hnone => by cases hnone
  have hframe : Frame src types True db s (s.rimEndConnection db) := by
    rw [hend]
    exact setConn_frame s db _
  have hconn : (s.rimEndConnection db).conn db = { s.conn db with dbc := none, isBeginTransaction := false } := by
    rw [hend, setConn_self]
  unfold rimRetryDb
  obtain ⟨hsome, -⟩ | ⟨-, htx, -⟩ | ⟨-, -, hconnected, hmade⟩ := rimGetDbConnection_cases hinv db answer
  · rw [hconn] at hsome
    cases hsome
  · rw [hconn, Bool.and_false] at htx
    cases htx
  · refine ⟨⟨hconnected.inv, hconnected.kept, hconnected.ready, hframe.trans hconnected.frame, ?_⟩, fun hyes => (hmade hyes).1⟩
    intro p db' hp htypes hbuf
    exact hconnected.null p db' hp htypes (hframe.bufSet p hbuf)

/-- Outside of a transaction a connection that is lost is made again. -/
theorem execConnected_done (h : Inv src types s) (hk : Kept src types s c.db) (hc : Known src s c)
    (hses : (s.conn c.db).dbc = some ses) :
    Done src types ((s.conn c.db).isBeginTransaction = false ∧ (s.conn c.db).dbType ≠ .sqlite ∧ c.loses s = true) c.db s
      (s.execConnected c).1 (s.execConnected c).2 := by
  have htried := rimExec_tried h hk hc hses c.drops
  have hdead := rimExec_dead h hk hc hses
  have hloses := fun hr hv hl => rimExec_loses h hk hr hc hses hv hl
  unfold execConnected
  cases hx : s.rimExec c c.drops with
  | mk s₁ e =>
    rw [hx] at htried hdead hloses
    have hlost : s₁.connlost c.db = true ↔ types c.db ≠ .sqlite ∧ (s₁.session c.db).alive = false := by
      unfold connlost
      rw [htried.inv.vendor]
      simp
    simp only
    split
    · rename_i hretry
      obtain ⟨⟨-, htx⟩, hlost'⟩ : (e.isSome = true ∧ (s₁.conn c.db).isBeginTransaction = false) ∧ s₁.connlost c.db = true := by
        simpa using hretry
      obtain ⟨hv, hd⟩ := hlost.mp hlost'
      have hr : (s.conn c.db).isBeginTransaction = false ∧ (s.conn c.db).dbType ≠ .sqlite ∧ c.loses s = true :=
        ⟨htried.transaction.symm.trans htx, (h.vendor c.db).trans_ne hv, hdead hd⟩
      obtain ⟨ses₁, hses₁⟩ := Option.isSome_iff_exists.mp (htried.session (by rw [hses]; rfl))
      obtain ⟨hconn, hmade⟩ := rimRetryDb_connected htried.inv hses₁ c.again
      cases hq : s₁.rimRetryDb c.db c.again with
      | mk s₂ connected =>
        rw [hq] at hconn hmade
        have hafter := Connected.after htried hconn
        cases connected with
        | false => exact hafter.failed hr
        | true =>
          have hagain := rimExec_tried hconn.inv hconn.kept (hc.frame hafter.frame) (hmade rfl) c.dropsAgain
          exact hafter.done (hagain.done not_false) hr
    · rename_i hretry
      refine ⟨htried.inv, htried.kept, htried.frame.mono False.elim, htried.known, htried.ready, ?_⟩
      rintro hready ⟨htx, hv, hl⟩
      have hv' : types c.db ≠ .sqlite := (h.vendor c.db).symm.trans_ne hv
      obtain ⟨hd, he⟩ := hloses hready hv' hl
      refine absurd ?_ hretry
      simp only [Bool.and_eq_true, Bool.not_eq_true']
      exact ⟨⟨he, htried.transaction.trans htx⟩, hlost.mpr ⟨hv', hd⟩⟩

/-- `rim_execute_SQL` -/
theorem rimExecuteSQL_done (h : Inv src types s) (hk : Kept src types s c.db) (hc : Known src s c) :
    Done src types (c.connects s (s.conn c.db).isBeginTransaction = true) c.db s
      (s.rimExecuteSQL c).1 (s.rimExecuteSQL c).2 := by
  unfold rimExecuteSQL DbCall.connects
  obtain ⟨hsome, heq⟩ | ⟨hnone, htx, heq⟩ | ⟨hnone, htx, hconn, hmade⟩ := rimGetDbConnection_cases h c.db c.first
  · obtain ⟨ses, hses⟩ := Option.isSome_iff_exists.mp hsome
    have hdone := execConnected_done h hk hc hses
    rw [heq, hses]
    have hiff : ((if (some ses).isNone = true then !((s.conn c.db).hasConnected && (s.conn c.db).isBeginTransaction)
        else !(s.conn c.db).isBeginTransaction && decide ((s.conn c.db).dbType ≠ .sqlite) && c.loses s) = true) ↔
        (s.conn c.db).isBeginTransaction = false ∧ (s.conn c.db).dbType ≠ .sqlite ∧ c.loses s = true := by
      rw [if_neg (by simp)]
      simp [and_assoc]
    exact ⟨hdone.inv, hdone.kept, hdone.frame.mono hiff.mpr, hdone.known, hdone.ready, fun hr hconn => hdone.null hr (hiff.mp hconn)⟩
  · rw [heq]
    have hnot : ¬ ((if (s.conn c.db).dbc.isNone = true then !((s.conn c.db).hasConnected && (s.conn c.db).isBeginTransaction)
        else !(s.conn c.db).isBeginTransaction && decide ((s.conn c.db).dbType ≠ .sqlite) && c.loses s) = true) := by
      rw [hnone, htx]
      simp
    exact Tried.done (.refl h hk nofun nofun) hnot
  · have hyes : (if (s.conn c.db).dbc.isNone = true then !((s.conn c.db).hasConnected && (s.conn c.db).isBeginTransaction)
        else !(s.conn c.db).isBeginTransaction && decide ((s.conn c.db).dbType ≠ .sqlite) && c.loses s) = true := by
      rw [hnone, htx]
      rfl
    cases hq : s.rimGetDbConnection c.db c.first with
    | mk s₁ connected =>
      rw [hq] at hconn hmade
      cases connected with
      | false => exact hconn.failed hyes
      | true =>
        exact hconn.done (execConnected_done hconn.inv hconn.kept (hc.frame hconn.frame) (hmade rfl).1) hyes

/-! ## Operations -/

/-- The variable of a statement is registered. -/
theorem rimDbPrep_tried (h : Inv src types s) (hk : Kept src types s c.db) (hp : src c.prep = some c.db) :
    Tried src types c.db s (s.rimDbPrep c.db c.prep) none ∧ (s.rimDbPrep c.db c.prep).bufSet c.prep = true := by
  unfold rimDbPrep
  cases hbuf : s.bufSet c.prep with
  | true => exact ⟨.refl h hk nofun nofun, hbuf⟩
  | false =>
    have hmono : ∀ p, s.bufSet p = true → Function.update s.bufSet c.prep true p = true := by
      intro p hset
      by_cases heq : p = c.prep
      · rw [heq, Function.update_self]
      · rw [Function.update_of_ne heq, hset]
    have hinv : Inv src types { s with
        bufSet := Function.update s.bufSet c.prep true, allpreps := s.allpreps ++ [(c.prep, (s.conn c.db).dbType)] } := by
      refine ⟨h.vendor, ?_, ?_, fun p st hst => hmono p (h.owned p st hst), ?_⟩
      · intro p hset
        have hset' : Function.update s.bufSet c.prep true p = true := hset
        by_cases heq : p = c.prep
        · subst heq
          exact ⟨c.db, hp, List.mem_append_right _ (by rw [h.vendor]; exact List.mem_singleton_self _)⟩
        · rw [Function.update_of_ne heq] at hset'
          obtain ⟨db, hp', hmem⟩ := h.registered p hset'
          exact ⟨db, hp', List.mem_append_left _ hmem⟩
      · intro p v hmem
        rcases List.mem_append.mp hmem with hold | hnew
        · exact h.listed p v hold
        · obtain ⟨rfl, rfl⟩ := Prod.mk.inj (List.mem_singleton.mp hnew)
          exact ⟨c.db, hp, h.vendor c.db⟩
      · intro db ses st hpg hses hst
        obtain ⟨p, hp', hset, heq⟩ := h.named db ses st hpg hses hst
        exact ⟨p, hp', hmono p hset, heq⟩
    have hframe : Frame src types False c.db s { s with
        bufSet := Function.update s.bufSet c.prep true, allpreps := s.allpreps ++ [(c.prep, (s.conn c.db).dbType)] } :=
      ⟨fun _ _ => rfl, fun _ _ _ _ => Or.inl rfl, hmono⟩
    exact ⟨⟨hinv, hk, hframe, nofun, fun hr => ⟨hr, nofun⟩, rfl, fun hses => hses⟩, Function.update_self _ _ _⟩

theorem Done.after {s₁ : RimDb} (ht : Tried src types db s s₁ none) (hd : Done src types r db s₁ s' e) :
    Done src types r db s s' e := by
  refine ⟨hd.inv, hd.kept, (ht.frame.mono False.elim).trans hd.frame, hd.known, fun hr => hd.ready (ht.ready hr).1, ?_⟩
  intro hready hr p db' hne hp htypes hbuf
  exact hd.null (ht.ready hready).1 hr p db' hne hp htypes (ht.frame.bufSet p hbuf)

theorem setTransaction_tried (h : Inv src types s) (hk : Kept src types s db) (b : Bool) :
    Inv src types (s.setTransaction db b) ∧ Kept src types (s.setTransaction db b) db ∧
      (ReadyAt src types s db → ReadyAt src types (s.setTransaction db b) db) :=
  ⟨h.setConn_same rfl rfl, hk.setConn_same rfl, fun hr => hr.setConn_same fun _ hses _ => hses⟩

theorem Done.setTransaction (hd : Done src types r db s s' e) (b : Bool) :
    Done src types r db s (s'.setTransaction db b) e := by
  obtain ⟨hinv, hkept, hready⟩ := setTransaction_tried hd.inv hd.kept b
  exact ⟨hinv, hkept, hd.frame.trans (setConn_frame s' db _), hd.known, fun hr => (hd.ready hr).imp_left hready, hd.null⟩

theorem rimCommit_done (h : Inv src types s) (hk : Kept src types s c.db) :
    Done src types (DbCall.connects s { c with isPrep := false } false = true) c.db s (s.rimCommit c).1 (s.rimCommit c).2 := by
  obtain ⟨hinv, hkept, hready⟩ := setTransaction_tried h hk false
  have hdone := rimExecuteSQL_done (c := { c with isPrep := false }) hinv hkept nofun
  have hconnects : DbCall.connects (s.setTransaction c.db false) { c with isPrep := false }
      ((s.setTransaction c.db false).conn c.db).isBeginTransaction = DbCall.connects s { c with isPrep := false } false := by
    unfold DbCall.connects DbCall.loses session setTransaction
    rw [setConn_self]
    rfl
  rw [hconnects] at hdone
  exact ⟨hdone.inv, hdone.kept, (setConn_frame s c.db _).trans hdone.frame, hdone.known, fun hr => hdone.ready (hready hr),
    fun hr => hdone.null (hready hr)⟩

theorem rimBeginTransaction_done (h : Inv src types s) (hk : Kept src types s c.db) :
    Done src types (DbCall.connects s { c with isPrep := false } (s.conn c.db).isBeginTransaction = true) c.db s
      (s.rimBeginTransaction c).1 (s.rimBeginTransaction c).2 := by
  have hdone := rimExecuteSQL_done (c := { c with isPrep := false }) h hk nofun
  unfold rimBeginTransaction
  cases hx : s.rimExecuteSQL { c with isPrep := false } with
  | mk s₁ e =>
    rw [hx] at hdone
    cases e with
    | none => exact hdone.setTransaction true
    | some err =>
      cases err with
      | connect => exact hdone
      | _ =>
        simp only
        split
        · exact hdone
        · exact hdone.setTransaction false

/-- What every operation of a program leaves. -/
theorem perform_done (h : Inv src types s) (hk : ∀ db, Kept src types s db) {op : DbOp} (hl : op.Legal src) :
    Done src types (op.connects s = true) op.db s (s.perform op).1 (s.perform op).2 := by
  cases op with
  | query c =>
    have hperform : s.perform (.query c) = (if c.isPrep then s.rimDbPrep c.db c.prep else s).rimExecuteSQL c := rfl
    rw [hperform]
    cases hprep : c.isPrep with
    | false =>
      have hc : Known src s c := fun hyes => by rw [hprep] at hyes; cases hyes
      exact rimExecuteSQL_done h (hk c.db) hc
    | true =>
      have hp : src c.prep = some c.db := hl hprep
      obtain ⟨htried, hbuf⟩ := rimDbPrep_tried h (hk c.db) hp
      have hdone := rimExecuteSQL_done htried.inv htried.kept fun _ => ⟨hp, hbuf⟩
      have hconnects : c.connects (s.rimDbPrep c.db c.prep) ((s.rimDbPrep c.db c.prep).conn c.db).isBeginTransaction =
          c.connects s (s.conn c.db).isBeginTransaction := by
        unfold rimDbPrep
        split <;> rfl
      rw [hconnects] at hdone
      exact hdone.after htried
  | beginTransaction c => exact rimBeginTransaction_done h (hk c.db)
  | commit c => exact rimCommit_done h (hk c.db)
  | rollback c => exact rimCommit_done h (hk c.db)
  | escape db answer =>
    have hperform : s.perform (.escape db answer) =
        ((s.rimGetDbConnection db answer).1, if (s.rimGetDbConnection db answer).2 then none else some .connect) := rfl
    have hconnects : DbOp.connects s (.escape db answer) =
        ((s.conn db).dbc.isNone && !((s.conn db).hasConnected && (s.conn db).isBeginTransaction)) := rfl
    rw [hperform, hconnects]
    obtain ⟨hsome, heq⟩ | ⟨hnone, htx, heq⟩ | ⟨hnone, htx, hconn, -⟩ := rimGetDbConnection_cases h db answer
    · rw [heq]
      refine Tried.done (.refl h (hk db) nofun nofun) ?_
      rw [Option.isSome_iff_exists] at hsome
      obtain ⟨ses, hses⟩ := hsome
      rw [hses]
      simp
    · rw [heq]
      refine Tried.done (.refl h (hk db) nofun nofun) ?_
      rw [htx, Bool.not_true, Bool.and_false]
      exact Bool.false_ne_true
    · have hyes : ((s.conn db).dbc.isNone && !((s.conn db).hasConnected && (s.conn db).isBeginTransaction)) = true := by
        rw [hnone, htx]
        rfl
      cases hq : s.rimGetDbConnection db answer with
      | mk s₁ connected =>
        rw [hq] at hconn
        cases connected with
        | false => exact hconn.failed hyes
        | true =>
          have hsame : Tried src types db s₁ s₁ none := .refl hconn.inv hconn.kept nofun nofun
          exact hconn.done (hsame.done not_false) hyes
  | lose db =>
    have hlost := lose_tried h (hk db)
    exact hlost.done Bool.false_ne_true

/-! ## Sound states -/

structure Reached (src : UInt64 → Option Nat) (types : Nat → DbVendor) (s : RimDb) : Prop where
  inv : Inv src types s
  kept : ∀ db, Kept src types s db

theorem init_reached (src : UInt64 → Option Nat) (types : Nat → DbVendor) : Reached src types (init types) := by
  refine ⟨⟨fun _ => rfl, nofun, nofun, nofun, nofun⟩, ?_⟩
  intro db p st _ hst
  cases hst

theorem Reached.step {ev : DbOp × Option DbError} (h : Reached src types s) (hs : Step src s ev s') :
    Reached src types s' := by
  have hdone := perform_done h.inv h.kept hs.1
  rw [hs.2] at hdone
  refine ⟨hdone.inv, ?_⟩
  intro db
  by_cases heq : db = ev.1.db
  · rw [heq]
    exact hdone.kept
  · exact (h.kept db).frame hdone.frame heq

theorem init_readyAt (src : UInt64 → Option Nat) (types : Nat → DbVendor) (db : Nat) : ReadyAt src types (init types) db := by
  intro _ ses p hses
  cases hses

/-- A variable that is `NULL`, with its name on the session. -/
theorem query_duplicate (hpg : (s.conn db).dbType = .postgres) (hses : (s.conn db).dbc = some ses)
    (halive : ses.alive = true) (hnull : s.prep p = none) (hmem : .name (rimPgStmt p) ∈ ses.stmts) :
    (s.perform (.query { db := db, prep := p, isPrep := true })).2 = some .duplicate := by
  have hreg : (s.rimDbPrep db p).conn = s.conn ∧ (s.rimDbPrep db p).prep = s.prep := by
    unfold rimDbPrep
    split <;> exact ⟨rfl, rfl⟩
  have hperform : s.perform (.query { db := db, prep := p, isPrep := true }) =
      (s.rimDbPrep db p).rimExecuteSQL { db := db, prep := p, isPrep := true } := rfl
  rw [hperform]
  generalize s.rimDbPrep db p = s₁ at hreg
  rw [← hreg.1] at hpg hses
  rw [← hreg.2] at hnull
  have hprep : s₁.rimPrepStmt { db := db, prep := p, isPrep := true } = (s₁, .error .duplicate) := by
    unfold rimPrepStmt newStmt
    simp [hnull, session_eq hses, halive, hpg, hmem]
  have hexec : s₁.rimExec { db := db, prep := p, isPrep := true } false = (s₁, some .duplicate) := by
    unfold rimExec
    simp [hprep]
  unfold rimExecuteSQL rimGetDbConnection execConnected connlost
  simp [hses, hexec, session_eq hses, halive]

/-- The states in which nothing fails are those in which each session is in order. -/
theorem sound_iff (h : Reached src types s) : Sound src s ↔ ∀ db, ReadyAt src types s db := by
  constructor
  · intro hsound db hpg ses p hses halive hp hmem
    by_contra hnull
    rw [Bool.not_eq_true, Option.isSome_eq_false_iff, Option.isNone_iff_eq_none] at hnull
    have hfails := query_duplicate ((h.inv.vendor db).trans hpg) hses halive hnull hmem
    exact (hsound (.query { db := db, prep := p, isPrep := true }) fun _ => hp).2 hfails
  · intro hready op hl
    have hdone := perform_done h.inv h.kept hl
    exact ⟨hdone.known, (hdone.ready (hready op.db)).2⟩

/-- A step keeps the sessions in order if and only if it meets the condition. -/
theorem step_ready {op : DbOp} (h : Reached src types s) (hready : ∀ db, ReadyAt src types s db) (hl : op.Legal src) :
    (∀ db, ReadyAt src types (s.perform op).1 db) ↔ op.Guard s := by
  have hdone := perform_done h.inv h.kept hl
  constructor
  · intro hafter hconn hpg db hne hpg' ses hses halive
    rw [h.inv.vendor] at hpg hpg'
    apply List.eq_nil_iff_forall_not_mem.mpr
    intro st hst
    obtain ⟨p, hp, hbuf, rfl⟩ := h.inv.named db ses st hpg' hses hst
    have hnull := hdone.null (hready op.db) hconn p db hne hp (hpg'.trans hpg.symm) hbuf
    have hsome := hafter db hpg' ses p ((congrArg DbConn.dbc (hdone.frame.conn db hne)).trans hses) halive hp hst
    rw [hnull] at hsome
    cases hsome
  · intro hguard db
    by_cases heq : db = op.db
    · rw [heq]
      exact (hdone.ready (hready op.db)).1
    · intro hpg ses p hses halive hp hmem
      rw [hdone.frame.conn db heq] at hses
      obtain hsame | ⟨hconn, htypes, -⟩ := hdone.frame.prep p db hp heq
      · rw [hsame]
        exact hready db hpg ses p hses halive hp hmem
      · have hempty := hguard hconn ((h.inv.vendor op.db).trans (htypes.symm.trans hpg)) db heq ((h.inv.vendor db).trans hpg)
          ses hses halive
        rw [hempty] at hmem
        cases hmem

/-! ## Runs -/

/-- In every run that makes no connection of PostgreSQL while there are statements on another
one, no execution fails because of a statement that was kept or was not, and none does so
next. Where none does so next, this remains if and only if the next step is such a one. -/
theorem run_sound {evs : List (DbOp × Option DbError)} (hrun : Run (Step src) (init types) evs s) :
    (GuardedRun (Step src) (fun s ev => ev.1.Guard s) (init types) evs s →
      (∀ ev ∈ evs, ev.2 ≠ some .unknown ∧ ev.2 ≠ some .duplicate) ∧ Sound src s) ∧
    (Sound src s → ∀ op : DbOp, op.Legal src → (Sound src (s.perform op).1 ↔ op.Guard s)) := by
  have hreached : Reached src types s := hrun.invariant (fun h _ hs => h.step hs) (init_reached src types)
  constructor
  · intro hguarded
    have hall : (Reached src types s ∧ ∀ db, ReadyAt src types s db) ∧
        ∀ ev ∈ evs, ev.2 ≠ some .unknown ∧ ev.2 ≠ some .duplicate := by
      refine hguarded.history
        (P := fun s evs => (Reached src types s ∧ ∀ db, ReadyAt src types s db) ∧
          ∀ ev ∈ evs, ev.2 ≠ some .unknown ∧ ev.2 ≠ some .duplicate) ?_ ⟨⟨init_reached src types, init_readyAt src types⟩, fun ev h => absurd h List.not_mem_nil⟩
      intro s₁ s₂ ev evs' hs hguard hstep
      obtain ⟨⟨hr, hready⟩, hevs⟩ := hs
      have hsound := (sound_iff hr).mpr hready ev.1 hstep.1
      have hnext := (step_ready hr hready hstep.1).mpr hguard
      rw [hstep.2] at hsound hnext
      refine ⟨⟨hr.step hstep, hnext⟩, ?_⟩
      intro ev' hmem
      rcases List.mem_append.mp hmem with hold | hnew
      · exact hevs ev' hold
      · rw [List.mem_singleton.mp hnew]
        exact hsound
    exact ⟨hall.2, (sound_iff hreached).mpr hall.1.2⟩
  · intro hsound op hl
    have hstep : Step src s (op, (s.perform op).2) (s.perform op).1 := ⟨hl, rfl⟩
    have hnext := hreached.step hstep
    rw [sound_iff hnext]
    exact step_ready hreached ((sound_iff hreached).mp hsound) hl

/-- Two databases are connected, and then a statement is executed on each, on one of them
again. -/
theorem run_sound_two : ∃ s, Sound (fun p => if p = 1 then some 0 else some 1) s ∧
    ∀ ev ∈ [((.escape 0 .connected : DbOp), (none : Option DbError)), (.escape 1 .connected, none),
      (.query { db := 0, prep := 1, isPrep := true }, none), (.query { db := 1, prep := 2, isPrep := true }, none),
      (.query { db := 0, prep := 1, isPrep := true }, none)], ev.2 ≠ some .unknown ∧ ev.2 ≠ some .duplicate := by
  have hlast : ∃ s, GuardedRun (Step fun p => if p = 1 then some 0 else some 1) (fun s ev => ev.1.Guard s)
      (init fun _ => .postgres)
      [((.escape 0 .connected : DbOp), (none : Option DbError)), (.escape 1 .connected, none),
        (.query { db := 0, prep := 1, isPrep := true }, none), (.query { db := 1, prep := 2, isPrep := true }, none),
        (.query { db := 0, prep := 1, isPrep := true }, none)] s := by
    refine ⟨_, .cons ?_ ⟨trivial, rfl⟩ (.cons ?_ ⟨trivial, rfl⟩ (.cons ?_ ⟨fun _ => rfl, rfl⟩
      (.cons ?_ ⟨fun _ => rfl, rfl⟩ (.cons ?_ ⟨fun _ => rfl, rfl⟩ (.nil _)))))⟩
    · intro _ _ db _ _ ses hses _
      cases hses
    · intro _ _ db _ _ ses hses _
      by_cases heq : db = 0
      · subst heq
        cases hses
        rfl
      · have hstart := init_reached (fun p => if p = 1 then some 0 else some 1) fun _ => .postgres
        have hdone := perform_done hstart.inv hstart.kept (show DbOp.Legal _ (.escape 0 .connected) from trivial)
        cases (congrArg DbConn.dbc (hdone.frame.conn db heq)).symm.trans hses
    · intro hconn
      cases hconn
    · intro hconn
      cases hconn
    · intro hconn
      cases hconn
  obtain ⟨s, hguarded⟩ := hlast
  obtain ⟨hall, hsound⟩ := (run_sound (hguarded.mono fun _ _ _ => trivial)).1 hguarded
  exact ⟨s, hsound, hall⟩

/-- A statement is executed on one database of PostgreSQL, another one is connected, and the
statement is executed again. -/
theorem run_not_sound : ¬ ∀ (src : UInt64 → Option Nat) (types : Nat → DbVendor) (evs : List (DbOp × Option DbError))
    (s : RimDb), Run (Step src) (init types) evs s → ∀ ev ∈ evs, ev.2 ≠ some .unknown ∧ ev.2 ≠ some .duplicate := by
  intro h
  have hlast : ∃ s, Run (Step fun _ => some 0) (init fun _ => .postgres)
      [(.query { db := 0, prep := 1, isPrep := true }, none), (.escape 1 .connected, none),
        (.query { db := 0, prep := 1, isPrep := true }, some .duplicate)] s :=
    ⟨_, .cons trivial ⟨fun _ => rfl, rfl⟩ (.cons trivial ⟨trivial, rfl⟩ (.cons trivial ⟨fun _ => rfl, rfl⟩ (.nil _)))⟩
  obtain ⟨s, hrun⟩ := hlast
  have hgood := h _ _ _ s hrun _ (List.mem_cons_of_mem _ (List.mem_cons_of_mem _ (List.mem_singleton_self _)))
  exact hgood.2 rfl

end RimDb

end RimStone
