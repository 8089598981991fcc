import Mathlib.Data.List.Basic
import RimStone.Database.Lite
import RimStone.Lib.Run

/-!
# A query of SQLite on its own

Each statement that a program keeps is one that was prepared from its text (`Inv`), after
every call, whether it failed or not. So what a call reports is decided by what the state
holds of two things: whether the statement was left stepped, and how many columns were
counted last.
-/

namespace RimStone

open RimStone.Lib

namespace RimLite

variable {compile : Nat → Bytes → Option LiteInfo} {src : Nat → Option (Nat × Bytes)} {s s' : RimLite}
  {c : LiteCall} {info : LiteInfo} {id db : Nat}

/-- What a program keeps was prepared from its text. -/
def Inv (compile : Nat → Bytes → Option LiteInfo) (src : Nat → Option (Nat × Bytes)) (s : RimLite) : Prop :=
  ∀ h db text, src h = some (db, text) → ∀ id, s.prep h = some id →
    id < s.next ∧ ∃ st, s.stmts id = some st ∧ compile db text = some st.info

def Unkept (src : Nat → Option (Nat × Bytes)) (s : RimLite) (id : Nat) : Prop :=
  ∀ h db text, src h = some (db, text) → s.prep h ≠ some id

theorem init_inv : Inv compile src {} := by
  intro h db text _ id hid
  cases hid

theorem Inv.congr (h : Inv compile src s) (hprep : s'.prep = s.prep) (hstmts : s'.stmts = s.stmts)
    (hnext : s'.next = s.next) : Inv compile src s' := by
  intro k db text hk id hid
  rw [hnext, hstmts]
  exact h k db text hk id (hprep ▸ hid)

theorem Inv.setStepped (h : Inv compile src s) (db : Nat) (b : Bool) : Inv compile src (s.setStepped db b) := by
  unfold RimLite.setStepped
  cases hstmt : s.stmt db with
  | none => exact h
  | some id' =>
    intro k db text hk id hid
    obtain ⟨hlt, st, hst, hinfo⟩ := h k db text hk id hid
    refine ⟨hlt, ?_⟩
    by_cases heq : id = id'
    · subst heq
      refine ⟨{ st with stepped := b }, ?_, hinfo⟩
      show Function.update s.stmts id _ id = _
      rw [Function.update_self, hst]
      rfl
    · refine ⟨st, ?_, hinfo⟩
      show Function.update s.stmts id' _ id = _
      rw [Function.update_of_ne heq, hst]

theorem Inv.free (h : Inv compile src s) (hun : ∀ id, s.stmt db = some id → Unkept src s id) :
    Inv compile src (s.rimLiteFree db false) := by
  unfold rimLiteFree
  cases hstmt : s.stmt db with
  | none => exact h
  | some id' =>
    intro k db text hk id hid
    obtain ⟨hlt, st, hst, hinfo⟩ := h k db text hk id hid
    have hne : id ≠ id' := by
      rintro rfl
      exact hun id hstmt k db text hk hid
    refine ⟨hlt, st, ?_, hinfo⟩
    show Function.update s.stmts id' none id = _
    rw [Function.update_of_ne hne, hst]

@[simp] theorem setStepped_stmt (s : RimLite) (db : Nat) (b : Bool) : (s.setStepped db b).stmt = s.stmt := by
  unfold setStepped
  split <;> rfl

@[simp] theorem setStepped_prep (s : RimLite) (db : Nat) (b : Bool) : (s.setStepped db b).prep = s.prep := by
  unfold setStepped
  split <;> rfl

theorem current_eq {st : LiteStmt} (hstmt : s.stmt db = some id) (hst : s.stmts id = some st) :
    s.current db = some st := by
  unfold current
  rw [hstmt]
  exact hst

/-! ## The rows -/

theorem rowLoop_rest (count : Nat) (s : RimLite) (rows : List (List (Option Bytes))) :
    rowLoop count s true rows = { s with
      qrows := s.qrows.map (· ++ rows.flatMap (cells s.qnumfields))
      qlens := s.qlens.map (· ++ (rows.flatMap (cells s.qnumfields)).map List.length)
      qnumrows := s.qnumrows + rows.length } := by
  induction rows generalizing s with
  | nil =>
    cases s with
    | mk n f r c rows lens stmt prep stmts next => cases rows <;> cases lens <;> simp [rowLoop]
  | cons row rows ih =>
    rw [rowLoop, ih]
    cases s with
    | mk n f r c rs lens stmt prep stmts next =>
      cases rs <;> cases lens <;> simp [Nat.add_comm, Nat.add_left_comm]

/-- The columns are counted if there is a row. -/
theorem rowLoop_first (count : Nat) (s : RimLite) {rows : List (List (Option Bytes))} (hrows : rows ≠ []) :
    rowLoop count s false rows = { s with
      qnumfields := count
      qrows := some (rows.flatMap (cells count))
      qlens := some ((rows.flatMap (cells count)).map List.length)
      qnumrows := s.qnumrows + rows.length } := by
  cases rows with
  | nil => exact absurd rfl hrows
  | cons row rows =>
    rw [rowLoop, rowLoop_rest]
    simp [Nat.add_comm, Nat.add_left_comm]

/-! ## The statement -/

def left (s : RimLite) (c : LiteCall) : Bool :=
  ((if c.isPrep then s.prep c.prep else none).bind s.stmts).any (·.stepped)

/-- After `rim_lite_prep_stmt` the statement of a call is current, and new if it was not
kept. -/
structure Prepared (compile : Nat → Bytes → Option LiteInfo) (src : Nat → Option (Nat × Bytes)) (s : RimLite)
    (c : LiteCall) (info : LiteInfo) (s' : RimLite) (id : Nat) : Prop where
  inv : Inv compile src s'
  stmt : s'.stmt c.db = some id
  stmts : s'.stmts id = some { info, stepped := s.left c }
  unkept : c.isPrep = false → Unkept src s' id
  fields : s'.qnumfields = s.qnumfields

theorem rimLitePrepStmt_none (hinv : Inv compile src s) (hl : c.Legal src) (hc : compile c.db c.text = none) :
    s.rimLitePrepStmt compile c = ({ s with stmt := Function.update s.stmt c.db none }, true) := by
  have hkept : (if c.isPrep then s.prep c.prep else none) = none := by
    cases hprep : c.isPrep with
    | false => rfl
    | true =>
      rw [if_pos rfl]
      cases hid : s.prep c.prep with
      | none => rfl
      | some id =>
        unfold LiteCall.Legal at hl
        cases hsrc : src c.prep with
        | none =>
          rw [hsrc, hprep] at hl
          cases hl
        | some t =>
          rw [hsrc] at hl
          obtain ⟨-, hdb, htext⟩ := hl
          obtain ⟨-, st, -, hinfo⟩ := hinv c.prep t.1 t.2 hsrc id hid
          rw [← hdb, ← htext, hc] at hinfo
          cases hinfo
  unfold rimLitePrepStmt
  rw [hkept, hc]
  rfl

theorem rimLitePrepStmt_some (hinv : Inv compile src s) (hl : c.Legal src) (hc : compile c.db c.text = some info) :
    ∃ s' id, s.rimLitePrepStmt compile c = (s', decide (info.params ≠ c.params.length)) ∧
      Prepared compile src s c info s' id := by
  unfold rimLitePrepStmt
  cases hkept : (if c.isPrep then s.prep c.prep else none) with
  | some id =>
    have hprep : c.isPrep = true := by
      by_contra hnot
      rw [if_neg hnot] at hkept
      cases hkept
    rw [if_pos hprep] at hkept
    unfold LiteCall.Legal at hl
    cases hsrc : src c.prep with
    | none =>
      rw [hsrc, hprep] at hl
      cases hl
    | some t =>
      rw [hsrc] at hl
      obtain ⟨-, hdb, htext⟩ := hl
      obtain ⟨hlt, st, hst, hinfo⟩ := hinv c.prep t.1 t.2 hsrc id hkept
      rw [← hdb, ← htext, hc] at hinfo
      have hleft : s.left c = st.stepped := by
        unfold left
        rw [if_pos hprep, hkept]
        show (s.stmts id).any _ = _
        rw [hst]
        rfl
      have hp : Prepared compile src s c info { s with stmt := Function.update s.stmt c.db (some id) } id := by
        refine ⟨hinv.congr rfl rfl rfl, Function.update_self _ _ _, ?_, ?_, rfl⟩
        · show s.stmts id = _
          rw [hst, hleft, Option.some.inj hinfo]
        · intro hnot
          rw [hprep] at hnot
          cases hnot
      refine ⟨_, id, ?_, hp⟩
      simp [current_eq hp.stmt hp.stmts]
  | none =>
    have hleft : s.left c = false := by
      unfold left
      rw [hkept]
      rfl
    have hp : Prepared compile src s c info
        { s with
          stmt := Function.update s.stmt c.db (some s.next)
          prep := Function.update s.prep c.prep (some s.next)
          stmts := Function.update s.stmts s.next (some { info })
          next := s.next + 1 } s.next := by
      refine ⟨?_, Function.update_self _ _ _, ?_, ?_, rfl⟩
      · intro k db text hk id hid
        by_cases heq : k = c.prep
        · subst heq
          have hid' : Function.update s.prep c.prep (some s.next) c.prep = some id := hid
          rw [Function.update_self] at hid'
          obtain rfl := Option.some.inj hid'
          refine ⟨Nat.lt_succ_self _, { info }, Function.update_self _ _ _, ?_⟩
          unfold LiteCall.Legal at hl
          rw [hk] at hl
          obtain ⟨-, hdb, htext⟩ := hl
          rw [← hdb, ← htext, hc]
        · have hid' : Function.update s.prep c.prep (some s.next) k = some id := hid
          rw [Function.update_of_ne heq] at hid'
          obtain ⟨hlt, st, hst, hinfo⟩ := hinv k db text hk id hid'
          refine ⟨Nat.lt_succ_of_lt hlt, st, ?_, hinfo⟩
          show Function.update s.stmts s.next _ id = _
          rw [Function.update_of_ne (Nat.ne_of_lt hlt), hst]
      · show Function.update s.stmts s.next _ s.next = _
        rw [Function.update_self, hleft]
      · intro hplain k db text hk hid
        have hne : k ≠ c.prep := by
          rintro rfl
          unfold LiteCall.Legal at hl
          rw [hk, hplain] at hl
          cases hl.1
        have hid' : Function.update s.prep c.prep (some s.next) k = some s.next := hid
        rw [Function.update_of_ne hne] at hid'
        exact absurd (hinv k db text hk _ hid').1 (Nat.lt_irrefl _)
    refine ⟨_, s.next, ?_, hp⟩
    rw [hc]
    simp [current_eq hp.stmt hp.stmts]

/-! ## What every call keeps -/

/-- What a program keeps was prepared from its text, and what a call frees is not kept. -/
structure Freeable (compile : Nat → Bytes → Option LiteInfo) (src : Nat → Option (Nat × Bytes)) (s : RimLite)
    (c : LiteCall) : Prop where
  inv : Inv compile src s
  unkept : c.isPrep = false → ∀ id, s.stmt c.db = some id → Unkept src s id

theorem Freeable.congr (h : Freeable compile src s c) (hstmt : s'.stmt = s.stmt) (hprep : s'.prep = s.prep)
    (hstmts : s'.stmts = s.stmts) (hnext : s'.next = s.next) : Freeable compile src s' c := by
  refine ⟨h.inv.congr hprep hstmts hnext, ?_⟩
  intro hplain id hid k db text hk
  rw [hprep]
  exact h.unkept hplain id (hstmt ▸ hid) k db text hk

theorem Freeable.setStepped (h : Freeable compile src s c) (db : Nat) (b : Bool) :
    Freeable compile src (s.setStepped db b) c := by
  refine ⟨h.inv.setStepped db b, ?_⟩
  intro hplain id hid k db' text hk
  rw [setStepped_prep]
  exact h.unkept hplain id (setStepped_stmt s db b ▸ hid) k db' text hk

theorem Freeable.free (h : Freeable compile src s c) : Inv compile src (s.rimLiteFree c.db c.isPrep) := by
  cases hprep : c.isPrep with
  | true => exact h.inv
  | false => exact h.inv.free (h.unkept hprep)

theorem Prepared.freeable (h : Prepared compile src s c info s' id) : Freeable compile src s' c := by
  refine ⟨h.inv, ?_⟩
  intro hplain id' hid'
  rw [h.stmt] at hid'
  obtain rfl := Option.some.inj hid'
  exact h.unkept hplain

/-- Gathering rows leaves the statements alone. -/
theorem rowLoop_frame (count : Nat) (s : RimLite) (firstr : Bool) (rows : List (List (Option Bytes))) :
    (rowLoop count s firstr rows).stmt = s.stmt ∧ (rowLoop count s firstr rows).prep = s.prep ∧
      (rowLoop count s firstr rows).stmts = s.stmts ∧ (rowLoop count s firstr rows).next = s.next := by
  cases firstr with
  | true =>
    rw [rowLoop_rest]
    exact ⟨rfl, rfl, rfl, rfl⟩
  | false =>
    cases rows with
    | nil => exact ⟨rfl, rfl, rfl, rfl⟩
    | cons row rows =>
      rw [rowLoop_first count s (List.cons_ne_nil _ _)]
      exact ⟨rfl, rfl, rfl, rfl⟩

theorem Freeable.getData (h : Freeable compile src s c) : Freeable compile src (s.rimLiteGetData c).1 c := by
  unfold rimLiteGetData
  obtain ⟨hstmt, hprep, hstmts, hnext⟩ := rowLoop_frame (((s.current c.db).map (·.info.columns.length)).getD 0)
    { s with qrows := none, qlens := none, qnumrows := 0 } false c.rows
  have hrows := (h.congr hstmt hprep hstmts hnext).setStepped c.db true
  split
  · exact hrows.congr rfl rfl rfl rfl
  · exact hrows.congr rfl rfl rfl rfl

theorem rimLitePrepStmt_freeable (hinv : Inv compile src s) (hl : c.Legal src) :
    Freeable compile src (s.rimLitePrepStmt compile c).1 c := by
  cases hc : compile c.db c.text with
  | none =>
    rw [rimLitePrepStmt_none hinv hl hc]
    refine ⟨hinv.congr rfl rfl rfl, ?_⟩
    intro _ id hid
    have hid' : Function.update s.stmt c.db none c.db = some id := hid
    rw [Function.update_self] at hid'
    cases hid'
  | some info =>
    obtain ⟨s', id, heq, hp⟩ := rimLitePrepStmt_some hinv hl hc
    rw [heq]
    exact hp.freeable

theorem rimLiteExec_freeable (hinv : Inv compile src s) (hl : c.Legal src) :
    Freeable compile src (s.rimLiteExec compile c).1 c := by
  have hprep := rimLitePrepStmt_freeable hinv hl
  unfold rimLiteExec
  cases hp : s.rimLitePrepStmt compile c with
  | mk s₁ failed =>
    rw [hp] at hprep
    cases failed with
    | true => exact hprep
    | false =>
      have hget := hprep.getData
      simp only [Bool.false_eq_true, if_false]
      split
      · exact hprep
      · cases hg : s₁.rimLiteGetData c with
        | mk s₂ failed =>
          rw [hg] at hget
          cases failed with
          | true => exact hget
          | false => exact Freeable.setStepped (s := { s₂ with qrownow := 0 }) (hget.congr rfl rfl rfl rfl) c.db false

/-! ## What a program asks for -/

theorem fieldnames_eq (db n : Nat) (s : RimLite) :
    fieldnames db n s = ((List.range n).map fun i => (s.current db).bind (·.info.columns[s.qcolid + i]?),
      { s with qcolid := s.qcolid + n }) := by
  induction n generalizing s with
  | zero => rfl
  | succ n ih =>
    rw [fieldnames]
    simp only [rimLiteFieldname]
    rw [ih, List.range_succ_eq_map]
    simp [current, Nat.add_assoc, Nat.add_comm 1]

/-- Only which row comes next is different afterwards. -/
theorem fetchRows_state (n : Nat) (s : RimLite) : ∃ k, (fetchRows n s).2 = { s with qrownow := k } := by
  induction n generalizing s with
  | zero => exact ⟨s.qrownow, rfl⟩
  | succ n ih =>
    rw [fetchRows]
    obtain ⟨k, hk⟩ := ih s.rimLiteRows.2
    refine ⟨k, hk.trans ?_⟩
    unfold rimLiteRows
    split <;> rfl

theorem length_cells (n : Nat) (row : List (Option Bytes)) : (cells n row).length = n := by
  simp [cells]

theorem length_gathered (n : Nat) (rows : List (List (Option Bytes))) :
    (rows.flatMap (cells n)).length = n * rows.length := by
  induction rows with
  | nil => simp
  | cons row rows ih => rw [List.flatMap_cons, List.length_append, length_cells, ih, List.length_cons, Nat.mul_succ, Nat.add_comm]

/-- A row that was gathered comes back. -/
theorem rimLiteRows_gathered (seen rows : List (List (Option Bytes))) (row : List (Option Bytes))
    (hrows : s.qrows = some ((seen ++ row :: rows).flatMap (cells s.qnumfields)))
    (hlens : s.qlens = some (((seen ++ row :: rows).flatMap (cells s.qnumfields)).map List.length))
    (hnow : s.qrownow = seen.length) :
    s.rimLiteRows =
      (some ((cells s.qnumfields row).map fun v => (v, v.length)), { s with qrownow := s.qrownow + 1 }) := by
  have hlen := length_gathered s.qnumfields seen
  have hrow := length_cells s.qnumfields row
  have hlens' : ((seen.flatMap (cells s.qnumfields)).map List.length).length = s.qnumfields * seen.length := by
    rw [List.length_map, hlen]
  unfold rimLiteRows
  rw [hrows, hlens, hnow, List.map_prod_left_eq_zip]
  simp only [List.flatMap_append, List.flatMap_cons, List.map_append]
  rw [List.drop_left' hlen, List.take_left' hrow, List.drop_left' hlens',
    List.take_left' ((List.length_map _).trans hrow)]

/-- The rows that were gathered come back one after the other. -/
theorem fetchRows_gathered (seen rows : List (List (Option Bytes)))
    (hrows : s.qrows = some ((seen ++ rows).flatMap (cells s.qnumfields)))
    (hlens : s.qlens = some (((seen ++ rows).flatMap (cells s.qnumfields)).map List.length))
    (hnow : s.qrownow = seen.length) :
    (fetchRows rows.length s).1 = rows.map fun row => some ((cells s.qnumfields row).map fun v => (v, v.length)) := by
  induction rows generalizing s seen with
  | nil => rfl
  | cons row rows ih =>
    have hfetch := rimLiteRows_gathered seen rows row hrows hlens hnow
    rw [List.length_cons, fetchRows, hfetch, List.map_cons]
    have hrest := ih (s := { s with qrownow := s.qrownow + 1 }) (seen ++ [row]) (by simpa using hrows) (by simpa using hlens)
      (by simp [hnow])
    exact congrArg _ hrest

/-- The variables after an execution, which counted `width` columns. -/
structure Gathered (s : RimLite) (c : LiteCall) (info : LiteInfo) (width : Nat) : Prop where
  fields : s.qnumfields = width
  nrows : s.qnumrows = c.rows.length
  qrows : c.rows ≠ [] → s.qrows = some (c.rows.flatMap (cells width))
  qlens : c.rows ≠ [] → s.qlens = some ((c.rows.flatMap (cells width)).map List.length)
  qcolid : s.qcolid = 0
  qrownow : s.qrownow = 0
  current : (s.current c.db).map (·.info) = some info

/-- What is reported of rows with a number of columns. -/
def reported (c : LiteCall) (info : LiteInfo) (width : Nat) : LiteReport where
  nfield := width
  names := (List.range width).map (info.columns[·]?)
  nrows := c.rows.length
  rows := c.rows.map fun row => some ((cells width row).map fun v => (v, v.length))

theorem Gathered.report {width : Nat} (h : Gathered s c info width) : s.report c.db = reported c info width := by
  have hcols : ∀ i, (s.current c.db).bind (·.info.columns[s.qcolid + i]?) = info.columns[i]? := by
    intro i
    obtain ⟨st, hst, hinfo⟩ := Option.map_eq_some_iff.mp h.current
    rw [hst, h.qcolid, Nat.zero_add, ← hinfo]
    rfl
  have hrows : (fetchRows c.rows.length s).1 = c.rows.map fun row => some ((cells width row).map fun v => (v, v.length)) := by
    by_cases hempty : c.rows = []
    · rw [hempty]
      rfl
    · have hfetch := fetchRows_gathered (s := s) [] c.rows (h.fields ▸ h.qrows hempty) (h.fields ▸ h.qlens hempty) h.qrownow
      rw [h.fields] at hfetch
      exact hfetch
  unfold RimLite.report reported rimLiteNfield rimLiteNrows
  rw [fieldnames_eq, h.fields, h.nrows, hrows]
  simp only [hcols]

/-- As many columns are counted as the statement has, if there is a row to count them in. -/
def width (s : RimLite) (c : LiteCall) (info : LiteInfo) : Nat :=
  if c.rows = [] then s.qnumfields else info.columns.length

theorem setStepped_current_info (s : RimLite) (db : Nat) (b : Bool) :
    ((s.setStepped db b).current db).map (·.info) = (s.current db).map (·.info) := by
  unfold setStepped current
  cases hstmt : s.stmt db with
  | none => rw [hstmt]
  | some id =>
    show Option.map _ (Option.bind (s.stmt db) (Function.update s.stmts id _)) = _
    rw [hstmt]
    show Option.map _ (Function.update s.stmts id _ id) = Option.map _ (s.stmts id)
    rw [Function.update_self]
    cases s.stmts id <;> rfl

theorem Gathered.setStepped {width : Nat} (h : Gathered s c info width) (b : Bool) :
    Gathered (s.setStepped c.db b) c info width := by
  have hcur := (setStepped_current_info s c.db b).trans h.current
  unfold RimLite.setStepped at hcur ⊢
  cases hstmt : s.stmt c.db with
  | none => exact h
  | some id =>
    rw [hstmt] at hcur
    exact ⟨h.fields, h.nrows, h.qrows, h.qlens, h.qcolid, h.qrownow, hcur⟩

theorem rowLoop_gathered (hcur : (s.current c.db).map (·.info) = some info) (hnum : s.qnumrows = 0) :
    Gathered { rowLoop info.columns.length s false c.rows with qcolid := 0, qrownow := 0 } c info (s.width c info) := by
  unfold width
  by_cases hempty : c.rows = []
  · rw [if_pos hempty, hempty]
    exact ⟨rfl, by rw [hempty]; exact hnum, fun h => absurd hempty h, fun h => absurd hempty h, rfl, rfl, hcur⟩
  · rw [if_neg hempty, rowLoop_first _ _ hempty]
    exact ⟨rfl, by show s.qnumrows + _ = _; rw [hnum, Nat.zero_add], fun _ => rfl, fun _ => rfl, rfl, rfl, hcur⟩

theorem setStepped_reset (s : RimLite) (db : Nat) (b : Bool) :
    { s.setStepped db b with qcolid := 0, qrownow := 0 } = ({ s with qcolid := 0, qrownow := 0 } : RimLite).setStepped db b := by
  unfold setStepped
  cases s.stmt db <;> rfl

/-- The steps that end in `SQLITE_DONE` give the rows of the call. -/
theorem getData_gathered (hcur : (s.current c.db).map (·.info) = some info) (hdone : c.done = true) :
    ∃ s', s.rimLiteGetData c = (s', false) ∧
      Gathered ({ s' with qrownow := 0 }.setStepped c.db false) c info (s.width c info) := by
  have hcount : ((s.current c.db).map (·.info.columns.length)).getD 0 = info.columns.length := by
    obtain ⟨st, hst, rfl⟩ := Option.map_eq_some_iff.mp hcur
    rw [hst]
    rfl
  unfold rimLiteGetData
  rw [hcount]
  simp only [hdone, if_true]
  refine ⟨_, rfl, ?_⟩
  have hloop := rowLoop_gathered (s := { s with qrows := none, qlens := none, qnumrows := 0 }) hcur rfl
  have hstepped := (hloop.setStepped true).setStepped false
  rw [← setStepped_reset] at hstepped
  exact hstepped

theorem getData_fails (hdone : c.done = false) : (s.rimLiteGetData c).2 = true := by
  unfold rimLiteGetData
  simp [hdone]

/-! ## The answer of a call -/

theorem bindLoop_eq {params : List Bytes} {st : LiteStmt} (hcur : s.current db = some st) :
    s.bindLoop db params = (st.stepped && !params.isEmpty) := by
  cases params with
  | nil => simp [bindLoop]
  | cons arg params =>
    rw [bindLoop, rimLiteAddInput, hcur]
    cases hstepped : st.stepped with
    | true => simp [hstepped]
    | false =>
      rw [Option.any_some, hstepped, if_neg Bool.false_ne_true, Bool.false_and]
      induction params with
      | nil => rfl
      | cons arg params ih =>
        rw [bindLoop, rimLiteAddInput, hcur, Option.any_some, hstepped, if_neg Bool.false_ne_true]
        exact ih

theorem stuck_eq (s : RimLite) (c : LiteCall) : c.stuck s = (s.left c && !c.params.isEmpty) := rfl

/-- What a call answers. -/
theorem perform_answer (hinv : Inv compile src s) (hl : c.Legal src) (hc : compile c.db c.text = some info) :
    (s.perform compile c).2 =
      if info.params = c.params.length ∧ c.done = true ∧ c.stuck s = false then some (reported c info (s.width c info))
      else none := by
  obtain ⟨s₁, id, hprep, hp⟩ := rimLitePrepStmt_some hinv hl hc
  have hcur := current_eq hp.stmt hp.stmts
  unfold perform rimLiteExec
  rw [hprep]
  by_cases hparams : info.params = c.params.length
  · simp only [hparams, ne_eq, not_true_eq_false, decide_false, Bool.false_eq_true, if_false]
    rw [bindLoop_eq hcur, stuck_eq]
    cases hstuck : s.left c && !c.params.isEmpty with
    | true => simp
    | false =>
      cases hdone : c.done with
      | false =>
        have hfail := getData_fails (s := s₁) hdone
        cases hget : s₁.rimLiteGetData c with
        | mk s₂ failed =>
          rw [hget] at hfail
          cases hfail
          simp
      | true =>
        have hinfo : (s₁.current c.db).map (·.info) = some info := by rw [hcur]; rfl
        obtain ⟨s₂, hget, hgathered⟩ := getData_gathered hinfo hdone
        have hreport := hgathered.report
        have hwidth : s₁.width c info = s.width c info := by
          unfold width
          rw [hp.fields]
        rw [hwidth] at hreport
        simp [hget, hreport]
  · have hne : decide (info.params ≠ c.params.length) = true := decide_eq_true hparams
    rw [hne, if_neg (fun h => hparams h.1)]
    simp

theorem perform_fails (hinv : Inv compile src s) (hl : c.Legal src) (hc : compile c.db c.text = none) :
    (s.perform compile c).2 = none := by
  unfold perform rimLiteExec
  rw [rimLitePrepStmt_none hinv hl hc]
  rfl

theorem perform_inv (hinv : Inv compile src s) (hl : c.Legal src) : Inv compile src (s.perform compile c).1 := by
  have hexec := rimLiteExec_freeable hinv hl
  unfold perform
  cases he : s.rimLiteExec compile c with
  | mk s₁ failed =>
    rw [he] at hexec
    cases failed with
    | true => exact hexec.free
    | false =>
      simp only [Bool.false_eq_true, if_false]
      obtain ⟨k, hk⟩ := fetchRows_state c.fetch (fieldnames c.db c.names s₁).2
      rw [hk, fieldnames_eq]
      exact Freeable.free (s := { s₁ with qcolid := s₁.qcolid + c.names, qrownow := k }) (hexec.congr rfl rfl rfl rfl)

theorem reported_width (c : LiteCall) (info : LiteInfo) :
    reported c info info.columns.length = {
      nfield := info.columns.length
      names := info.columns.map some
      nrows := c.rows.length
      rows := c.rows.map fun row => some ((cells info.columns.length row).map fun v => (v, v.length)) } := by
  have hnames : (List.range info.columns.length).map (info.columns[·]?) = info.columns.map some := by
    apply List.ext_getElem?
    intro i
    by_cases hi : i < info.columns.length
    · simp [hi]
    · simp [hi]
  unfold reported
  rw [hnames]

theorem alone_none (hc : compile c.db c.text = none) : c.alone compile = none := by
  unfold LiteCall.alone
  rw [hc]

theorem alone_some (hc : compile c.db c.text = some info) :
    c.alone compile =
      if info.params = c.params.length ∧ c.done = true then some (reported c info info.columns.length) else none := by
  unfold LiteCall.alone
  rw [hc, reported_width]

/-- A call answers as on its own if and only if it meets the condition. -/
theorem perform_alone (hinv : Inv compile src s) (hl : c.Legal src) :
    (s.perform compile c).2 = c.alone compile ↔ c.Guard compile s := by
  unfold LiteCall.Guard
  cases hc : compile c.db c.text with
  | none =>
    rw [perform_fails hinv hl hc, alone_none hc]
    exact ⟨fun _ info heq => absurd heq (Option.some_ne_none info).symm, fun _ => rfl⟩
  | some info =>
    rw [perform_answer hinv hl hc, alone_some hc]
    by_cases hown : info.params = c.params.length ∧ c.done = true
    · rw [if_pos hown]
      obtain ⟨hparams, hdone⟩ := hown
      constructor
      · intro heq info' hinfo' _ _
        obtain rfl := Option.some.inj hinfo'
        have hstuck : c.stuck s = false := by
          by_contra hnot
          rw [if_neg fun h => hnot h.2.2] at heq
          cases heq
        rw [if_pos ⟨hparams, hdone, hstuck⟩] at heq
        refine ⟨hstuck, ?_⟩
        by_cases hempty : c.rows = []
        · have hfields : s.width c info = info.columns.length := congrArg LiteReport.nfield (Option.some.inj heq)
          rw [width, if_pos hempty] at hfields
          exact Or.inr hfields
        · exact Or.inl hempty
      · intro h
        obtain ⟨hstuck, hrows⟩ := h info rfl hparams hdone
        have hwidth : s.width c info = info.columns.length := by
          unfold width
          obtain hrows | hfields := hrows
          · rw [if_neg hrows]
          · rw [hfields, ite_self]
        rw [if_pos ⟨hparams, hdone, hstuck⟩, hwidth]
    · rw [if_neg hown, if_neg fun h => hown ⟨h.1, h.2.1⟩]
      constructor
      · intro _ info' heq hparams hdone
        obtain rfl := Option.some.inj heq
        exact absurd ⟨hparams, hdone⟩ hown
      · exact fun _ => rfl

/-! ## Runs -/

theorem step_inv {ev : LiteCall × Option LiteReport} (hinv : Inv compile src s) (hstep : Step compile src s ev s') :
    Inv compile src s' := by
  have hperform := perform_inv hinv hstep.1
  rw [hstep.2] at hperform
  exact hperform

/-- In every run of a program that starts with no statement, a call answers as on its own if
and only if it meets the condition, and so all calls do if all meet it. -/
theorem run_alone {evs : List (LiteCall × Option LiteReport)} (hrun : Run (Step compile src) {} evs s) :
    (GuardedRun (Step compile src) (fun s ev => ev.1.Guard compile s) {} evs s →
      ∀ ev ∈ evs, ev.2 = ev.1.alone compile) ∧
    ∀ c : LiteCall, c.Legal src → ((s.perform compile c).2 = c.alone compile ↔ c.Guard compile s) := by
  constructor
  · intro hguarded
    have hall : Inv compile src s ∧ ∀ ev ∈ evs, ev.2 = ev.1.alone compile := by
      refine hguarded.history (P := fun s evs => Inv compile src s ∧ ∀ ev ∈ evs, ev.2 = ev.1.alone compile) ?_
        ⟨init_inv, fun ev h => absurd h List.not_mem_nil⟩
      intro s₁ s₂ ev evs' hs hguard hstep
      refine ⟨step_inv hs.1 hstep, ?_⟩
      intro ev' hmem
      rcases List.mem_append.mp hmem with hold | hnew
      · exact hs.2 ev' hold
      · obtain rfl := List.mem_singleton.mp hnew
        have halone := (perform_alone hs.1 hstep.1).mpr hguard
        rw [hstep.2] at halone
        exact halone
    exact hall.2
  · intro c hl
    have hinv : Inv compile src s := hrun.invariant (fun h _ hstep => step_inv h hstep) init_inv
    exact perform_alone hinv hl

/-- A statement with a parameter that returns a row, executed once. -/
theorem run_alone_row : ∃ s,
    (∀ ev ∈ [((⟨0, 0, true, [1], [[2]], [[some [3]]], true, 0, 0⟩ : LiteCall),
        some (⟨1, [some [97]], 1, [some [([3], 1)]]⟩ : LiteReport))],
      ev.2 = ev.1.alone fun _ _ => some ⟨1, [[97]]⟩) ∧
    ∀ c : LiteCall, c.Legal (fun _ => some (0, [1])) →
      ((perform (fun _ _ => some ⟨1, [[97]]⟩) s c).2 = c.alone (fun _ _ => some ⟨1, [[97]]⟩) ↔
        c.Guard (fun _ _ => some ⟨1, [[97]]⟩) s) := by
  have hlegal : LiteCall.Legal (fun _ => some (0, [1])) ⟨0, 0, true, [1], [[2]], [[some [3]]], true, 0, 0⟩ :=
    ⟨rfl, rfl, rfl⟩
  have hguard : LiteCall.Guard (fun _ _ => some ⟨1, [[97]]⟩) {} ⟨0, 0, true, [1], [[2]], [[some [3]]], true, 0, 0⟩ :=
    fun _ _ _ _ => ⟨rfl, Or.inl (List.cons_ne_nil _ _)⟩
  have hlast : ∃ s, GuardedRun (Step (fun _ _ => some ⟨1, [[97]]⟩) (fun _ => some (0, [1])))
      (fun s ev => ev.1.Guard (fun _ _ => some ⟨1, [[97]]⟩) s) {}
      [(⟨0, 0, true, [1], [[2]], [[some [3]]], true, 0, 0⟩, some ⟨1, [some [97]], 1, [some [([3], 1)]]⟩)] s :=
    ⟨_, .cons hguard ⟨hlegal, rfl⟩ (.nil _)⟩
  obtain ⟨s, hguarded⟩ := hlast
  obtain ⟨hall, hnext⟩ := run_alone (hguarded.mono fun _ _ _ => trivial)
  exact ⟨s, hall hguarded, hnext⟩

/-- A statement with a parameter that failed once is executed again. -/
theorem run_not_alone : ¬ ∀ (compile : Nat → Bytes → Option LiteInfo) (src : Nat → Option (Nat × Bytes))
    (evs : List (LiteCall × Option LiteReport)) (s : RimLite), Run (Step compile src) {} evs s →
      ∀ ev ∈ evs, ev.2 = ev.1.alone compile := by
  intro h
  have hfailed := h (fun _ _ => some ⟨1, []⟩) (fun _ => some (0, [1]))
    [(⟨0, 0, true, [1], [[2]], [], false, 0, 0⟩, none), (⟨0, 0, true, [1], [[2]], [], true, 0, 0⟩, none)]
    _ (.cons trivial ⟨⟨rfl, rfl, rfl⟩, rfl⟩ (.cons trivial ⟨⟨rfl, rfl, rfl⟩, rfl⟩ (.nil _)))
    _ (List.mem_cons_of_mem _ (List.mem_singleton_self _))
  cases hfailed

end RimLite

end RimStone
