import RimStone.Database.Select
import RimStone.Laws.Database.Lite
import RimStone.Laws.Memory.Chars

/-!
# What a query fills

The loop over the rows fills the array one row behind the other, until it has all of them or one cannot be fetched.
`Fetches` says what a source of rows gives; the loop is proved once, for any source. So what the outputs hold is
decided by what each vendor gives for a row: the fields with their bytes, the array of a function that has returned,
or nothing.
-/

namespace RimStone

/-! ## One row -/

def Fills (needCopy : Bool) (row : List (RowPtr × Nat)) (es : List (DbCell × Nat)) : Prop :=
  row.map (fun p => (fillCell needCopy p.1 p.2).map fun c => (c, p.2)) = es.map some

variable {needCopy : Bool} {row : List (RowPtr × Nat)} {es done old rest : List (DbCell × Nat)} {numFields r : Nat}

variable {i : Nat} {free : List (DbCell × Nat)} {o : SelectOut}

theorem Fills.getElem? (h : Fills needCopy row es) {e : DbCell × Nat} (he : es[i]? = some e) :
    ∃ p, row[i]? = some (p, e.2) ∧ fillCell needCopy p e.2 = some e.1 := by
  have hget := congrArg (·[i]?) h
  simp only [List.getElem?_map, he, Option.map_some, Option.map_eq_some_iff] at hget
  obtain ⟨⟨p, len⟩, hp, c, hc, rfl⟩ := hget
  exact ⟨p, hp, hc⟩

/-- The loop over the fields writes the entries of a row one behind the other. -/
theorem fieldLoop_eq (rest : List (DbCell × Nat)) (h : Fills needCopy row es) (hnum : es.length = numFields)
    (hdone : done.length = r * numFields)
    {n : Nat} (hn : n ≤ numFields) (hold : old.length = n) :
    fieldLoop needCopy numFields r row n (done ++ (es.take (numFields - n) ++ (old ++ rest))) =
      some (done ++ (es ++ rest)) := by
  induction n generalizing old with
  | zero =>
    rw [List.length_eq_zero_iff.mp hold, Nat.sub_zero, ← hnum, List.take_length]
    rfl
  | succ n ih =>
    obtain ⟨x, old, rfl⟩ := List.exists_cons_of_length_eq_add_one hold
    have hlt : numFields - (n + 1) < es.length := by omega
    obtain ⟨p, hp, hcell⟩ := h.getElem? (List.getElem?_eq_getElem hlt)
    have htake : (es.take (numFields - (n + 1))).length = numFields - (n + 1) := by
      rw [List.length_take]
      omega
    have hplace : r * numFields + (numFields - (n + 1)) = (done ++ es.take (numFields - (n + 1))).length := by
      rw [List.length_append, hdone, htake]
    have hcells : done ++ (es.take (numFields - (n + 1)) ++ (x :: old ++ rest)) =
        (done ++ es.take (numFields - (n + 1))) ++ x :: (old ++ rest) := by
      simp only [List.append_assoc, List.cons_append]
    have hset : (done ++ (es.take (numFields - (n + 1)) ++ (x :: old ++ rest))).set
        (r * numFields + (numFields - (n + 1))) es[numFields - (n + 1)] =
          done ++ (es.take (numFields - n) ++ (old ++ rest)) := by
      have hsucc : numFields - n = numFields - (n + 1) + 1 := by omega
      rw [hcells, hplace, List.set_append_right _ _ (Nat.le_refl _), Nat.sub_self, List.set_cons_zero, hsucc,
        List.take_succ_eq_append_getElem hlt]
      simp only [List.append_assoc, List.cons_append, List.nil_append]
    have hbound : r * numFields + (numFields - (n + 1)) <
        (done ++ (es.take (numFields - (n + 1)) ++ (x :: old ++ rest))).length := by
      rw [hcells, hplace]
      simp only [List.length_append, List.length_cons]
      omega
    rw [fieldLoop]
    simp only [hp, hcell, bind, Option.bind, if_pos hbound, hset]
    exact ih (by omega) (Nat.succ.inj hold)

/-- A row is written behind those before it. -/
theorem fieldLoop_row (rest : List (DbCell × Nat)) (h : Fills needCopy row es) (hnum : es.length = numFields)
    (hdone : done.length = r * numFields)
    (hold : old.length = numFields) :
    fieldLoop needCopy numFields r row numFields (done ++ (old ++ rest)) = some (done ++ (es ++ rest)) := by
  have hloop := fieldLoop_eq rest h hnum hdone (Nat.le_refl numFields) hold
  rwa [Nat.sub_self, List.take_zero, List.nil_append] at hloop

/-! ## All rows -/

/-- What a source gives for each of `n` rows: the entries the row becomes, or none if it cannot be fetched. `states` are
the variables of `lite.c` before each row. -/
structure Fetches (src : QuerySource) (numFields n : Nat) (states : Nat → RimLite)
    (entries : Nat → Option (List (DbCell × Nat))) : Prop where
  fails : ∀ r < n, entries r = none → (src.fetchRow (states r) r).1 = none
  fills : ∀ r < n, ∀ es, entries r = some es → es.length = numFields ∧
    ∃ needCopy row, src.fetchRow (states r) r = (some (needCopy, row), states (r + 1)) ∧ Fills needCopy row es

def filled (entries : Nat → Option (List (DbCell × Nat))) (r : Nat) : List (DbCell × Nat) :=
  (List.range r).flatMap fun j => (entries j).getD []

variable {entries : Nat → Option (List (DbCell × Nat))} {src : QuerySource} {n : Nat} {states : Nat → RimLite}

theorem filled_succ (entries : Nat → Option (List (DbCell × Nat))) (r : Nat) :
    filled entries (r + 1) = filled entries r ++ (entries r).getD [] := by
  unfold filled
  rw [List.range_succ, List.flatMap_append, List.flatMap_singleton]

theorem length_filled (h : Fetches src numFields n states entries) (hr : r ≤ n) (hall : ∀ j < r, entries j ≠ none) :
    (filled entries r).length = r * numFields := by
  induction r with
  | zero => simp [filled]
  | succ r ih =>
    obtain ⟨es, hes⟩ := Option.ne_none_iff_exists'.mp (hall r (Nat.lt_succ_self r))
    have hlen := (h.fills r hr es hes).1
    rw [filled_succ, List.length_append, ih (by omega) fun j hj => hall j (by omega), hes, Option.getD_some, hlen,
      Nat.succ_mul]

theorem getElem?_filled (h : Fetches src numFields n states entries) (hn : ∀ j < n, entries j ≠ none) (hr : r < n)
    (hes : entries r = some es) (hi : i < es.length) (free : List (DbCell × Nat)) :
    (filled entries n ++ free)[r * numFields + i]? = es[i]? := by
  have hpre : filled entries (r + 1) <+: filled entries n := by
    unfold filled
    obtain ⟨t, ht⟩ : List.range (r + 1) <+: List.range n := by
      rw [List.prefix_iff_eq_take, List.length_range, List.take_range, Nat.min_eq_left hr]
    rw [← ht, List.flatMap_append]
    exact List.prefix_append _ _
  have hlen := length_filled h (Nat.le_of_lt hr) fun j hj => hn j (by omega)
  obtain ⟨t, ht⟩ := hpre
  rw [← ht, filled_succ, hes, Option.getD_some, ← hlen]
  simp only [List.append_assoc]
  rw [List.getElem?_append_right (Nat.le_add_right _ _), Nat.add_sub_cancel_left, List.getElem?_append_left hi]

/-- The array grows if it is full, by entries that are not filled. -/
theorem exists_grown {cells : List (DbCell × Nat)} {batch : Nat} (hcells : cells = done ++ free)
    (hfree : ∀ e ∈ free, e = (.unset, 0)) (hbatch : r ≤ batch) (hlen : cells.length = batch * numFields) :
    ∃ batch' free', (if r ≥ batch then
          (batch + RIM_INITIAL_QUERY_BATCH, cells ++ emptyCells RIM_INITIAL_QUERY_BATCH numFields)
        else (batch, cells)) = (batch', done ++ free') ∧
      (∀ e ∈ free', e = (.unset, 0)) ∧ r < batch' ∧ (done ++ free').length = batch' * numFields := by
  by_cases hfull : r ≥ batch
  · refine ⟨batch + RIM_INITIAL_QUERY_BATCH, free ++ emptyCells RIM_INITIAL_QUERY_BATCH numFields, ?_, ?_, ?_, ?_⟩
    · rw [if_pos hfull, hcells, List.append_assoc]
    · intro e he
      obtain he | he := List.mem_append.mp he
      · exact hfree e he
      · exact List.eq_of_mem_replicate he
    · unfold RIM_INITIAL_QUERY_BATCH
      omega
    · rw [← List.append_assoc, ← hcells, List.length_append, hlen, emptyCells, List.length_replicate, Nat.add_mul]
  · exact ⟨batch, free, by rw [if_neg hfull, hcells], hfree, by omega, by rw [← hcells, hlen]⟩

/-- The loop fills all rows, or those before one that cannot be fetched. -/
theorem selectLoop_eq (q : Select) (h : Fetches q.source numFields n states entries) (batch : Nat) {k : Nat}
    (hk : r + k = n) (hall : ∀ j < r, entries j ≠ none) (hcells : o.cells = filled entries r ++ free)
      (hfree : ∀ e ∈ free, e = (.unset, 0)) (hbatch : r ≤ batch) (hlen : o.cells.length = batch * numFields) :
    ((∀ j < n, entries j ≠ none) ∧ ∃ free', q.selectLoop numFields k r batch (states r) o =
        .returns { o with cells := filled entries n ++ free' }) ∨
      ∃ j < n, entries j = none ∧ (∀ l < j, entries l ≠ none) ∧ ∃ free', (∀ e ∈ free', e = (.unset, 0)) ∧
        q.selectLoop numFields k r batch (states r) o =
          q.rimHandleError { o with cells := filled entries j ++ free' } := by
  induction k generalizing r batch o free with
  | zero =>
    obtain rfl : r = n := by omega
    refine Or.inl ⟨hall, free, ?_⟩
    rw [← hcells]
    rfl
  | succ k ih =>
    have hr : r < n := by omega
    rw [Select.selectLoop]
    cases hes : entries r with
    | none =>
      have hfail := h.fails r hr hes
      cases hfetch : q.source.fetchRow (states r) r with
      | mk fetched s =>
        rw [hfetch] at hfail
        obtain rfl : fetched = none := hfail
        refine Or.inr ⟨r, hr, hes, hall, free, hfree, ?_⟩
        rw [← hcells]
    | some es =>
      obtain ⟨hnum, needCopy, row, hfetch, hfills⟩ := h.fills r hr es hes
      have hfilled := length_filled h (Nat.le_of_lt hr) hall
      obtain ⟨batch', free', hgrown, hfree', hlt, hlen'⟩ := exists_grown hcells hfree hbatch hlen
      have hroom : numFields ≤ free'.length := by
        have hsucc := Nat.mul_le_mul_right numFields hlt
        rw [Nat.succ_mul] at hsucc
        rw [List.length_append, hfilled] at hlen'
        omega
      have hsplit : filled entries r ++ free' = filled entries r ++ (free'.take numFields ++ free'.drop numFields) := by
        rw [List.take_append_drop]
      have hold : (free'.take numFields).length = numFields := by
        rw [List.length_take, Nat.min_eq_left hroom]
      have hrow := fieldLoop_row (free'.drop numFields) hfills hnum hfilled hold
      have hcells' : filled entries r ++ (es ++ free'.drop numFields) =
          filled entries (r + 1) ++ free'.drop numFields := by
        rw [filled_succ, hes, Option.getD_some, List.append_assoc]
      have hall' : ∀ j < r + 1, entries j ≠ none :=
        Nat.forall_lt_succ_right.mpr ⟨hall, by rw [hes]; exact Option.some_ne_none es⟩
      have hlen'' : (filled entries (r + 1) ++ free'.drop numFields).length = batch' * numFields := by
        rw [← hcells', ← hlen', hsplit]
        simp only [List.length_append, hnum, hold]
      rw [hfetch]
      simp only [hgrown]
      rw [hsplit, hrow, hcells']
      exact ih batch' (o := { o with cells := filled entries (r + 1) ++ free'.drop numFields }) (by omega) hall' rfl
        (fun e he => hfree' e (List.mem_of_mem_drop he)) hlt hlen''

/-! ## What the vendors give for a row -/

/-- A field in a block of its own, with a null behind it. -/
def stored (v : Option Bytes) : DbCell × Nat := (.block (v.getD [] ++ [0]), (v.getD []).length)

def blankRow (row : List (Option Bytes)) : Bool := row.all fun v => (v.getD []).isEmpty

theorem fills_map {fields : List (Option Bytes)} {f : Option Bytes → RowPtr × Nat} {g : Option Bytes → DbCell × Nat}
    (h : ∀ v ∈ fields, (g v).2 = (f v).2 ∧ fillCell needCopy (f v).1 (f v).2 = some (g v).1) :
    Fills needCopy (fields.map f) (fields.map g) := by
  unfold Fills
  rw [List.map_map, List.map_map]
  apply List.map_congr_left
  intro v hv
  obtain ⟨hlen, hcell⟩ := h v hv
  show (fillCell needCopy (f v).1 (f v).2).map (fun c => (c, (f v).2)) = some (g v)
  rw [hcell, ← hlen]
  rfl

theorem fillCell_library (b : Bytes) : fillCell true (.library b) b.length = some (.block (b ++ [0])) := by
  simp [fillCell]

theorem fillCell_null : fillCell true .null 0 = some (.block [0]) := rfl

/-- A null is written behind a field, where there is room for it. -/
theorem fillCell_block (b : Bytes) (x : UInt8) (rest : Bytes) :
    fillCell false (.block (b ++ x :: rest)) b.length = some (.block (b ++ 0 :: rest)) := by
  unfold fillCell
  simp only [Bool.false_eq_true, if_false, poke_middle, Option.map_some]

namespace MariaAnswers

variable (m : MariaAnswers)

/-- Row `r` of a prepared statement cannot be fetched. -/
def rowFails (r : Nat) : Bool :=
  m.bindFails r || m.fetchFails r ||
    (m.rows[r]?).any fun row => !blankRow row && (List.range row.length).any (m.columnFails r)

def stmtCell (blank : Bool) (v : Option Bytes) : DbCell × Nat :=
  (if blank then .dummy else .block (v.getD [] ++ [0, m.stale]), (v.getD []).length)

/-- What row `r` becomes. -/
def rowEntries (r : Nat) : Option (List (DbCell × Nat)) :=
  if m.isPrep then
    if m.rowFails r then none else (m.rows[r]?).map fun row => row.map (m.stmtCell (blankRow row))
  else (m.rows[r]?).map (·.map stored)

theorem mysqlStmtFetch_eq {r : Nat} (h : m.fetchFails r = false) (row : List (Option Bytes)) :
    m.mysqlStmtFetch r row = if blankRow row then .okay else .truncated := by
  have hany : (row.any fun v => !(v.getD []).isEmpty) = !blankRow row := by
    unfold blankRow
    rw [List.not_all_eq_any_not]
  unfold mysqlStmtFetch
  rw [h, hany]
  cases blankRow row <;> rfl

theorem rimMariaStmtRows_none {r : Nat} (h : m.rowFails r = true) : m.rimMariaStmtRows r = none := by
  unfold rimMariaStmtRows
  cases hbind : m.bindFails r with
  | true => rfl
  | false =>
    rw [if_neg Bool.false_ne_true]
    cases hrow : m.rows[r]? with
    | none => rfl
    | some row =>
      cases hfetch : m.fetchFails r with
      | true =>
        have hfailed : m.mysqlStmtFetch r row = .failed := by
          unfold mysqlStmtFetch
          rw [if_pos hfetch]
        simp only [hfailed]
      | false =>
        have hcol : blankRow row = false ∧ (List.range row.length).any (m.columnFails r) = true := by
          unfold rowFails at h
          rw [hbind, hfetch, hrow] at h
          simpa only [Bool.false_or, Option.any_some, Bool.and_eq_true, Bool.not_eq_true'] using h
        simp only [m.mysqlStmtFetch_eq hfetch, hcol.1, Bool.false_eq_true, if_false, hcol.2, if_true]

theorem rimMariaStmtRows_some {r : Nat} {row : List (Option Bytes)} (h : m.rowFails r = false)
    (hrow : m.rows[r]? = some row) :
    ∃ fields, m.rimMariaStmtRows r = some fields ∧ Fills false fields (row.map (m.stmtCell (blankRow row))) := by
  unfold rowFails at h
  rw [hrow, Option.any_some, Bool.or_eq_false_iff, Bool.or_eq_false_iff] at h
  obtain ⟨⟨hbind, hfetch⟩, hcol⟩ := h
  unfold rimMariaStmtRows
  simp only [hbind, Bool.false_eq_true, if_false, hrow, m.mysqlStmtFetch_eq hfetch]
  cases hblank : blankRow row with
  | true => exact ⟨_, rfl, fills_map fun v _ => ⟨rfl, rfl⟩⟩
  | false =>
    rw [hblank, Bool.not_false, Bool.true_and] at hcol
    simp only [Bool.false_eq_true, if_false, hcol]
    refine ⟨_, rfl, fills_map fun v _ => ⟨rfl, ?_⟩⟩
    cases v with
    | none => rfl
    | some b => exact fillCell_block b 0 [m.stale]

theorem rimMariaRows_plain {r : Nat} {row : List (Option Bytes)} (h : m.isPrep = false) (hrow : m.rows[r]? = some row) :
    ∃ fields, m.rimMariaRows r = some (true, fields) ∧ Fills true fields (row.map stored) := by
  unfold rimMariaRows
  simp only [h, Bool.false_eq_true, if_false, hrow, Option.getD_some]
  refine ⟨_, rfl, fills_map fun v _ => ⟨rfl, ?_⟩⟩
  cases v with
  | none => exact fillCell_null
  | some b => exact fillCell_library b

theorem fetches (s : RimLite) : Fetches (.mariadb m) m.columns.length m.rows.length (fun _ => s) m.rowEntries := by
  have hentries : ∀ r < m.rows.length, m.isPrep = false ∨ m.rowFails r = false → m.rowEntries r ≠ none := by
    intro r hr hor
    unfold rowEntries
    rw [List.getElem?_eq_getElem hr]
    obtain h | h := hor
    · simp [h]
    · cases m.isPrep <;> simp [h]
  constructor
  · intro r hr hnone
    have hfail : m.isPrep = true ∧ m.rowFails r = true := by
      constructor
      · exact Bool.eq_true_of_not_eq_false fun h => hentries r hr (Or.inl h) hnone
      · exact Bool.eq_true_of_not_eq_false fun h => hentries r hr (Or.inr h) hnone
    show m.rimMariaRows r = none
    unfold rimMariaRows
    rw [if_pos hfail.1, m.rimMariaStmtRows_none hfail.2]
    rfl
  · intro r hr es hes
    have hrow := List.getElem?_eq_getElem hr
    have hwidth := m.rect m.rows[r] (List.getElem_mem hr)
    unfold rowEntries at hes
    cases hprep : m.isPrep with
    | false =>
      rw [hprep, if_neg Bool.false_ne_true, hrow, Option.map_some, Option.some.injEq] at hes
      subst hes
      obtain ⟨fields, hfields, hfills⟩ := m.rimMariaRows_plain hprep hrow
      exact ⟨(List.length_map _).trans hwidth, true, fields, congrArg (·, s) hfields, hfills⟩
    | true =>
      rw [hprep, if_pos rfl] at hes
      cases hfail : m.rowFails r with
      | true =>
        rw [hfail] at hes
        cases hes
      | false =>
        rw [hfail, if_neg Bool.false_ne_true, hrow, Option.map_some, Option.some.injEq] at hes
        subst hes
        obtain ⟨fields, hfields, hfills⟩ := m.rimMariaStmtRows_some hfail hrow
        refine ⟨(List.length_map _).trans hwidth, false, fields, congrArg (·, s) ?_, hfills⟩
        show m.rimMariaRows r = some (false, fields)
        unfold rimMariaRows
        rw [if_pos hprep, hfields]
        rfl

end MariaAnswers

/-- What row `r` of PostgreSQL becomes. -/
theorem PgAnswers.fetches (p : PgAnswers) (s : RimLite) :
    Fetches (.postgres p) p.columns.length p.rows.length (fun _ => s) fun r => (p.rows[r]?).map (·.map stored) := by
  constructor
  · intro r hr hnone
    rw [List.getElem?_eq_getElem hr] at hnone
    cases hnone
  · intro r hr es hes
    have hrow := List.getElem?_eq_getElem hr
    rw [hrow, Option.map_some, Option.some.injEq] at hes
    subst hes
    refine ⟨(List.length_map _).trans (p.rect _ (List.getElem_mem hr)), true, p.rimPgRows r, rfl, ?_⟩
    unfold PgAnswers.rimPgRows
    rw [hrow]
    exact fills_map fun v _ => ⟨rfl, fillCell_library (v.getD [])⟩

/-! ## SQLite -/

namespace RimLite

variable {compile : Nat → Bytes → Option LiteInfo} {s s' : RimLite} {c : LiteCall}

/-- The variables that an execution leaves for the rows. -/
structure Rows (s : RimLite) (rows : List (List (Option Bytes))) : Prop where
  nrows : s.qnumrows = rows.length
  qrows : rows ≠ [] → s.qrows = some (rows.flatMap (cells s.qnumfields))
  qlens : rows ≠ [] → s.qlens = some ((rows.flatMap (cells s.qnumfields)).map List.length)
  qrownow : s.qrownow = 0

theorem Rows.setStepped {rows : List (List (Option Bytes))} (h : Rows s rows) (db : Nat) (b : Bool) :
    Rows (s.setStepped db b) rows := by
  unfold RimLite.setStepped
  split
  · exact h
  · exact ⟨h.nrows, h.qrows, h.qlens, h.qrownow⟩

theorem setStepped_qcolid (s : RimLite) (db : Nat) (b : Bool) : (s.setStepped db b).qcolid = s.qcolid := by
  unfold setStepped
  split <;> rfl

theorem rowLoop_rows (count : Nat) (s : RimLite) (rows : List (List (Option Bytes))) (hnum : s.qnumrows = 0) :
    Rows { rowLoop count s false rows with qcolid := 0, qrownow := 0 } rows := by
  by_cases hempty : rows = []
  · rw [hempty]
    exact ⟨hnum, fun h => absurd rfl h, fun h => absurd rfl h, rfl⟩
  · rw [rowLoop_first count s hempty, hnum, Nat.zero_add]
    exact ⟨rfl, fun _ => rfl, fun _ => rfl, rfl⟩

/-- An execution that succeeds leaves the rows, and the first column name is next. -/
theorem rimLiteExec_rows (h : s.rimLiteExec compile c = (s', false)) : Rows s' c.rows ∧ s'.qcolid = 0 := by
  unfold rimLiteExec at h
  cases hprep : s.rimLitePrepStmt compile c with
  | mk s₁ failed =>
    cases failed with
    | true => simp [hprep] at h
    | false =>
      simp only [hprep, Bool.false_eq_true, if_false] at h
      by_cases hbind : s₁.bindLoop c.db c.params = true
      · simp [hbind] at h
      · rw [if_neg hbind] at h
        unfold rimLiteGetData at h
        cases hdone : c.done with
        | false => simp [hdone] at h
        | true =>
          simp only [hdone, if_true, Bool.false_eq_true, if_false, Prod.mk.injEq, and_true] at h
          subst h
          refine ⟨?_, setStepped_qcolid _ _ _⟩
          have hloop := rowLoop_rows (((s₁.current c.db).map (·.info.columns.length)).getD 0)
            { s₁ with qrows := none, qlens := none, qnumrows := 0 } c.rows rfl
          have hstepped := (hloop.setStepped c.db true).setStepped c.db false
          rw [← setStepped_reset] at hstepped
          exact hstepped

/-- The fields of a row, as many as were counted. -/
def fields (n : Nat) (row : List (Option Bytes)) : List (Option Bytes) := (List.range n).map fun i => row[i]?.join

theorem cells_eq (n : Nat) (row : List (Option Bytes)) : cells n row = (fields n row).map (·.getD []) := by
  unfold cells fields columnText
  rw [List.map_map]
  rfl

/-- The rows that were gathered are fetched one after the other. -/
theorem Rows.fetches {l : LiteAnswers} {rows : List (List (Option Bytes))} (h : Rows s rows) :
    Fetches (.sqlite l) s.qnumfields rows.length (fun r => { s with qrownow := r })
      fun r => (rows[r]?).map fun row => (fields s.qnumfields row).map stored := by
  constructor
  · intro r hr hnone
    rw [List.getElem?_eq_getElem hr] at hnone
    cases hnone
  · intro r hr es hes
    have hrow := List.getElem?_eq_getElem hr
    rw [hrow, Option.map_some, Option.some.injEq] at hes
    subst hes
    have hne : rows ≠ [] := List.ne_nil_of_length_pos (Nat.zero_lt_of_lt hr)
    have hsplit : rows.take r ++ rows[r] :: rows.drop (r + 1) = rows := by
      rw [← List.drop_eq_getElem_cons hr, List.take_append_drop]
    have hqrows := h.qrows hne
    have hqlens := h.qlens hne
    rw [← hsplit] at hqrows hqlens
    have hnow : ({ s with qrownow := r } : RimLite).qrownow = (rows.take r).length := by
      rw [List.length_take, Nat.min_eq_left (Nat.le_of_lt hr)]
    have hfetch := rimLiteRows_gathered (s := { s with qrownow := r }) (rows.take r) (rows.drop (r + 1)) rows[r] hqrows
      hqlens hnow
    refine ⟨by simp [fields], false,
      (fields s.qnumfields rows[r]).map fun v => (.block (v.getD [] ++ [0]), (v.getD []).length), ?_,
      fills_map fun v _ => ⟨rfl, fillCell_block (v.getD []) 0 []⟩⟩
    unfold QuerySource.fetchRow
    simp only [hfetch, cells_eq, Option.map_some, List.map_map]
    rfl

end RimLite

/-! ## Any vendor -/

namespace QuerySource

def rows : QuerySource → List (List (Option Bytes))
  | mariadb m => m.rows
  | postgres p => p.rows
  | sqlite l => l.call.rows.map (RimLite.fields l.after.qnumfields)

/-- Row `r` cannot be fetched. -/
def rowFails (r : Nat) : QuerySource → Bool
  | mariadb m => m.isPrep && m.rowFails r
  | _ => false

def cell (row : List (Option Bytes)) : QuerySource → Option Bytes → DbCell × Nat
  | mariadb m => if m.isPrep then m.stmtCell (blankRow row) else stored
  | _ => stored

/-- What row `r` becomes. -/
def rowEntries (src : QuerySource) (r : Nat) : Option (List (DbCell × Nat)) :=
  if src.rowFails r then none else (src.rows[r]?).map fun row => row.map (src.cell row)

def columnName (i : Nat) : QuerySource → Option Bytes
  | mariadb m => m.columns[i]?
  | postgres p => p.columns[i]?
  | sqlite l => (l.after.current l.call.db).bind (·.info.columns[i]?)

/-- The variables of `lite.c` where the name of column `i` is next. -/
def atColumn (i : Nat) : QuerySource → RimLite
  | sqlite l => { l.after with qcolid := i }
  | _ => {}

variable {src : QuerySource}

theorem after_rows {l : LiteAnswers} (h : (QuerySource.sqlite l).executes = true) :
    l.after.Rows l.call.rows ∧ l.after.qcolid = 0 := by
  have hexec : l.before.rimLiteExec l.compile l.call = (l.after, false) := by
    have hfailed : (l.before.rimLiteExec l.compile l.call).2 = false := by
      simpa [executes] using h
    rw [← hfailed]
    rfl
  exact RimLite.rimLiteExec_rows hexec

theorem atColumn_zero (h : src.executes = true) : src.atColumn 0 = src.lite := by
  cases src with
  | mariadb m => rfl
  | postgres p => rfl
  | sqlite l =>
    show { l.after with qcolid := 0 } = l.after
    rw [← (after_rows h).2]

theorem nrows_eq (h : src.executes = true) : src.nrows = src.rows.length := by
  cases src with
  | mariadb m => rfl
  | postgres p => rfl
  | sqlite l =>
    show l.after.qnumrows = (l.call.rows.map _).length
    rw [(after_rows h).1.nrows, List.length_map]

theorem fieldname_eq (i : Nat) : src.fieldname (src.atColumn i) i = (src.columnName i, src.atColumn (i + 1)) := by
  cases src <;> rfl

theorem width_eq (hnum : src.nfield = some numFields) : ∀ row ∈ src.rows, row.length = numFields := by
  intro row hrow
  cases src with
  | mariadb m =>
    simp only [nfield, MariaAnswers.rimMariaNfield, Option.ite_none_left_eq_some, Option.some.injEq] at hnum
    rw [← hnum.2]
    exact m.rect row hrow
  | postgres p =>
    obtain rfl := Option.some.inj hnum
    exact p.rect row hrow
  | sqlite l =>
    obtain rfl := Option.some.inj hnum
    obtain ⟨row, -, rfl⟩ := List.mem_map.mp hrow
    simp [RimLite.fields, RimLite.rimLiteNfield]

/-- A source gives its rows one after the other, whatever name is next. -/
theorem exists_fetches (h : src.executes = true) (hnum : src.nfield = some numFields) (k : Nat) :
    ∃ states, states 0 = src.atColumn k ∧ Fetches src numFields src.rows.length states src.rowEntries := by
  cases src with
  | mariadb m =>
    simp only [nfield, MariaAnswers.rimMariaNfield, Option.ite_none_left_eq_some, Option.some.injEq] at hnum
    obtain ⟨-, rfl⟩ := hnum
    have heq : (mariadb m).rowEntries = m.rowEntries := by
      ext1 r
      unfold rowEntries MariaAnswers.rowEntries rowFails rows cell
      cases hprep : m.isPrep with
      | false => simp only [hprep, Bool.false_and, Bool.false_eq_true, if_false]
      | true => simp only [hprep, Bool.true_and, if_true]
    refine ⟨fun _ => {}, rfl, ?_⟩
    rw [heq]
    exact m.fetches {}
  | postgres p =>
    obtain rfl := Option.some.inj hnum
    exact ⟨fun _ => {}, rfl, p.fetches {}⟩
  | sqlite l =>
    obtain rfl := Option.some.inj hnum
    have hrows := (after_rows h).1
    have hcol : ({ l.after with qcolid := k } : RimLite).Rows l.call.rows :=
      ⟨hrows.nrows, hrows.qrows, hrows.qlens, hrows.qrownow⟩
    have heq : (sqlite l).rowEntries = fun r => (l.call.rows[r]?).map fun row =>
        (RimLite.fields l.after.qnumfields row).map stored := by
      ext1 r
      unfold rowEntries rowFails rows cell
      simp only [Bool.false_eq_true, if_false, List.getElem?_map, Option.map_map]
      rfl
    refine ⟨fun r => { l.after with qcolid := k, qrownow := r }, ?_, ?_⟩
    · show ({ l.after with qcolid := k, qrownow := 0 } : RimLite) = { l.after with qcolid := k }
      rw [← hrows.qrownow]
    · rw [heq]
      unfold rows
      rw [List.length_map]
      exact hcol.fetches

end QuerySource

/-- The names of columns, as far as each has one. -/
theorem nameLoop_found (src : QuerySource) {n : Nat} (h : ∀ j < i + n, (src.columnName j).isSome) :
    ∃ names, nameLoop src n i (src.atColumn i) = some (names, src.atColumn (i + n)) := by
  induction n generalizing i with
  | zero => exact ⟨[], rfl⟩
  | succ n ih =>
    obtain ⟨name, hname⟩ := Option.isSome_iff_exists.mp (h i (by omega))
    have hplace : i + 1 + n = i + (n + 1) := by omega
    obtain ⟨names, hnames⟩ := ih (i := i + 1) fun j hj => h j (by omega)
    refine ⟨name :: names, ?_⟩
    rw [hplace] at hnames
    simp only [nameLoop, src.fieldname_eq, hname, hnames, bind, Option.bind]

theorem nameLoop_missing {src : QuerySource} {n j : Nat} (hj : i ≤ j) (hlt : j < i + n) (h : src.columnName j = none) :
    nameLoop src n i (src.atColumn i) = none := by
  induction n generalizing i with
  | zero => omega
  | succ n ih =>
    simp only [nameLoop, src.fieldname_eq]
    by_cases heq : i = j
    · rw [heq, h]
      rfl
    · cases src.columnName i with
      | none => rfl
      | some name =>
        have hrest := ih (i := i + 1) (by omega) (by omega)
        simp only [hrest, bind, Option.bind]

/-! ## What the outputs hold -/

/-- An entry of `data` is a block of RimStone that holds a field, with a null behind it, and the entry of `dlen` is its
length. -/
def CellHolds (cell : Option (DbCell × Nat)) (v : Option Bytes) : Prop :=
  ∃ b, cell = some (.block b, (v.getD []).length) ∧ v.getD [] ++ [0] <+: b

namespace Select

variable {q : Select}

/-- The query was executed, its rows are asked for, and storing and fetching them did not fail. -/
def Succeeds (q : Select) : Prop :=
  q.source.executes = true ∧ q.wantData = true ∧ q.source.storeFails q.wantData = false ∧
    ∀ r < q.source.rows.length, q.source.rowFails r = false

/-- The outputs have `n` rows, all of which are filled, and these are all rows if nothing failed. -/
structure Complete (q : Select) (o : SelectOut) (n : Nat) : Prop where
  nrow : o.nrow = some n
  le : n ≤ q.source.rows.length
  cells : ∀ r row, r < n → q.source.rows[r]? = some row →
    o.ncol = some row.length ∧ ∀ i v, row[i]? = some v → CellHolds o.cells[r * row.length + i]? v
  all : q.Succeeds → n = q.source.rows.length

/-- Where `rim_select_table` returns, its outputs are complete. -/
def FillsRows (q : Select) : Prop :=
  match q.rimSelectTable with
  | .returns o => ∃ n, q.Complete o n
  | .reports => True
  | .undefined => False

/-- No result is lost on the way to the outputs: an error that MariaDB has in storing or fetching ends the request, there
is metadata for a prepared statement and no row of it has only fields that are NULL or empty, and there is a name for
each column that SQLite is asked for. -/
def Sound (q : Select) : Prop :=
  q.source.executes = true →
    if q.source.storeFails q.wantData = true then q.exits = true
    else match q.source with
      | .mariadb m =>
        ¬ (m.isPrep = true ∧ m.metaFails = true) ∧ (q.wantData = true → m.isPrep = true →
          ((∃ r < m.rows.length, m.rowFails r = true) → q.exits = true) ∧
          ((∀ r < m.rows.length, m.rowFails r = false) → ∀ row ∈ m.rows, blankRow row = false))
      | .postgres _ => True
      | .sqlite l => q.wantNames = true → ∀ i < l.after.qnumfields, ((QuerySource.sqlite l).columnName i).isSome

/-- An error that is handled is a report, or a return without a mark on the outputs. -/
theorem rimHandleError_eq (q : Select) (o : SelectOut) :
    q.exits = true ∧ q.rimHandleError o = .reports ∨
      q.exits = false ∧ ∃ er, q.rimHandleError o = .returns { o with er } := by
  unfold rimHandleError
  cases q.exits with
  | true => exact Or.inl ⟨rfl, rfl⟩
  | false => exact Or.inr ⟨rfl, _, rfl⟩

/-- A row of a prepared statement of MariaDB that has no byte. -/
def blank (row : List (Option Bytes)) : QuerySource → Bool
  | .mariadb m => m.isPrep && blankRow row
  | _ => false

theorem cellHolds_stored (v : Option Bytes) : CellHolds (some (stored v)) v :=
  ⟨_, rfl, List.prefix_rfl⟩

theorem cellHolds_iff (src : QuerySource) (row : List (Option Bytes)) (v : Option Bytes) :
    CellHolds (some (src.cell row v)) v ↔ blank row src = false := by
  cases src with
  | postgres p => exact iff_of_true (cellHolds_stored v) rfl
  | sqlite l => exact iff_of_true (cellHolds_stored v) rfl
  | mariadb m =>
    unfold QuerySource.cell blank
    cases hprep : m.isPrep with
    | false =>
      simp only [hprep, Bool.false_eq_true, if_false, Bool.false_and]
      exact iff_of_true (cellHolds_stored v) trivial
    | true =>
      simp only [hprep, if_true, Bool.true_and]
      unfold MariaAnswers.stmtCell
      cases blankRow row with
      | true =>
        refine iff_of_false ?_ Bool.noConfusion
        intro hholds
        obtain ⟨b, hb, -⟩ := hholds
        cases hb
      | false =>
        refine iff_of_true ⟨_, rfl, [m.stale], ?_⟩ rfl
        rw [List.append_assoc]
        rfl

/-- A row that fails or is blank has a field. -/
theorem row_ne_nil {r : Nat} {row : List (Option Bytes)} (hrow : q.source.rows[r]? = some row)
    (h : q.source.rowFails r = true ∨ blank row q.source = true) : row ≠ [] := by
  cases hsrc : q.source with
  | postgres p =>
    rw [hsrc] at h
    obtain h | h := h <;> cases h
  | sqlite l =>
    rw [hsrc] at h
    obtain h | h := h <;> cases h
  | mariadb m =>
    rw [hsrc] at hrow
    have hmem : row ∈ m.rows := List.mem_of_getElem? hrow
    have hwide := m.wide (List.ne_nil_of_mem hmem)
    rw [← List.length_pos_iff, m.rect row hmem]
    exact List.length_pos_iff.mpr hwide

/-- Where all rows were fetched, the outputs are complete if no row is blank. -/
theorem complete_filled {states : Nat → RimLite} (hexec : q.source.executes = true)
    (hnum : q.source.nfield = some numFields)
      (hfetch : Fetches q.source numFields q.source.rows.length states q.source.rowEntries)
        (hall : ∀ j < q.source.rows.length, q.source.rowEntries j ≠ none) (hncol : o.ncol = some numFields)
          (hnrow : o.nrow = some q.source.nrows)
            (hcells : o.cells = filled q.source.rowEntries q.source.rows.length ++ free) :
    (∃ n, q.Complete o n) ↔ ∀ row ∈ q.source.rows, blank row q.source = false := by
  rw [QuerySource.nrows_eq hexec] at hnrow
  have hcell : ∀ r row, q.source.rows[r]? = some row → ∀ i v, row[i]? = some v →
      (CellHolds o.cells[r * row.length + i]? v ↔ blank row q.source = false) := by
    intro r row hrow i v hv
    obtain ⟨hr, hget⟩ := List.getElem?_eq_some_iff.mp hrow
    obtain ⟨es, hes⟩ := Option.ne_none_iff_exists'.mp (hall r hr)
    have hes' : row.map (q.source.cell row) = es := by
      unfold QuerySource.rowEntries at hes
      cases hfail : q.source.rowFails r with
      | true =>
        rw [hfail] at hes
        cases hes
      | false =>
        rw [hfail, if_neg Bool.false_ne_true, hrow, Option.map_some] at hes
        exact Option.some.inj hes
    have hwidth : row.length = numFields := by
      rw [← hget]
      exact QuerySource.width_eq hnum _ (List.getElem_mem hr)
    have hi : i < es.length := by
      rw [← hes', List.length_map]
      exact (List.getElem?_eq_some_iff.mp hv).1
    rw [hwidth, hcells, getElem?_filled hfetch hall hr hes hi free, ← hes', List.getElem?_map, hv]
    exact cellHolds_iff _ _ _
  constructor
  · intro hcomplete row hmem
    obtain ⟨n, hn⟩ := hcomplete
    obtain ⟨r, hr⟩ := List.mem_iff_getElem?.mp hmem
    have hlt := (List.getElem?_eq_some_iff.mp hr).1
    obtain rfl : q.source.rows.length = n := Option.some.inj (hnrow.symm.trans hn.nrow)
    by_contra hblank
    rw [Bool.not_eq_false] at hblank
    obtain ⟨v, row', hrow⟩ := List.exists_cons_of_ne_nil (row_ne_nil hr (Or.inr hblank))
    have hv : row[0]? = some v := by rw [hrow]; rfl
    have hholds := (hn.cells r row hlt hr).2 0 v hv
    rw [hcell r row hr 0 v hv, hblank] at hholds
    cases hholds
  · intro hblank
    refine ⟨_, hnrow, Nat.le_refl _, ?_, fun _ => rfl⟩
    intro r row _ hrow
    have hmem := List.mem_of_getElem? hrow
    refine ⟨?_, fun i v hv => (hcell r row hrow i v hv).mpr (hblank row hmem)⟩
    rw [hncol, QuerySource.width_eq hnum row hmem]

/-- Where a row could not be fetched, the outputs are not complete. -/
theorem not_complete_failed {states : Nat → RimLite} {j : Nat} (hexec : q.source.executes = true)
    (hnum : q.source.nfield = some numFields)
      (hfetch : Fetches q.source numFields q.source.rows.length states q.source.rowEntries)
        (hj : j < q.source.rows.length) (hfail : q.source.rowEntries j = none)
          (hbefore : ∀ l < j, q.source.rowEntries l ≠ none) (hnrow : o.nrow = some q.source.nrows)
            (hfree : ∀ e ∈ free, e = (.unset, 0)) (hcells : o.cells = filled q.source.rowEntries j ++ free) :
    ¬ ∃ n, q.Complete o n := by
  rintro ⟨n, hn⟩
  rw [QuerySource.nrows_eq hexec] at hnrow
  obtain rfl : q.source.rows.length = n := Option.some.inj (hnrow.symm.trans hn.nrow)
  have hrow := List.getElem?_eq_getElem hj
  have hrowfails : q.source.rowFails j = true := by
    unfold QuerySource.rowEntries at hfail
    by_contra hno
    rw [if_neg hno, hrow] at hfail
    cases hfail
  obtain ⟨v, row', hcons⟩ := List.exists_cons_of_ne_nil (row_ne_nil hrow (Or.inl hrowfails))
  have hv : (q.source.rows[j])[0]? = some v := by rw [hcons]; rfl
  obtain ⟨b, hb, -⟩ := (hn.cells j _ hj hrow).2 0 v hv
  have hlen := length_filled hfetch (Nat.le_of_lt hj) hbefore
  rw [QuerySource.width_eq hnum _ (List.getElem_mem hj), hcells, ← hlen,
    List.getElem?_append_right (Nat.le_add_right _ _)] at hb
  have hunset := hfree _ (List.mem_of_getElem? hb)
  cases hunset

/-- What is left to ask of the rows where there are any to fetch. -/
theorem sound_iff (hexec : q.source.executes = true) (hstore : q.source.storeFails q.wantData = false)
    (hnum : q.source.nfield = some numFields)
    (hnames : q.wantNames = true → ∀ i < numFields, (q.source.columnName i).isSome) (hdata : q.wantData = true) :
    q.Sound ↔ ((∃ r < q.source.rows.length, q.source.rowFails r = true) → q.exits = true) ∧
      ((∀ r < q.source.rows.length, q.source.rowFails r = false) → ∀ row ∈ q.source.rows, blank row q.source =
        false) := by
  unfold Sound
  rw [hstore]
  simp only [hexec, Bool.false_eq_true, if_false, forall_const]
  cases hsrc : q.source with
  | postgres p =>
    refine iff_of_true trivial ⟨fun h => ?_, fun _ _ _ => rfl⟩
    obtain ⟨r, -, hr⟩ := h
    cases hr
  | sqlite l =>
    rw [hsrc] at hnum hnames
    obtain rfl := Option.some.inj hnum
    refine iff_of_true hnames ⟨fun h => ?_, fun _ _ _ => rfl⟩
    obtain ⟨r, -, hr⟩ := h
    cases hr
  | mariadb m =>
    rw [hsrc] at hnum
    simp only [QuerySource.nfield, MariaAnswers.rimMariaNfield, Option.ite_none_left_eq_some, Bool.and_eq_true] at hnum
    simp only [hnum.1, not_false_eq_true, true_and, hdata, forall_const, QuerySource.rows, QuerySource.rowFails, blank]
    cases m.isPrep with
    | false => simp
    | true => simp

def atRows (q : Select) (numFields : Nat) (colNames : Option (List Bytes)) (cells : List (DbCell × Nat)) : SelectOut where
  arow := some q.affected
  ncol := some numFields
  nrow := some q.source.nrows
  colNames := colNames
  cells := cells

/-- Where `rim_select_table` goes on to the rows. -/
theorem rimSelectTable_rows {colNames : Option (List Bytes)} {s : RimLite} (hexec : q.source.executes = true)
    (hstore : q.source.storeFails q.wantData = false) (hnum : q.source.nfield = some numFields)
    (hnames : (if q.wantNames then (nameLoop q.source numFields 0 q.source.lite).map fun (names, s) => (some names, s)
      else some (none, q.source.lite)) = some (colNames, s)) :
    q.rimSelectTable =
      if q.wantData then
        q.selectLoop numFields q.source.nrows 0 RIM_INITIAL_QUERY_BATCH s
          (q.atRows numFields colNames (emptyCells RIM_INITIAL_QUERY_BATCH numFields))
      else .returns { arow := some q.affected, ncol := some numFields, nrow := some 0, colNames } := by
  unfold rimSelectTable
  simp only [hexec, hstore, hnum, hnames, Bool.not_true, Bool.false_eq_true, if_false]
  cases q.wantData with
  | true => rfl
  | false => rfl

/-- The names that are asked for are found. -/
theorem exists_names (hexec : q.source.executes = true)
    (hnames : q.wantNames = true → ∀ i < numFields, (q.source.columnName i).isSome) :
    ∃ colNames k, (if q.wantNames then
        (nameLoop q.source numFields 0 q.source.lite).map fun (names, s) => (some names, s)
      else some (none, q.source.lite)) = some (colNames, q.source.atColumn k) := by
  rw [← QuerySource.atColumn_zero hexec]
  cases hwant : q.wantNames with
  | false => exact ⟨none, 0, rfl⟩
  | true =>
    obtain ⟨names, hloop⟩ := nameLoop_found q.source (n := numFields) (i := 0) fun j hj =>
      hnames hwant j (by omega)
    refine ⟨some names, 0 + numFields, ?_⟩
    rw [if_pos rfl, hloop]
    rfl

/-- Without rows to fetch, the outputs say that there are none. -/
theorem fillsRows_unexecuted (hexec : q.source.executes = false) : q.FillsRows := by
  unfold FillsRows rimSelectTable
  obtain ⟨-, herr⟩ | ⟨-, er, herr⟩ := q.rimHandleError_eq {}
  · rw [hexec, herr]
    trivial
  · rw [hexec, herr]
    refine ⟨0, rfl, Nat.zero_le _, fun r row hr => absurd hr (Nat.not_lt_zero r), fun hs => ?_⟩
    exact Bool.noConfusion (hexec.symm.trans hs.1)

/-- A result that cannot be stored leaves `nrow` as it was. -/
theorem fillsRows_unstored (hexec : q.source.executes = true) (hstore : q.source.storeFails q.wantData = true) :
    q.FillsRows ↔ q.exits = true := by
  have hrun : q.rimSelectTable = q.rimHandleError {} := by
    unfold rimSelectTable
    simp only [hexec, hstore, Bool.not_true, Bool.false_eq_true, if_false, if_true]
  unfold FillsRows
  rw [hrun]
  obtain ⟨hexit, herr⟩ | ⟨hexit, er, herr⟩ := q.rimHandleError_eq {}
  · rw [herr]
    exact iff_of_true trivial hexit
  · rw [herr, hexit]
    refine iff_of_false ?_ Bool.false_ne_true
    rintro ⟨n, hn⟩
    cases hn.nrow

/-- Without metadata, the number of columns is asked of nothing. -/
theorem fillsRows_undescribed (hexec : q.source.executes = true) (hstore : q.source.storeFails q.wantData = false)
    (hnum : q.source.nfield = none) : ¬ q.FillsRows ∧ ¬ q.Sound := by
  constructor
  · have hrun : q.rimSelectTable = .undefined := by
      unfold rimSelectTable
      simp only [hexec, hstore, hnum, Bool.not_true, Bool.false_eq_true, if_false]
    unfold FillsRows
    rw [hrun]
    exact not_false
  · cases hsrc : q.source with
    | postgres p =>
      rw [hsrc] at hnum
      cases hnum
    | sqlite l =>
      rw [hsrc] at hnum
      cases hnum
    | mariadb m =>
      rw [hsrc] at hnum
      have hmeta : m.isPrep = true ∧ m.metaFails = true := by
        by_contra hnot
        rw [← Bool.and_eq_true] at hnot
        have hsome : m.rimMariaNfield = some m.columns.length := if_neg hnot
        rw [QuerySource.nfield, hsome] at hnum
        cases hnum
      intro hsound
      have h := hsound hexec
      rw [if_neg (by simp [hstore]), hsrc] at h
      exact h.1 hmeta

/-- A column without a name, where names are asked for, is one of SQLite. -/
theorem fillsRows_nameless (hexec : q.source.executes = true) (hstore : q.source.storeFails q.wantData = false)
    (hnum : q.source.nfield = some numFields) (hwant : q.wantNames = true) (hi : i < numFields)
      (hname : q.source.columnName i = none) : ¬ q.FillsRows ∧ ¬ q.Sound := by
  constructor
  · have hmissing : nameLoop q.source numFields 0 q.source.lite = none := by
      rw [← QuerySource.atColumn_zero hexec]
      exact nameLoop_missing (Nat.zero_le i) (by omega) hname
    have hrun : q.rimSelectTable = .undefined := by
      unfold rimSelectTable
      simp only [hexec, hstore, hnum, hwant, hmissing, Bool.not_true, Bool.false_eq_true, if_false, if_true,
        Option.map_none]
    unfold FillsRows
    rw [hrun]
    exact not_false
  · cases hsrc : q.source with
    | postgres p =>
      rw [hsrc] at hnum hname
      obtain rfl := Option.some.inj hnum
      exact absurd (List.getElem?_eq_none_iff.mp hname) (Nat.not_le.mpr hi)
    | mariadb m =>
      rw [hsrc] at hnum hname
      simp only [QuerySource.nfield, MariaAnswers.rimMariaNfield, Option.ite_none_left_eq_some, Option.some.injEq] at hnum
      rw [← hnum.2] at hi
      exact absurd (List.getElem?_eq_none_iff.mp hname) (Nat.not_le.mpr hi)
    | sqlite l =>
      rw [hsrc] at hnum hname
      obtain rfl := Option.some.inj hnum
      intro hsound
      have h := hsound hexec
      rw [if_neg (by simp [hstore]), hsrc] at h
      have hsome := h hwant i hi
      rw [hname] at hsome
      cases hsome

/-- Where only the columns are asked for, the outputs say that there are no rows. -/
theorem fillsRows_columns (hexec : q.source.executes = true) (hstore : q.source.storeFails q.wantData = false)
    (hnum : q.source.nfield = some numFields)
    (hnames : q.wantNames = true → ∀ i < numFields, (q.source.columnName i).isSome) (hdata : q.wantData = false) :
    q.FillsRows ∧ q.Sound := by
  constructor
  · obtain ⟨colNames, k, hfound⟩ := exists_names hexec hnames
    have hrun := rimSelectTable_rows hexec hstore hnum hfound
    rw [if_neg (by simp [hdata])] at hrun
    unfold FillsRows
    rw [hrun]
    refine ⟨0, rfl, Nat.zero_le _, fun r row hr => absurd hr (Nat.not_lt_zero r), fun hs => ?_⟩
    exact Bool.noConfusion (hdata.symm.trans hs.2.1)
  · unfold Sound
    rw [hstore]
    simp only [hexec, Bool.false_eq_true, if_false, forall_const]
    cases hsrc : q.source with
    | postgres p => trivial
    | sqlite l =>
      rw [hsrc] at hnum hnames
      obtain rfl := Option.some.inj hnum
      exact hnames
    | mariadb m =>
      rw [hsrc] at hnum
      simp only [QuerySource.nfield, MariaAnswers.rimMariaNfield, Option.ite_none_left_eq_some, Bool.and_eq_true] at hnum
      refine ⟨hnum.1, fun h => ?_⟩
      rw [hdata] at h
      cases h

/-- Where rows are fetched, no row may fail and be returned, and none may be blank. -/
theorem fillsRows_fetched (hexec : q.source.executes = true) (hstore : q.source.storeFails q.wantData = false)
    (hnum : q.source.nfield = some numFields)
    (hnames : q.wantNames = true → ∀ i < numFields, (q.source.columnName i).isSome) (hdata : q.wantData = true) :
    q.FillsRows ↔ q.Sound := by
  rw [sound_iff hexec hstore hnum hnames hdata]
  obtain ⟨colNames, k, hfound⟩ := exists_names hexec hnames
  have hrun := rimSelectTable_rows hexec hstore hnum hfound
  rw [if_pos hdata] at hrun
  obtain ⟨states, hstart, hfetch⟩ := QuerySource.exists_fetches hexec hnum k
  have hempty : ∀ e ∈ emptyCells RIM_INITIAL_QUERY_BATCH numFields, e = (.unset, 0) := by
    intro e he
    exact List.eq_of_mem_replicate he
  have hfails : ∀ r < q.source.rows.length, (q.source.rowEntries r = none ↔ q.source.rowFails r = true) := by
    intro r hr
    unfold QuerySource.rowEntries
    rw [List.getElem?_eq_getElem hr]
    cases q.source.rowFails r with
    | false => simp
    | true => simp
  have hloop := selectLoop_eq q hfetch RIM_INITIAL_QUERY_BATCH (k := q.source.nrows) (r := 0)
    (o := q.atRows numFields colNames (emptyCells RIM_INITIAL_QUERY_BATCH numFields))
    (by rw [Nat.zero_add, QuerySource.nrows_eq hexec]) (fun j hj => absurd hj (Nat.not_lt_zero j)) rfl hempty
    (Nat.zero_le _) List.length_replicate
  rw [hstart, ← hrun] at hloop
  unfold FillsRows
  obtain ⟨hall, free, hend⟩ | ⟨j, hj, hnone, hbefore, free, hfree, hend⟩ := hloop
  · rw [hend]
    have hno : ∀ r < q.source.rows.length, q.source.rowFails r = false := by
      intro r hr
      rw [Bool.eq_false_iff]
      exact fun h => hall r hr ((hfails r hr).mpr h)
    have hnofail : ¬ ∃ r < q.source.rows.length, q.source.rowFails r = true := by
      rintro ⟨r, hr, h⟩
      rw [hno r hr] at h
      cases h
    have hcomplete := complete_filled (q := q) hexec hnum hfetch hall
      (o := q.atRows numFields colNames (filled q.source.rowEntries q.source.rows.length ++ free)) rfl rfl rfl
    exact hcomplete.trans ⟨fun h => ⟨fun hex => absurd hex hnofail, fun _ => h⟩, fun h => h.2 hno⟩
  · have hfail := (hfails j hj).mp hnone
    have hgoal : (((∃ r < q.source.rows.length, q.source.rowFails r = true) → q.exits = true) ∧
        ((∀ r < q.source.rows.length, q.source.rowFails r = false) → ∀ row ∈ q.source.rows, blank row q.source = false)) ↔
          q.exits = true := by
      refine ⟨fun h => h.1 ⟨j, hj, hfail⟩, fun h => ⟨fun _ => h, fun hno => ?_⟩⟩
      rw [hno j hj] at hfail
      cases hfail
    rw [hgoal]
    have herror := q.rimHandleError_eq (q.atRows numFields colNames (filled q.source.rowEntries j ++ free))
    obtain ⟨hexit, herr⟩ | ⟨hexit, er, herr⟩ := herror
    · rw [hend.trans herr]
      exact iff_of_true trivial hexit
    · rw [hend.trans herr, hexit]
      refine iff_of_false ?_ Bool.false_ne_true
      exact not_complete_failed hexec hnum hfetch hj hnone hbefore rfl hfree rfl

/-- The outputs are complete where `rim_select_table` returns if and only if no result is lost on the way. -/
theorem fillsRows_iff (q : Select) : q.FillsRows ↔ q.Sound := by
  cases hexec : q.source.executes with
  | false => exact iff_of_true (fillsRows_unexecuted hexec) fun h => Bool.noConfusion (hexec.symm.trans h)
  | true =>
    cases hstore : q.source.storeFails q.wantData with
    | true =>
      rw [fillsRows_unstored hexec hstore]
      unfold Sound
      simp only [hexec, hstore, if_true, forall_const]
    | false =>
      cases hnum : q.source.nfield with
      | none =>
        obtain ⟨hfills, hsound⟩ := fillsRows_undescribed hexec hstore hnum
        exact iff_of_false hfills hsound
      | some numFields =>
        by_cases hnames : q.wantNames = true → ∀ i < numFields, (q.source.columnName i).isSome
        · cases hdata : q.wantData with
          | false =>
            obtain ⟨hfills, hsound⟩ := fillsRows_columns hexec hstore hnum hnames hdata
            exact iff_of_true hfills hsound
          | true => exact fillsRows_fetched hexec hstore hnum hnames hdata
        · simp only [not_forall, Bool.not_eq_true, Option.isSome_eq_false_iff, Option.isNone_iff_eq_none] at hnames
          obtain ⟨hwant, i, hi, hname⟩ := hnames
          obtain ⟨hfills, hsound⟩ := fillsRows_nameless hexec hstore hnum hwant hi hname
          exact iff_of_false hfills hsound

/-- A prepared statement of two rows, of which the second cannot be fetched. -/
def lostRow : Select where
  source := .mariadb {
    columns := [ascii "a"]
    rows := [[some (ascii "1")], [some (ascii "2")]]
    rect := by decide
    wide := by decide
    isPrep := true
    fetchFails := fun r => r == 1 }
  errorCode := ascii "2008"

/-- There are two rows according to `nrow`, and one of them was filled. -/
theorem not_fillsRows : ¬ lostRow.FillsRows := by
  have hrun : lostRow.rimSelectTable =
      .returns {
        nrow := some 2
        ncol := some 1
        arow := some 0
        cells := (.block [49, 0, 0], 1) :: List.replicate 199 (.unset, 0)
        er := ascii "2008" } := by decide +kernel
  unfold FillsRows
  rw [hrun]
  rintro ⟨n, hn⟩
  obtain rfl : 2 = n := Option.some.inj hn.nrow
  obtain ⟨-, hcells⟩ := hn.cells 1 [some (ascii "2")] (by decide) rfl
  obtain ⟨b, hb, -⟩ := hcells 0 _ rfl
  cases hb

end Select

end RimStone
