import RimStone.Laws.LinkedList.Links
import RimStone.Lib.Run

/-!
# A linked list is a sequence with a cursor

Every statement on a list does to it what `ListOp.onCursor` does to a sequence with a
cursor, and tells the same. The one exception is a `read-list` that has none of its
optional clauses, when there is no current item: it sets the key and the value to
variables that were never set.
-/

namespace RimStone

open RimStone.Lib

/-- What a clause of `position-list` means; nothing if there is no such place. -/
def ListWhere.move (c : Cursor (RimStr × Addr)) : ListWhere → Option (Cursor (RimStr × Addr))
  | .first => if c.all = [] then none else some c.toFirst
  | .last => c.toEnd.toPrevious
  | .atEnd => if c.all = [] then none else some c.toEnd
  | .previous => c.toPrevious
  | .next => c.toNext

/-- What a statement does to a sequence with a cursor, and tells. -/
def ListOp.onCursor (c : Cursor (RimStr × Addr)) : ListOp → Cursor (RimStr × Addr) × ListOut
  | .write name data append _ => ((if append then c.toEnd else c).insert (name, data), {})
  | .read cl =>
    match c.current with
    | none => (c, .of none .errExist cl.status)
    | some pair =>
      (c.modify fun e => (cl.updateKey.getD e.1, cl.updateValue.getD e.2), .of (some pair) .okay cl.status)
  | .position dest status =>
    match dest.move c with
    | none => (c, .of none .errExist status)
    | some c' => (c', .of none .okay status)
  | .delete status =>
    match c.delete with
    | none => (c, .of none .errExist status)
    | some c' => (c', .of none .okay status)
  | .purge _ => ({}, {})

def ListOp.Legal (f : RimList) : ListOp → Prop
  | .write _ _ _ np => f.items.lookup np = none
  | _ => True

def ListOp.Guard (f : RimList) : ListOp → Prop
  | .read cl => ¬ (cl.any = false ∧ f.curr = none)
  | _ => True

abbrev ListEvent := ListOp × ListOut

namespace RimList

def Step (f : RimList) (ev : ListEvent) (f' : RimList) : Prop :=
  ev.1.Legal f ∧ ∃ calls, f.exec ev.1 = some (f', calls, ev.2)

variable {f f' : RimList} {A B : List Addr} {c : Cursor (RimStr × Addr)}

theorem fresh_of_legal (hs : ListShape f A B) {np : Addr} (hnew : f.items.lookup np = none) : np ∉ A ++ B := by
  intro hmem
  obtain ⟨e, he⟩ := hs.present np hmem
  rw [hnew] at he
  cases he

/-- A new item holds its element, and the others what they held. -/
theorem isCursor_insert {np : Addr} {name : RimStr} {data : Addr} (hs' : ListShape f' A (np :: B))
    (helem : view ListItem.elem f'.items = Function.update (view ListItem.elem f.items) np (some (name, data)))
    (hA : A.map (view ListItem.elem f.items) = c.before.map some)
    (hB : B.map (view ListItem.elem f.items) = c.after.map some) (hnew : np ∉ A ++ B) :
    f'.IsCursor (c.insert (name, data)) := by
  rw [List.mem_append, not_or] at hnew
  refine ⟨A, np :: B, hs', ?_, ?_⟩
  · rw [helem, map_update hnew.1]
    exact hA
  · rw [List.map_cons, helem, map_update hnew.2, Function.update_self, hB]
    rfl

/-- `rim_list_store` -/
theorem rimListStore_isCursor (h : f.IsCursor c) (name : RimStr) (data : Addr) {np : Addr}
    (hnew : f.items.lookup np = none) :
    ∃ f' calls, f.rimListStore name data false np = some (f', calls) ∧ f'.IsCursor (c.insert (name, data)) := by
  obtain ⟨A, B, hs, hA, hB⟩ := h
  have hfresh := fresh_of_legal hs hnew
  cases B with
  | nil =>
    rcases List.eq_nil_or_concat A with rfl | ⟨A, z, rfl⟩
    · obtain ⟨f', hstore, hs', helem⟩ := rimListStore_empty hs name data np
      exact ⟨f', _, hstore, isCursor_insert hs' helem hA hB hfresh⟩
    · rw [List.concat_eq_append] at *
      rw [List.append_nil] at hfresh
      obtain ⟨f', hstore, hs', helem⟩ := rimListStore_end hs name data hfresh
      exact ⟨f', _, hstore, isCursor_insert hs' helem hA hB (by rwa [List.append_nil])⟩
  | cons x B =>
    obtain ⟨f', hstore, hs', helem⟩ := rimListStore_before hs name data hfresh
    exact ⟨f', _, hstore, isCursor_insert hs' helem hA hB hfresh⟩

theorem toEnd_isCursor (h : f.IsCursor c) : { f with curr := none }.IsCursor c.toEnd := by
  obtain ⟨A, B, hs, hA, hB⟩ := h
  apply IsCursor.move (A ++ B) [] hs hA hB rfl (List.append_nil _) c.all_toEnd
  show (A ++ B).length = (c.before ++ c.after).length
  rw [List.length_append, List.length_append, length_of_map hA, length_of_map hB]

/-- `rim_list_delete` -/
theorem rimListDelete_isCursor (h : f.IsCursor c) :
    match c.delete with
    | none => f.rimListDelete = some (f, [], .errExist)
    | some c' => ∃ f' calls, f.rimListDelete = some (f', calls, .okay) ∧ f'.IsCursor c' := by
  obtain ⟨A, B, hs, hA, hB⟩ := h
  cases B with
  | nil =>
    have hafter : c.after = [] := by simpa using hB.symm
    unfold Cursor.delete
    rw [hafter]
    dsimp only
    unfold rimListDelete
    rw [hs.curr]
    rfl
  | cons x B =>
    obtain ⟨a, as, hafter⟩ : ∃ a as, c.after = a :: as := by
      cases hc : c.after with
      | nil =>
        rw [hc] at hB
        cases hB
      | cons a as => exact ⟨a, as, rfl⟩
    rw [hafter, List.map_cons, List.map_cons, List.cons.injEq] at hB
    obtain ⟨-, hB⟩ := hB
    have hxA : x ∉ A := fun h => (List.nodup_append.mp hs.nodup).2.2 x h x (List.mem_cons_self ..) rfl
    have hxB : x ∉ B := (List.nodup_cons.mp (List.nodup_append.mp hs.nodup).2.1).1
    obtain ⟨f', e, -, hdel, hs', helem, -, -⟩ := rimListDelete_shape hs
    unfold Cursor.delete
    rw [hafter]
    cases B with
    | nil =>
      -- the last item: the one before it becomes current
      have has : as = [] := by simpa using hB.symm
      subst has
      refine ⟨f', _, hdel, ?_⟩
      dsimp only at hs' ⊢
      rcases List.eq_nil_or_concat A with rfl | ⟨A, p, rfl⟩
      · have hbefore : c.before = [] := by simpa using hA.symm
        rw [hbefore]
        exact ⟨[], [], hs', rfl, rfl⟩
      · rw [List.concat_eq_append] at *
        have hlen := length_of_map hA
        rcases List.eq_nil_or_concat c.before with hbefore | ⟨bs, b, hbefore⟩
        · rw [hbefore] at hlen
          simp at hlen
        · rw [List.concat_eq_append] at hbefore
          have hmap := (helem _ hxA).trans hA
          rw [hbefore, List.map_append, List.map_append] at hmap
          obtain ⟨hbs, hb⟩ := List.append_inj' hmap rfl
          rw [List.dropLast_concat, List.getLast?_concat] at hs'
          rw [hbefore]
          refine ⟨A, [p], hs', ?_, ?_⟩
          · simpa [Cursor.toPrevious] using hbs
          · simpa [Cursor.toPrevious] using hb
    | cons n B =>
      obtain ⟨a', as', rfl⟩ : ∃ a' as', as = a' :: as' := by
        cases as with
        | nil => cases hB
        | cons a' as' => exact ⟨a', as', rfl⟩
      exact ⟨f', _, hdel, A, n :: B, hs', (helem _ hxA).trans hA, (helem _ hxB).trans hB⟩

/-- A list with a sequence in it is empty if the sequence is. -/
theorem numOf_eq_zero (h : f.IsCursor c) : f.numOf = 0 ↔ c.all = [] := by
  rw [h.count, ← List.length_eq_zero_iff]
  omega

/-- `position-list` -/
theorem position_isCursor (h : f.IsCursor c) (dest : ListWhere) :
    match dest.move c with
    | none => f.position dest = some (f, .errExist)
    | some c' => ∃ f', f.position dest = some (f', .okay) ∧ f'.IsCursor c' := by
  have hzero := numOf_eq_zero h
  obtain ⟨A, B, hs, hA, hB⟩ := h
  have hal := length_of_map hA
  have hbl := length_of_map hB
  cases dest with
  | first =>
    unfold ListWhere.move RimList.position
    dsimp only
    by_cases hz : f.numOf = 0
    · rw [if_pos (hzero.mp hz)]
      exact if_pos hz
    · rw [if_neg (fun h => hz (hzero.mpr h))]
      refine ⟨_, if_neg hz, IsCursor.move [] (A ++ B) hs hA hB (Seg.head_eq hs.links.forward) rfl rfl rfl⟩
  | last =>
    unfold ListWhere.move RimList.position Cursor.toPrevious
    dsimp only [Cursor.toEnd]
    by_cases hz : f.numOf = 0
    · rw [hzero.mp hz]
      exact if_pos hz
    · have hne : A ++ B ≠ [] := by
        intro hnil
        rw [hs.count, hnil] at hz
        exact hz rfl
      obtain ⟨l, z, hlist⟩ := (List.eq_nil_or_concat (A ++ B)).resolve_left hne
      obtain ⟨es, e, hall⟩ := (List.eq_nil_or_concat c.all).resolve_left (fun h => hz (hzero.mpr h))
      rw [List.concat_eq_append] at hlist hall
      rw [hall, List.getLast?_concat, List.dropLast_concat]
      refine ⟨_, if_neg hz, IsCursor.move l [z] hs hA hB ?_ hlist.symm hall.symm ?_⟩
      · rw [hs.links.last_eq, hlist, List.getLast?_concat]
        rfl
      · have hlen : (l ++ [z]).length = (es ++ [e]).length := by
          rw [← hlist, ← hall]
          show (A ++ B).length = (c.before ++ c.after).length
          rw [List.length_append, List.length_append, hal, hbl]
        rw [List.length_append, List.length_append] at hlen
        exact Nat.add_right_cancel hlen
  | atEnd =>
    unfold ListWhere.move RimList.position
    dsimp only
    by_cases hz : f.numOf = 0
    · rw [if_pos (hzero.mp hz)]
      exact if_pos hz
    · rw [if_neg (fun h => hz (hzero.mpr h))]
      refine ⟨_, if_neg hz, toEnd_isCursor ⟨A, B, hs, hA, hB⟩⟩
  | previous =>
    unfold ListWhere.move RimList.position Cursor.toPrevious
    dsimp only
    rcases List.eq_nil_or_concat A with rfl | ⟨A, p, rfl⟩
    · -- the first item is current, or there is none
      have hbefore : c.before = [] := by simpa using hA.symm
      have hfirst : f.curr = f.first := by rw [hs.curr, hs.links.first_eq, List.nil_append]
      rw [hbefore]
      show (if _ then _ else if _ then _ else _) = _
      rw [if_pos hfirst, ite_self]
    · rw [List.concat_eq_append] at *
      rcases List.eq_nil_or_concat c.before with hbefore | ⟨es, e, hbefore⟩
      · rw [hbefore] at hal
        simp at hal
      rw [List.concat_eq_append] at hbefore
      rw [hbefore, List.getLast?_concat, List.dropLast_concat]
      have hz : f.numOf ≠ 0 := by
        rw [hs.count]
        simp
        omega
      have hfirst : f.curr ≠ f.first := by
        rw [hs.curr, hs.links.first_eq]
        cases B with
        | nil => cases A <;> simp
        | cons x B =>
          intro he
          have hhead : ((A ++ [p]) ++ x :: B).head? = (A ++ [p]).head? := by cases A <;> rfl
          rw [hhead] at he
          have hmem := List.mem_of_head? he.symm
          exact (List.nodup_append.mp hs.nodup).2.2 x hmem x (List.mem_cons_self ..) rfl
      have hmove : { f with curr := some p }.IsCursor { before := es, after := e :: c.after } := by
        apply IsCursor.move A (p :: B) hs hA hB rfl (by simp)
        · show es ++ e :: c.after = c.before ++ c.after
          rw [hbefore, List.append_assoc, List.singleton_append]
        · rw [hbefore, List.length_append, List.length_append] at hal
          exact Nat.add_right_cancel hal
      refine ⟨_, ?_, hmove⟩
      rw [if_neg hz, if_neg hfirst, hs.curr]
      cases B with
      | nil =>
        have hlast : f.last = some p := by rw [hs.links.last_eq, List.append_nil, List.getLast?_concat]
        rw [← hlast]
        rfl
      | cons x B =>
        obtain ⟨ex, hex⟩ := hs.present x (by simp)
        have hprev : ex.prev = some p := by
          rw [← link_of_lookup hex (p := ListItem.prev), hs.links.prev_eq, List.getLast?_concat]
        show (Option.bind (f.items.lookup x) fun item => _) = _
        rw [hex, ← hprev]
        rfl
  | next =>
    unfold ListWhere.move RimList.position Cursor.toNext Cursor.current
    dsimp only
    cases B with
    | nil =>
      have hafter : c.after = [] := by simpa using hB.symm
      rw [hafter, hs.curr]
      exact ite_self _
    | cons x B =>
      obtain ⟨e, es, hafter⟩ : ∃ e es, c.after = e :: es := by
        cases hc : c.after with
        | nil =>
          rw [hc] at hB
          cases hB
        | cons e es => exact ⟨e, es, rfl⟩
      have hz : f.numOf ≠ 0 := by
        rw [hs.count]
        simp
        omega
      obtain ⟨ex, hex⟩ := hs.present x (by simp)
      have hnext : ex.next = B.head? := by
        rw [← link_of_lookup hex (p := ListItem.next)]
        exact hs.links.next_eq
      rw [hafter]
      have hmove : { f with curr := ex.next }.IsCursor { before := c.before ++ [e], after := es } := by
        apply IsCursor.move (A ++ [x]) B hs hA hB hnext (by simp)
        · show (c.before ++ [e]) ++ es = c.before ++ c.after
          rw [hafter, List.append_assoc, List.singleton_append]
        · rw [List.length_append, List.length_append, hal]
          rfl
      refine ⟨_, ?_, hmove⟩
      have hcurr : f.curr = some x := hs.curr
      rw [if_neg hz, hcurr]
      show (Option.bind (f.items.lookup x) fun item => _) = _
      rw [hex]
      rfl

/-- `read-list`, unless it reads nothing into its variables. -/
theorem read_isCursor (h : f.IsCursor c) (cl : ReadListClauses) (hguard : ¬ (cl.any = false ∧ f.curr = none)) :
    match c.current with
    | none => f.read cl = some (f, [], none, .errExist)
    | some e => ∃ f' calls, f.read cl = some (f', calls, some e, .okay) ∧
        f'.IsCursor (c.modify fun e => (cl.updateKey.getD e.1, cl.updateValue.getD e.2)) := by
  have hnone := h.curr_none
  obtain ⟨A, B, hs, hA, hB⟩ := h
  unfold Cursor.current
  cases B with
  | nil =>
    have hafter : c.after = [] := by simpa using hB.symm
    have hcurr : f.curr = none := hs.curr
    have hany : cl.any = true := by
      by_contra hno
      exact hguard ⟨by simpa using hno, hcurr⟩
    rw [hafter]
    simp [RimList.read, rimListRetrieve, hcurr, hany]
  | cons x B =>
    obtain ⟨a, as, hafter⟩ : ∃ a as, c.after = a :: as := by
      cases hc : c.after with
      | nil =>
        rw [hc] at hB
        cases hB
      | cons a as => exact ⟨a, as, rfl⟩
    rw [hafter, List.map_cons, List.map_cons, List.cons.injEq] at hB
    obtain ⟨hx, hB⟩ := hB
    obtain ⟨e, he, rfl⟩ := view_eq_some.mp hx
    have hcurr : f.curr = some x := hs.curr
    have hxA : x ∉ A := fun h => (List.nodup_append.mp hs.nodup).2.2 x h x (List.mem_cons_self ..) rfl
    have hxB : x ∉ B := (List.nodup_cons.mp (List.nodup_append.mp hs.nodup).2.1).1
    have hret : f.rimListRetrieve = some (some e.elem) := by
      unfold rimListRetrieve
      rw [hcurr]
      show (Option.bind (f.items.lookup x) fun item => _) = _
      rw [he]
      rfl
    rw [hafter]
    show ∃ f' calls, f.read cl = some (f', calls, some e.elem, .okay) ∧ _
    cases hany : cl.any with
    | false =>
      -- without a clause nothing is updated
      have hkey : cl.updateKey = none := by
        cases hk : cl.updateKey with
        | none => rfl
        | some k => simp [ReadListClauses.any, hk] at hany
      have hvalue : cl.updateValue = none := by
        cases hv : cl.updateValue with
        | none => rfl
        | some v => simp [ReadListClauses.any, hv] at hany
      refine ⟨f, [], ?_, A, x :: B, hs, hA, ?_⟩
      · simp [RimList.read, hret, hany]
      · rw [List.map_cons, view_of_lookup he, hB, hkey, hvalue]
        show _ = ((c.after.modifyHead _).map some)
        rw [hafter]
        rfl
    | true =>
      refine ⟨{ f with items := f.items.insert x (cl.update e) }, cl.calls e, ?_, A, x :: B,
        ⟨?_, hs.curr, hs.count, ?_⟩, ?_, ?_⟩
      · simp only [RimList.read, hret, hany, hcurr, he, setItem, if_true, bind, Option.bind, Option.map_some]
      · have hnext : link ListItem.next (AList.insert x (cl.update e) f.items) = _ := link_insert_same he rfl
        have hprev : link ListItem.prev (AList.insert x (cl.update e) f.items) = _ := link_insert_same he rfl
        show DList (link ListItem.next (AList.insert x _ f.items)) (link ListItem.prev (AList.insert x _ f.items)) _ _ _
        rw [hnext, hprev]
        exact hs.links
      · exact fun a ha => exists_insert (Or.inr (hs.present a ha))
      · show A.map (view ListItem.elem (AList.insert x _ f.items)) = _
        rw [view_insert, map_update hxA]
        exact hA
      · show (x :: B).map (view ListItem.elem (AList.insert x _ f.items)) = (c.after.modifyHead _).map some
        rw [view_insert, List.map_cons, map_update hxB, hB, hafter, Function.update_self]
        rfl

/-- `rim_list_purge` -/
theorem rimListPurge_isCursor (h : f.IsCursor c) (addr : Addr) :
    ∃ f' calls, f.rimListPurge addr = some (f', calls) ∧ f'.IsCursor {} := by
  obtain ⟨A, B, hs, -, -⟩ := h
  have hn : (A ++ B).length = f.numOf.toNat := by
    rw [hs.count]
    rfl
  obtain ⟨old, hloop, -⟩ := rimListPurgeLoop_shape hs hn
  refine ⟨(rimListInit f.process addr).1,
    (A ++ B).flatMap (itemCalls f.items) ++ .decProcess old.addr :: (rimListInit f.process addr).2, ?_,
    init_isCursor f.process addr⟩
  unfold rimListPurge
  rw [hloop]
  rfl

/-- A statement that is allowed returns, and does and tells what it means for a sequence
with a cursor. -/
theorem exec_isCursor (h : f.IsCursor c) {op : ListOp} (hl : op.Legal f) (hg : op.Guard f) :
    ∃ f' calls, f.exec op = some (f', calls, (op.onCursor c).2) ∧ f'.IsCursor (op.onCursor c).1 := by
  cases op with
  | write name data append np =>
    cases append with
    | false =>
      obtain ⟨f', calls, hstore, hc⟩ := rimListStore_isCursor h name data hl
      refine ⟨f', calls, ?_, hc⟩
      simp only [exec, hstore, bind, Option.bind, ListOp.onCursor]
    | true =>
      have hl' : ({ f with curr := none } : RimList).items.lookup np = none := hl
      obtain ⟨f', calls, hstore, hc⟩ := rimListStore_isCursor (toEnd_isCursor h) name data hl'
      refine ⟨f', calls, ?_, hc⟩
      simp only [exec, rimListStore_append, hstore, bind, Option.bind, ListOp.onCursor]
  | read cl =>
    have hread := read_isCursor h cl hg
    cases hcur : c.current with
    | none =>
      rw [hcur] at hread
      simp only [exec, hread, bind, Option.bind, ListOp.onCursor, hcur]
      exact ⟨f, [], rfl, h⟩
    | some e =>
      rw [hcur] at hread
      obtain ⟨f', calls, hread, hc⟩ := hread
      simp only [exec, hread, bind, Option.bind, ListOp.onCursor, hcur]
      exact ⟨f', calls, rfl, hc⟩
  | position dest status =>
    have hpos := position_isCursor h dest
    cases hmove : dest.move c with
    | none =>
      rw [hmove] at hpos
      simp only [exec, hpos, bind, Option.bind, ListOp.onCursor, hmove]
      exact ⟨f, [], rfl, h⟩
    | some c' =>
      rw [hmove] at hpos
      obtain ⟨f', hpos, hc⟩ := hpos
      simp only [exec, hpos, bind, Option.bind, ListOp.onCursor, hmove]
      exact ⟨f', [], rfl, hc⟩
  | delete status =>
    have hdel := rimListDelete_isCursor h
    cases hd : c.delete with
    | none =>
      rw [hd] at hdel
      simp only [exec, hdel, bind, Option.bind, ListOp.onCursor, hd]
      exact ⟨f, [], rfl, h⟩
    | some c' =>
      rw [hd] at hdel
      obtain ⟨f', calls, hdel, hc⟩ := hdel
      simp only [exec, hdel, bind, Option.bind, ListOp.onCursor, hd]
      exact ⟨f', calls, rfl, hc⟩
  | purge addr =>
    obtain ⟨f', calls, hpurge, hc⟩ := rimListPurge_isCursor h addr
    refine ⟨f', calls, ?_, hc⟩
    simp only [exec, hpurge, bind, Option.bind, ListOp.onCursor]

/-- A `read-list` without a clause is undefined where there is no current item. -/
theorem exec_undefined {op : ListOp} (hg : ¬ op.Guard f) : f.exec op = none := by
  cases op with
  | read cl =>
    obtain ⟨hany, hcurr⟩ := not_not.mp hg
    simp [exec, RimList.read, rimListRetrieve, hany, hcurr]
  | write => exact absurd trivial hg
  | position => exact absurd trivial hg
  | delete => exact absurd trivial hg
  | purge => exact absurd trivial hg

theorem step_isCursor {ev : ListEvent} (h : f.IsCursor c) (hg : ev.1.Guard f) (hs : f.Step ev f') :
    ev.2 = (ev.1.onCursor c).2 ∧ f'.IsCursor (ev.1.onCursor c).1 := by
  obtain ⟨hl, calls, hexec⟩ := hs
  obtain ⟨f₁, calls₁, hexec₁, hc⟩ := exec_isCursor h hl hg
  obtain ⟨rfl, hout⟩ := Prod.mk.inj (Option.some.inj (hexec.symm.trans hexec₁))
  exact ⟨(Prod.mk.inj hout).2, hc⟩

/-- In a run that reads without a clause only where there is a current item, a list is a
sequence with a cursor: every statement did and told what it means for one, and the next
statement does if and only if it is not such a reading. -/
theorem run_isCursor {process : Bool} {addr : Addr} {evs : List ListEvent} {f : RimList}
    (hrun : GuardedRun Step (fun f ev => ev.1.Guard f) (rimListInit process addr).1 evs f) :
    ∃ c, Answers ListOp.onCursor {} evs c ∧ f.IsCursor c ∧ f.numOf = c.all.length ∧
      ∀ op : ListOp, op.Legal f →
        ((∃ f' calls, f.exec op = some (f', calls, (op.onCursor c).2)) ↔ op.Guard f) := by
  obtain ⟨c, hans, hc⟩ := hrun.answers (fun h hg hs => step_isCursor h hg hs) (init_isCursor process addr)
  refine ⟨c, hans, hc, hc.count, ?_⟩
  intro op hl
  constructor
  · intro hex
    obtain ⟨f', calls, hexec⟩ := hex
    by_contra hg
    rw [exec_undefined hg] at hexec
    cases hexec
  · intro hg
    obtain ⟨f', calls, hexec, -⟩ := exec_isCursor hc hl hg
    exact ⟨f', calls, hexec⟩

/-- Two elements, the second before the first, and back. -/
theorem run_isCursor_two : ∃ f c, Answers ListOp.onCursor {}
      [(.write ⟨1, [97]⟩ 2 false 10, {}), (.write ⟨3, [98]⟩ 4 false 11, {}), (.position .next true, {}),
        (.read {}, { pair := some (⟨1, [97]⟩, 2) }), (.delete true, {}),
        (.read {}, { pair := some (⟨3, [98]⟩, 4) })] c ∧ IsCursor f c := by
  have hlast : ∃ f, GuardedRun Step (fun f ev => ev.1.Guard f) (rimListInit false 0).1
      [(.write ⟨1, [97]⟩ 2 false 10, {}), (.write ⟨3, [98]⟩ 4 false 11, {}), (.position .next true, {}),
        (.read {}, { pair := some (⟨1, [97]⟩, 2) }), (.delete true, {}),
        (.read {}, { pair := some (⟨3, [98]⟩, 4) })] f :=
    ⟨_, .cons trivial ⟨rfl, _, rfl⟩ (.cons trivial ⟨rfl, _, rfl⟩ (.cons trivial ⟨trivial, _, rfl⟩
      (.cons (fun h => nomatch h.2) ⟨trivial, _, rfl⟩ (.cons trivial ⟨trivial, _, rfl⟩
        (.cons (fun h => nomatch h.2) ⟨trivial, _, rfl⟩ (.nil _))))))⟩
  obtain ⟨f, hrun⟩ := hlast
  obtain ⟨c, hans, hc, -⟩ := run_isCursor hrun
  exact ⟨f, c, hans, hc⟩

/-- In an empty list `read-list` without a clause has no result. -/
theorem run_not_isCursor : ¬ ∀ (process : Bool) (addr : Addr) (evs : List ListEvent) (f : RimList),
    Run Step (rimListInit process addr).1 evs f →
      ∃ c, f.IsCursor c ∧ ∀ op : ListOp, op.Legal f → ∃ f' calls, f.exec op = some (f', calls, (op.onCursor c).2) := by
  intro h
  obtain ⟨c, -, hexec⟩ := h false 0 [] _ (.nil _)
  obtain ⟨f', calls, hread⟩ := hexec (.read {}) trivial
  cases hread

end RimList

end RimStone
