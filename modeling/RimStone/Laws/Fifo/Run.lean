import RimStone.Fifo.Fifo
import RimStone.Lib.Queue
import RimStone.Lib.Run
import RimStone.Lib.View

/-!
# A FIFO list is a queue

The items of a list are those that were read and those that were not, and the pointer to
the next one is where the second begins (`FifoShape`). When everything was read there is
no such place, and the pointer is `NULL`. `rim_store` sets it in an empty list only: an
element that is stored when all of some elements were read is never ahead. In every run
without such a step a list is a queue (`run_isQueue`).
-/

namespace RimStone

open RimStone.Lib

def FifoItem.elem (e : FifoItem) : RimStr × Addr := (e.name, e.data)

namespace RimFifo

/-- The items of a list: those before the next one to be read, and the others. -/
structure FifoShape (f : RimFifo) (before after : List Addr) : Prop where
  chain : Chain (view FifoItem.next f.items) f.firstPtr (before ++ after)
  last : f.lastPtr = (before ++ after).getLast?
  retrieve : f.retrievePtr = after.head?
  count : f.numOf = (before ++ after).length

def IsQueue (f : RimFifo) (q : Queue (RimStr × Addr)) : Prop :=
  ∃ before after, FifoShape f before after ∧ before.map (view FifoItem.elem f.items) = q.read.map some ∧
    after.map (view FifoItem.elem f.items) = q.unread.map some

variable {f f' : RimFifo} {before after : List Addr} {q : Queue (RimStr × Addr)}

theorem IsQueue.count (h : f.IsQueue q) : f.numOf = q.all.length := by
  obtain ⟨before, after, hs, hb, ha⟩ := h
  have hbl := congrArg List.length hb
  have hal := congrArg List.length ha
  rw [List.length_map, List.length_map] at hbl hal
  rw [hs.count, Queue.all, List.length_append, List.length_append, hbl, hal]

/-- Everything was read where there is no next item. -/
theorem IsQueue.retrieve_none (h : f.IsQueue q) : f.retrievePtr = none ↔ q.unread = [] := by
  obtain ⟨before, after, hs, -, ha⟩ := h
  rw [hs.retrieve]
  cases after with
  | nil =>
    have hu : q.unread = [] := by simpa using ha.symm
    simp [hu]
  | cons a as =>
    have hu : q.unread ≠ [] := by
      intro hu
      rw [hu] at ha
      cases ha
    simp [hu]

theorem init_isQueue (addr : Addr) : (rimStoreInit addr).1.IsQueue {} :=
  ⟨[], [], ⟨.nil, rfl, rfl, rfl⟩, rfl, rfl⟩

/-- `rim_store`, unless all of some elements were read. -/
theorem rimStore_isQueue (h : f.IsQueue q) (hguard : ¬ (f.retrievePtr = none ∧ f.numOf ≠ 0)) {name : RimStr}
    {data np : Addr} (hnew : f.items.lookup np = none) :
    ∃ f' calls, f.rimStore name data np = some (f', calls) ∧ f'.IsQueue (q.store (name, data)) := by
  obtain ⟨before, after, hs, hb, ha⟩ := h
  have hfresh : np ∉ before ++ after := by
    intro hmem
    obtain ⟨e, he⟩ := exists_of_mem_seg hs.chain hmem
    rw [hnew] at he
    cases he
  by_cases hzero : f.numOf = 0
  · -- the first element
    have hnil : before ++ after = [] := by
      have hcount := hs.count
      rw [hzero] at hcount
      exact List.length_eq_zero_iff.mp (by omega)
    obtain ⟨rfl, rfl⟩ := List.append_eq_nil_iff.mp hnil
    have hread : q.read = [] := by simpa using hb.symm
    have hunread : q.unread = [] := by simpa using ha.symm
    let f' : RimFifo :=
      { f with items := f.items.insert np { data, name, next := none }, firstPtr := some np,
               lastPtr := some np, retrievePtr := some np, numOf := f.numOf + 1 }
    refine ⟨f', [.malloc np sizeofFifoItem, .addRef data, .addRef name.addr], ?_, [], [np], ⟨?_, rfl, rfl, ?_⟩, ?_, ?_⟩
    · unfold rimStore
      dsimp only
      rw [if_pos hzero]
      rfl
    · show Chain (view FifoItem.next (AList.insert np _ f.items)) _ _
      rw [view_insert]
      exact .cons (Function.update_self ..) .nil
    · show f.numOf + 1 = _
      rw [hzero]
      rfl
    · show _ = (q.store (name, data)).read.map some
      simp [Queue.store, hread]
    · show List.map (view FifoItem.elem (AList.insert np _ f.items)) _ = _
      rw [view_insert]
      simp [Queue.store, hunread, FifoItem.elem]
  · -- one more element: there is one ahead, and the last one is among these
    have hne : after ≠ [] := by
      rintro rfl
      exact hguard ⟨hs.retrieve, hzero⟩
    obtain ⟨mid, z, rfl⟩ := List.eq_nil_or_concat after |>.resolve_left hne
    rw [List.concat_eq_append] at *
    have hlist : before ++ (mid ++ [z]) = (before ++ mid) ++ [z] := (List.append_assoc ..).symm
    have hchain := hs.chain
    rw [hlist] at hchain
    have hlast : f.lastPtr = some z := by
      rw [hs.last, hlist, List.getLast?_concat]
    obtain ⟨item, hitem, hnext⟩ := view_eq_some.mp (Seg.next_eq hchain)
    have hnpz : z ≠ np := by
      rintro rfl
      exact hfresh (by simp)
    have hlook : AList.lookup z (f.items.insert np { data, name, next := none }) = some item := by
      rw [AList.lookup_insert_ne hnpz]
      exact hitem
    let f' : RimFifo :=
      { f with items := (f.items.insert np { data, name, next := none }).insert z { item with next := some np },
               lastPtr := some np, numOf := f.numOf + 1 }
    -- what the items hold is as before, but for the new one
    have helem : view FifoItem.elem f'.items = Function.update (view FifoItem.elem f.items) np (some (name, data)) := by
      show view FifoItem.elem (AList.insert z _ (AList.insert np _ f.items)) = _
      rw [view_insert, view_insert]
      apply Function.update_eq_self_iff.mpr
      rw [Function.update_of_ne hnpz, view_of_lookup hitem]
      rfl
    have hsplit : np ∉ before ∧ np ∉ mid ++ [z] := by
      rw [List.mem_append, not_or] at hfresh
      exact hfresh
    refine ⟨f', [.malloc np sizeofFifoItem, .addRef data, .addRef name.addr], ?_, before, mid ++ [z, np],
      ⟨?_, ?_, ?_, ?_⟩, ?_, ?_⟩
    · unfold rimStore
      dsimp only
      rw [if_neg hzero, hlast]
      simp only [hlook, bind, Option.bind]
      rfl
    · show Chain (view FifoItem.next (AList.insert z _ (AList.insert np _ f.items))) _ _
      rw [view_insert, view_insert, ← List.append_assoc]
      exact Seg.push hchain (by rwa [← hlist])
    · show some np = _
      rw [show before ++ (mid ++ [z, np]) = (before ++ mid ++ [z]) ++ [np] by simp, List.getLast?_concat]
    · show f.retrievePtr = _
      rw [hs.retrieve]
      cases mid <;> rfl
    · show f.numOf + 1 = _
      rw [hs.count]
      simp only [List.length_append, List.length_cons, List.length_nil]
      omega
    · rw [helem, map_update hsplit.1]
      exact hb
    · rw [helem, show mid ++ [z, np] = (mid ++ [z]) ++ [np] by simp, List.map_append, map_update hsplit.2, ha]
      simp [Queue.store]

/-- `rim_retrieve` -/
theorem rimRetrieve_isQueue (h : f.IsQueue q) :
    ∃ f', f.rimRetrieve = some (f', q.retrieve.2) ∧ f'.IsQueue q.retrieve.1 := by
  obtain ⟨before, after, hs, hb, ha⟩ := h
  unfold rimRetrieve
  rw [hs.retrieve]
  cases after with
  | nil =>
    have hunread : q.unread = [] := by simpa using ha.symm
    refine ⟨f, ?_, ?_⟩
    · simp [Queue.retrieve, hunread]
    · refine ⟨before, [], hs, ?_, ?_⟩
      · simpa [Queue.retrieve, hunread] using hb
      · simp [Queue.retrieve, hunread]
  | cons a as =>
    obtain ⟨item, hitem, hnext⟩ := view_eq_some.mp (Seg.next_eq hs.chain)
    have hlist : before ++ a :: as = (before ++ [a]) ++ as := by simp
    cases hq : q.unread with
    | nil =>
      rw [hq] at ha
      cases ha
    | cons x xs =>
      rw [hq, List.map_cons, List.map_cons, List.cons.injEq, view_of_lookup hitem] at ha
      obtain ⟨hx, hxs⟩ := ha
      obtain rfl := Option.some.inj hx
      refine ⟨{ f with retrievePtr := item.next }, ?_, before ++ [a], as, ⟨?_, ?_, hnext, ?_⟩, ?_, ?_⟩
      · simp [Queue.retrieve, hq, hitem, FifoItem.elem]
      · show Chain (view FifoItem.next f.items) f.firstPtr _
        rw [← hlist]
        exact hs.chain
      · show f.lastPtr = _
        rw [← hlist]
        exact hs.last
      · show f.numOf = _
        rw [← hlist]
        exact hs.count
      · show List.map (view FifoItem.elem f.items) _ = _
        rw [List.map_append, hb]
        simp [Queue.retrieve, hq, view_of_lookup hitem]
      · show List.map (view FifoItem.elem f.items) _ = _
        simp [Queue.retrieve, hq, hxs]

/-- `rim_rewind` -/
theorem rimRewind_isQueue (h : f.IsQueue q) : f.rimRewind.IsQueue q.rewind := by
  obtain ⟨before, after, hs, hb, ha⟩ := h
  refine ⟨[], before ++ after, ⟨hs.chain, hs.last, Seg.head_eq hs.chain, hs.count⟩, rfl, ?_⟩
  show List.map (view FifoItem.elem f.items) _ = List.map some (q.read ++ q.unread)
  rw [List.map_append, List.map_append, hb, ha]

/-- The loop of `rim_fifo_delete` gives up the items before the next one to be read. -/
theorem rimFifoDeleteLoop_shape {fuel : Nat} (hs : FifoShape f before after) (hfuel : before.length ≤ fuel) :
    ∃ f' calls, rimFifoDeleteLoop fuel f = some (f', calls) ∧ FifoShape f' [] after ∧
      after.map (view FifoItem.elem f'.items) = after.map (view FifoItem.elem f.items) := by
  induction before generalizing f fuel with
  | nil =>
    have hstop : f.firstPtr = f.retrievePtr := by rw [hs.retrieve, Seg.head_eq hs.chain, List.nil_append]
    refine ⟨f, [], ?_, hs, rfl⟩
    cases fuel with
    | zero => simp [rimFifoDeleteLoop, hstop]
    | succ fuel => simp [rimFifoDeleteLoop, hstop]
  | cons b bs ih =>
    obtain ⟨fuel, rfl⟩ : ∃ n, fuel = n + 1 := Nat.exists_eq_succ_of_ne_zero (by simp at hfuel; omega)
    have hnd := Seg.nodup hs.chain
    have hb : b ∉ bs ++ after := (List.nodup_cons.mp hnd).1
    have hfirst : f.firstPtr = some b := Seg.head_eq hs.chain
    have hgo : ¬ some b = f.retrievePtr := by
      rw [hs.retrieve]
      intro he
      exact hb (List.mem_append_right _ (List.mem_of_head? he.symm))
    have hcell : view FifoItem.next f.items b = some (bs ++ after).head? := by
      obtain ⟨-, n, hn, hrest⟩ := seg_cons.mp hs.chain
      rw [hn]
      exact congrArg some (Seg.head_eq hrest)
    obtain ⟨item, hitem, hnext⟩ := view_eq_some.mp hcell
    let g : RimFifo :=
      if f.lastPtr = some b then { f with lastPtr := none, firstPtr := none, retrievePtr := none }
      else { f with firstPtr := item.next }
    let f₁ : RimFifo := { g with items := g.items.erase b, numOf := g.numOf - 1 }
    have hg : g.items = f.items ∧ g.numOf = f.numOf := by
      unfold g
      by_cases hl : f.lastPtr = some b
      · rw [if_pos hl]
        exact ⟨rfl, rfl⟩
      · rw [if_neg hl]
        exact ⟨rfl, rfl⟩
    have hrest : Chain (view FifoItem.next f.items) (bs ++ after).head? (bs ++ after) := by
      have hchain := hs.chain
      rw [List.cons_append, ← List.singleton_append] at hchain
      exact Seg.drop hchain
    -- the last item is `b` if there is no other
    have hlast : f.lastPtr = some b ↔ bs ++ after = [] := by
      rw [hs.last, List.cons_append]
      constructor
      · intro hl
        by_contra hne
        rw [List.getLast?_cons_of_ne_nil hne] at hl
        exact hb (List.mem_of_getLast? hl)
      · intro hnil
        rw [hnil]
        rfl
    have hs₁ : FifoShape f₁ bs after := by
      refine ⟨?_, ?_, ?_, ?_⟩
      · show Chain (view FifoItem.next (g.items.erase b)) g.firstPtr _
        rw [hg.1, view_erase]
        have hp : g.firstPtr = (bs ++ after).head? := by
          unfold g
          by_cases hl : f.lastPtr = some b
          · rw [if_pos hl, hlast.mp hl]
            rfl
          · rw [if_neg hl]
            exact hnext
        rw [hp]
        exact hrest.update hb
      · show g.lastPtr = _
        unfold g
        by_cases hl : f.lastPtr = some b
        · rw [if_pos hl, hlast.mp hl]
          rfl
        · rw [if_neg hl]
          show f.lastPtr = _
          rw [hs.last, List.cons_append, List.getLast?_cons_of_ne_nil (fun hnil => hl (hlast.mpr hnil))]
      · show g.retrievePtr = _
        unfold g
        by_cases hl : f.lastPtr = some b
        · rw [if_pos hl, (List.append_eq_nil_iff.mp (hlast.mp hl)).2]
          rfl
        · rw [if_neg hl]
          exact hs.retrieve
      · show g.numOf - 1 = _
        rw [hg.2, hs.count]
        simp
    obtain ⟨f', calls, hloop, hs', hmap⟩ := ih hs₁ (by simp at hfuel; omega)
    refine ⟨f', .decProcess item.data :: .decProcess item.name.addr :: .decProcess b :: calls, ?_, hs', ?_⟩
    · rw [rimFifoDeleteLoop, hfirst, if_neg hgo]
      show (Option.bind (f.items.lookup b) fun item => _) = _
      rw [hitem]
      show (Option.bind (rimFifoDeleteLoop fuel f₁) fun r => _) = _
      rw [hloop]
      rfl
    · rw [hmap]
      show List.map (view FifoItem.elem (g.items.erase b)) after = _
      rw [hg.1, view_erase]
      exact map_update (fun hmem => hb (List.mem_append_right _ hmem))

/-- `rim_fifo_delete` -/
theorem rimFifoDelete_shape (hs : FifoShape f before after) :
    ∃ f' calls, f.rimFifoDelete = some (f', calls) ∧ FifoShape f' [] after ∧
      after.map (view FifoItem.elem f'.items) = after.map (view FifoItem.elem f.items) := by
  unfold rimFifoDelete
  by_cases hnone : f.firstPtr = none
  · have hnil := (Seg.eq_nil_iff hs.chain).mpr hnone
    obtain ⟨rfl, rfl⟩ := List.append_eq_nil_iff.mp hnil
    exact ⟨f, [], if_pos hnone, hs, rfl⟩
  · rw [if_neg hnone]
    apply rimFifoDeleteLoop_shape hs
    have hle := length_le_entries (Seg.nodup hs.chain) fun _ ha => exists_of_mem_seg hs.chain ha
    rw [List.length_append] at hle
    omega

theorem rimFifoDelete_isQueue (h : f.IsQueue q) :
    ∃ f' calls, f.rimFifoDelete = some (f', calls) ∧ f'.IsQueue q.delete := by
  obtain ⟨before, after, hs, -, ha⟩ := h
  obtain ⟨f', calls, hdel, hs', hmap⟩ := rimFifoDelete_shape hs
  exact ⟨f', calls, hdel, [], after, hs', rfl, hmap.trans ha⟩

/-- `rim_purge`, which deletes everything as if all were read. -/
theorem rimPurge_isQueue (h : f.IsQueue q) (addr : Addr) :
    ∃ f' calls, f.rimPurge addr = some (f', calls) ∧ f'.IsQueue {} := by
  obtain ⟨before, after, hs, -, -⟩ := h
  have hall : FifoShape { f with retrievePtr := none } (before ++ after) [] := by
    refine ⟨?_, ?_, rfl, ?_⟩
    · rw [List.append_nil]
      exact hs.chain
    · rw [List.append_nil]
      exact hs.last
    · rw [List.append_nil]
      exact hs.count
  obtain ⟨f', calls, hdel, -, -⟩ := rimFifoDelete_shape hall
  refine ⟨(rimStoreInit addr).1, calls ++ .decProcess f'.addr :: (rimStoreInit addr).2, ?_, init_isQueue addr⟩
  unfold rimPurge
  rw [hdel]
  rfl

end RimFifo

/-! ## Runs -/

def FifoOp.onQueue (q : Queue (RimStr × Addr)) : FifoOp → Queue (RimStr × Addr) × Option (RimStr × Addr)
  | .store name data _ => (q.store (name, data), none)
  | .retrieve => q.retrieve
  | .rewind => (q.rewind, none)
  | .delete => (q.delete, none)
  | .purge _ => ({}, none)

def FifoOp.Legal (f : RimFifo) : FifoOp → Prop
  | .store _ _ np => f.items.lookup np = none
  | _ => True

/-- Nothing is stored while there are elements and all were read. -/
def FifoOp.Guard (f : RimFifo) : FifoOp → Prop
  | .store _ _ _ => ¬ (f.retrievePtr = none ∧ f.numOf ≠ 0)
  | _ => True

abbrev FifoEvent := FifoOp × Option (RimStr × Addr)

namespace RimFifo

def Step (f : RimFifo) (ev : FifoEvent) (f' : RimFifo) : Prop :=
  ev.1.Legal f ∧ ∃ calls, f.exec ev.1 = some (f', calls, ev.2)

variable {f f' : RimFifo} {q : Queue (RimStr × Addr)}

/-- An operation that is allowed returns, with the answer of the queue. -/
theorem exec_isQueue (h : f.IsQueue q) {op : FifoOp} (hl : op.Legal f) (hg : op.Guard f) :
    ∃ f' calls, f.exec op = some (f', calls, (op.onQueue q).2) ∧ f'.IsQueue (op.onQueue q).1 := by
  cases op with
  | store name data np =>
    obtain ⟨f', calls, hstore, hq⟩ := rimStore_isQueue h hg hl
    refine ⟨f', calls, ?_, hq⟩
    simp only [exec, hstore, bind, Option.bind, FifoOp.onQueue]
  | retrieve =>
    obtain ⟨f', hret, hq⟩ := rimRetrieve_isQueue h
    refine ⟨f', [], ?_, hq⟩
    simp only [exec, hret, bind, Option.bind, FifoOp.onQueue]
  | rewind => exact ⟨f.rimRewind, [], rfl, rimRewind_isQueue h⟩
  | delete =>
    obtain ⟨f', calls, hdel, hq⟩ := rimFifoDelete_isQueue h
    refine ⟨f', calls, ?_, hq⟩
    simp only [exec, hdel, bind, Option.bind, FifoOp.onQueue]
  | purge addr =>
    obtain ⟨f', calls, hpurge, hq⟩ := rimPurge_isQueue h addr
    refine ⟨f', calls, ?_, hq⟩
    simp only [exec, hpurge, bind, Option.bind, FifoOp.onQueue]

theorem step_isQueue {ev : FifoEvent} (h : f.IsQueue q) (hg : ev.1.Guard f) (hs : f.Step ev f') :
    ev.2 = (ev.1.onQueue q).2 ∧ f'.IsQueue (ev.1.onQueue q).1 := by
  obtain ⟨hl, calls, hexec⟩ := hs
  obtain ⟨f₁, calls₁, hexec₁, hq⟩ := exec_isQueue h hl hg
  obtain ⟨rfl, hout⟩ := Prod.mk.inj (Option.some.inj (hexec.symm.trans hexec₁))
  exact ⟨(Prod.mk.inj hout).2, hq⟩

/-- Where all of some elements were read, an element that is stored is not ahead. -/
theorem rimStore_behind {name : RimStr} {data np : Addr} {calls : List MemCall}
    (hstore : f.rimStore name data np = some (f', calls)) (hread : f.retrievePtr = none) (hsome : f.numOf ≠ 0) :
    ¬ f'.IsQueue (q.store (name, data)) := by
  intro hq
  unfold rimStore at hstore
  dsimp only at hstore
  rw [if_neg hsome] at hstore
  obtain ⟨last, -, hstore⟩ := Option.bind_eq_some_iff.mp hstore
  obtain ⟨item, -, hstore⟩ := Option.bind_eq_some_iff.mp hstore
  obtain ⟨rfl, -⟩ := Prod.mk.inj (Option.some.inj hstore)
  have hnone := hq.retrieve_none.mp hread
  simp [Queue.store] at hnone

/-- In a run that stores nothing behind the reading position, a list is a queue: every
operation was answered as the queue answers, the elements are counted, and the next
operation goes on so if and only if it stores nothing there. -/
theorem run_isQueue {addr : Addr} {evs : List FifoEvent} {f : RimFifo}
    (hrun : GuardedRun Step (fun f ev => ev.1.Guard f) (rimStoreInit addr).1 evs f) :
    ∃ q, Answers FifoOp.onQueue {} evs q ∧ f.IsQueue q ∧ f.numOf = q.all.length ∧
      ∀ op : FifoOp, op.Legal f →
        ((∃ f' calls, f.exec op = some (f', calls, (op.onQueue q).2) ∧ f'.IsQueue (op.onQueue q).1) ↔ op.Guard f) := by
  obtain ⟨q, hans, hq⟩ := hrun.answers (fun h hg hs => step_isQueue h hg hs) (init_isQueue addr)
  refine ⟨q, hans, hq, hq.count, ?_⟩
  intro op hl
  constructor
  · intro hex
    obtain ⟨f', calls, hexec, hq'⟩ := hex
    cases op with
    | store name data np =>
      obtain ⟨⟨f₁, calls₁⟩, hstore, hout⟩ := Option.bind_eq_some_iff.mp hexec
      obtain ⟨rfl, -⟩ := Prod.mk.inj (Option.some.inj hout)
      exact fun hbad => rimStore_behind hstore hbad.1 hbad.2 hq'
    | retrieve => trivial
    | rewind => trivial
    | delete => trivial
    | purge addr => trivial
  · exact exec_isQueue hq hl

/-- A string is stored, read and deleted, and another one stored and read. -/
theorem run_isQueue_two : ∃ f q, Answers FifoOp.onQueue {}
      [(.store ⟨1, [97]⟩ 2 10, none), (.retrieve, some (⟨1, [97]⟩, 2)), (.delete, none),
        (.store ⟨3, [98]⟩ 4 11, none), (.retrieve, some (⟨3, [98]⟩, 4))] q ∧ IsQueue f q := by
  have hlast : ∃ f, GuardedRun Step (fun f ev => ev.1.Guard f) (rimStoreInit 0).1
      [(.store ⟨1, [97]⟩ 2 10, none), (.retrieve, some (⟨1, [97]⟩, 2)), (.delete, none),
        (.store ⟨3, [98]⟩ 4 11, none), (.retrieve, some (⟨3, [98]⟩, 4))] f :=
    ⟨_, .cons (fun h => h.2 rfl) ⟨rfl, _, rfl⟩ (.cons trivial ⟨trivial, _, rfl⟩ (.cons trivial ⟨trivial, _, rfl⟩
      (.cons (fun h => h.2 rfl) ⟨rfl, _, rfl⟩ (.cons trivial ⟨trivial, _, rfl⟩ (.nil _)))))⟩
  obtain ⟨f, hrun⟩ := hlast
  obtain ⟨q, hans, hq, -⟩ := run_isQueue hrun
  exact ⟨f, q, hans, hq⟩

/-- An element that is stored after all were read is not retrieved. -/
theorem run_not_isQueue : ¬ ∀ (addr : Addr) (evs : List FifoEvent) (f : RimFifo),
    Run Step (rimStoreInit addr).1 evs f → ∃ q, Answers FifoOp.onQueue {} evs q := by
  intro h
  obtain ⟨q, hans⟩ := h 0 [(.store ⟨1, [97]⟩ 2 10, none), (.retrieve, some (⟨1, [97]⟩, 2)),
    (.store ⟨3, [98]⟩ 4 11, none), (.retrieve, none)] _
    (.cons trivial ⟨rfl, _, rfl⟩ (.cons trivial ⟨trivial, _, rfl⟩ (.cons trivial ⟨rfl, _, rfl⟩
      (.cons trivial ⟨trivial, _, rfl⟩ (.nil _)))))
  obtain ⟨-, -, -, hlast, -⟩ := hans
  cases hlast

end RimFifo

end RimStone
