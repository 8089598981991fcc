import RimStone.Laws.Fifo.Run

/-!
# A LIFO list returns the newest first

`rim_store_l` puts an item in front of all others and reading begins with it, so what was read stays between the
new item and what is ahead no more: the whole list is ahead (`Queue.push`). Everything else is shared with FIFO lists,
and what these do was never about the order in which items came. So there is no step to except here: in every run a
list is a queue that is pushed to (`run_isLifo`).
-/

namespace RimStone

open RimStone.Lib

namespace RimFifo

variable {f f' : RimFifo} {q : Queue (RimStr × Addr)}

/-- `rim_store_l`, whatever was read. -/
theorem rimStoreL_isQueue (h : f.IsQueue q) {name : RimStr} {data np : Addr} (hnew : f.items.lookup np = none) :
    (f.rimStoreL name data np).1.IsQueue (q.push (name, data)) := by
  obtain ⟨before, after, hs, hb, ha⟩ := h
  have hfresh : np ∉ before ++ after := by
    intro hmem
    obtain ⟨e, he⟩ := exists_of_mem_seg hs.chain hmem
    rw [hnew] at he
    cases he
  have hfirst : f.firstPtr = (before ++ after).head? := Seg.head_eq hs.chain
  have hempty : f.numOf = 0 ↔ before ++ after = [] := by
    rw [hs.count, ← List.length_eq_zero_iff]
    omega
  -- the first item there was comes next, and there was none in an empty list
  have hnext : (if f.numOf = 0 then none else f.firstPtr) = (before ++ after).head? := by
    split
    next hzero => rw [hempty.mp hzero, List.head?_nil]
    next => exact hfirst
  have hview : ∀ {γ : Type} (p : FifoItem → γ), view p (f.rimStoreL name data np).1.items =
      Function.update (view p f.items) np (some (p { data, name, next := (before ++ after).head? })) := by
    intro γ p
    unfold rimStoreL
    rw [hnext]
    exact view_insert
  refine ⟨[], np :: (before ++ after), ⟨?_, ?_, ?_, ?_⟩, rfl, ?_⟩
  · -- the chain goes on from the new item
    rw [hview, List.nil_append]
    apply Seg.cons (Function.update_self ..)
    rw [← hfirst]
    exact hs.chain.update hfresh
  · show (if f.numOf = 0 then some np else f.lastPtr) = _
    split
    next hzero => rw [hempty.mp hzero]; rfl
    next hsome => rw [hs.last, List.nil_append, List.getLast?_cons_of_ne_nil (fun hnil => hsome (hempty.mpr hnil))]
  · rfl
  · show f.numOf + 1 = _
    rw [hs.count, List.nil_append, List.length_cons]
    omega
  · rw [hview, List.map_cons, Function.update_self, map_update hfresh, List.map_append, hb, ha]
    simp [Queue.push, Queue.all, FifoItem.elem]

end RimFifo

/-! ## Runs -/

/-- What an operation means for a queue that is pushed to. -/
def FifoOp.onLifo (q : Queue (RimStr × Addr)) : FifoOp → Queue (RimStr × Addr) × Option (RimStr × Addr)
  | .store name data _ => (q.push (name, data), none)
  | .retrieve => q.retrieve
  | .rewind => (q.rewind, none)
  | .delete => (q.delete, none)
  | .purge _ => ({}, none)

namespace RimFifo

/-- One operation on a LIFO list, from one list to the next. -/
def StepL (f : RimFifo) (ev : FifoEvent) (f' : RimFifo) : Prop :=
  ev.1.Legal f ∧ ∃ calls, f.execL ev.1 = some (f', calls, ev.2)

variable {f f' : RimFifo} {q : Queue (RimStr × Addr)}

/-- An operation other than to store means the same for both kinds of list. -/
theorem execL_eq {op : FifoOp} (h : ∀ name data np, op ≠ .store name data np) :
    f.execL op = f.exec op ∧ op.onLifo q = op.onQueue q := by
  cases op with
  | store name data np => exact absurd rfl (h name data np)
  | retrieve => exact ⟨rfl, rfl⟩
  | rewind => exact ⟨rfl, rfl⟩
  | delete => exact ⟨rfl, rfl⟩
  | purge addr => exact ⟨rfl, rfl⟩

/-- An operation returns, with the answer of the queue. -/
theorem execL_isQueue (h : f.IsQueue q) {op : FifoOp} (hl : op.Legal f) :
    ∃ f' calls, f.execL op = some (f', calls, (op.onLifo q).2) ∧ f'.IsQueue (op.onLifo q).1 := by
  by_cases hstore : ∃ name data np, op = .store name data np
  · obtain ⟨name, data, np, rfl⟩ := hstore
    exact ⟨_, _, rfl, rimStoreL_isQueue h hl⟩
  · have hother : ∀ name data np, op ≠ .store name data np := by
      intro name data np hop
      exact hstore ⟨name, data, np, hop⟩
    have hguard : op.Guard f := by
      cases op with
      | store name data np => exact absurd rfl (hother name data np)
      | retrieve => trivial
      | rewind => trivial
      | delete => trivial
      | purge addr => trivial
    obtain ⟨hexec, hmeans⟩ := execL_eq (f := f) (q := q) hother
    rw [hexec, hmeans]
    exact exec_isQueue h hl hguard

theorem stepL_isQueue {ev : FifoEvent} (h : f.IsQueue q) (hs : f.StepL ev f') :
    ev.2 = (ev.1.onLifo q).2 ∧ f'.IsQueue (ev.1.onLifo q).1 := by
  obtain ⟨hl, calls, hexec⟩ := hs
  obtain ⟨f₁, calls₁, hexec₁, hq⟩ := execL_isQueue h hl
  obtain ⟨rfl, hout⟩ := Prod.mk.inj (Option.some.inj (hexec.symm.trans hexec₁))
  exact ⟨(Prod.mk.inj hout).2, hq⟩

/-- In every run a LIFO list is a queue that is pushed to: every operation was answered as that answers, the
elements are counted, and every next operation returns and goes on so. -/
theorem run_isLifo {addr : Addr} {evs : List FifoEvent} {f : RimFifo} (hrun : Run StepL (rimStoreInit addr).1 evs f) :
    ∃ q, Answers FifoOp.onLifo {} evs q ∧ f.IsQueue q ∧ f.numOf = q.all.length ∧
      ∀ op : FifoOp, op.Legal f →
        ∃ f' calls, f.execL op = some (f', calls, (op.onLifo q).2) ∧ f'.IsQueue (op.onLifo q).1 := by
  obtain ⟨q, hans, hq⟩ := hrun.answers (fun h _ hs => stepL_isQueue h hs) (init_isQueue addr)
  exact ⟨q, hans, hq, hq.count, fun op hl => execL_isQueue hq hl⟩

/-- Two strings are stored, the newer is read and deleted, one more is stored, and both are read. -/
theorem run_isLifo_three : ∃ f q, Answers FifoOp.onLifo {}
      [(.store ⟨1, [97]⟩ 2 10, none), (.store ⟨3, [98]⟩ 4 11, none), (.retrieve, some (⟨3, [98]⟩, 4)),
        (.delete, none), (.store ⟨5, [99]⟩ 6 12, none), (.retrieve, some (⟨5, [99]⟩, 6)),
        (.retrieve, some (⟨1, [97]⟩, 2)), (.retrieve, none)] q ∧ IsQueue f q := by
  have hlast : ∃ f, Run StepL (rimStoreInit 0).1
      [(.store ⟨1, [97]⟩ 2 10, none), (.store ⟨3, [98]⟩ 4 11, none), (.retrieve, some (⟨3, [98]⟩, 4)),
        (.delete, none), (.store ⟨5, [99]⟩ 6 12, none), (.retrieve, some (⟨5, [99]⟩, 6)),
        (.retrieve, some (⟨1, [97]⟩, 2)), (.retrieve, none)] f :=
    ⟨_, .cons trivial ⟨rfl, _, rfl⟩ (.cons trivial ⟨rfl, _, rfl⟩ (.cons trivial ⟨trivial, _, rfl⟩
      (.cons trivial ⟨trivial, _, rfl⟩ (.cons trivial ⟨rfl, _, rfl⟩ (.cons trivial ⟨trivial, _, rfl⟩
      (.cons trivial ⟨trivial, _, rfl⟩ (.cons trivial ⟨trivial, _, rfl⟩ (.nil _))))))))⟩
  obtain ⟨f, hrun⟩ := hlast
  obtain ⟨q, hans, hq, -⟩ := run_isLifo hrun
  exact ⟨f, q, hans, hq⟩

end RimFifo

end RimStone
