import RimStone.Laws.Memory.Release
import RimStone.Lib.Run

/-!
# The table stays partitioned

Over whole runs: from an empty table, through any sequence of calls and any
number of requests, `vm[]` splits into the free list, the ordinary list and the
process-scoped entries, so that `rim_done` releases the ordinary memory and
nothing else.

Two calls break this. A process-scoped block that `rim_realloc` moves while
`rim_mem_process` is not set goes through `rim_add_mem`, which puts its new
entry on the ordinary list, and then gets `RIM_MEM_PROCESS` back: the entry is
on the list and process-scoped, and `rim_done` frees it. And an entry taken when
the table is at its limit is reported after `vm_curr` has counted it.
`MemOp.Guard` is the condition that neither happens.
-/

namespace RimStone

open RimStone.Lib

namespace Mem

/-- The partition of the table: the two lists end, visit no entry twice, and
with the process-scoped entries share out the table; the header of each block in
use names its entry. -/
def Partitioned (m : Mem) : Prop :=
  ∃ free ord : List Nat,
    Chain m.cell m.vmFirstFree free ∧ Chain m.cell m.vmFirstOrd ord ∧
    free.Nodup ∧ ord.Nodup ∧ (∀ r, r ∈ free ∨ r ∈ ord → r < m.vmCurr) ∧
    (∀ r, r < m.vmCurr →
      (r ∈ free ∧ r ∉ ord ∧ (m.vm r).status.free = true) ∨
      (r ∉ free ∧ r ∈ ord ∧ (m.vm r).status.free = false ∧ (m.vm r).status.process = false) ∨
      (r ∉ free ∧ r ∉ ord ∧ (m.vm r).status.free = false ∧ (m.vm r).status.process = true)) ∧
    (∀ r, r < m.vmCurr → (m.vm r).status.free = false →
      ∃ p, (m.vm r).ptr = some p ∧ (m.head p).id = some r)

/-- The end of the request releases every ordinary entry and no process-scoped one. -/
def DoneReleasesOrdinary (m : Mem) : Prop :=
  ∃ m', m.rimDone = .ok m' ∧ ∀ r, r < m.vmCurr → (m.vm r).status.free = false →
    ((m.vm r).status.process = true → m'.vm r = m.vm r) ∧
    ((m.vm r).status.process = false → (m'.vm r).ptr = none ∧ (m'.vm r).status = { free := true })

theorem Inv.partitioned {m : Mem} (h : m.Inv) : m.Partitioned := by
  obtain ⟨free, ord, ht⟩ := h
  refine ⟨free, ord, ht.freeChain, ht.ordChain, Seg.nodup ht.freeChain, Seg.nodup ht.ordChain,
    fun r hr => ?_, fun r hr => ?_, fun r hr => ht.header r hr (by simp)⟩
  · rcases hr with hr | hr
    · exact ((ht.mem_free r).mp hr).1
    · exact ((ht.mem_ord r).mp hr).1
  · have hfree := ht.mem_free r
    have hord := ht.mem_ord r
    cases hf : (m.vm r).status.free with
    | true => exact Or.inl ⟨hfree.mpr ⟨hr, hf, by simp⟩, by simp [hord, hf], rfl⟩
    | false =>
      cases hp : (m.vm r).status.process with
      | false =>
        exact Or.inr (Or.inl ⟨by simp [hfree, hf], hord.mpr ⟨hr, hf, hp, by simp⟩, rfl, rfl⟩)
      | true => exact Or.inr (Or.inr ⟨by simp [hfree, hf], by simp [hord, hp], rfl, rfl⟩)

/-- Under the invariant the end of a request does its work. -/
theorem Inv.doneReleasesOrdinary {m : Mem} (h : m.Inv) : m.DoneReleasesOrdinary := by
  obtain ⟨free, ord, ht⟩ := h
  obtain ⟨m', hok, -, hkeep, hrel⟩ := rimDone_releases ht
  refine ⟨m', hok, fun r hr hf => ⟨fun hp => (hkeep r).resolve_right fun hm => ?_, fun hp => ?_⟩⟩
  · have hord := ((ht.mem_ord r).mp hm).2.2.1
    rw [hp] at hord
    cases hord
  · exact hrel r (ht.mem_ord_of hr hf hp)

end Mem

/-- The condition on a call: an entry it takes is within the table's limit, and
a process-scoped block it moves is moved with `rim_mem_process` set. -/
def MemOp.Guard (m : Mem) : MemOp → Prop
  | .malloc p _ | .calloc p _ _ => p ≠ none → m.Room
  | .realloc s p _ =>
    (m.rimMemGetId s = none → p ≠ none → m.Room) ∧
    (∀ r, m.rimMemGetId s = some r → (m.vm r).status.process = true → p ≠ some s →
      m.rimMemProcess = true)
  | _ => True

namespace Mem

/-- A call that allocates keeps the invariant. -/
theorem malloc_inv {m m' : Mem} (h : m.Inv) {p : Option Addr} (hroom : p ≠ none → m.Room)
    (hfresh : ∀ a, p = some a → m.Fresh a) (size : Nat)
    (ho : Outcome ((·.2) <$> m.rimMalloc p size) m') : m'.Inv := by
  cases p with
  | none =>
    cases ho
    exact h
  | some a =>
    obtain ⟨m₁, hok, hinv, -⟩ := rimMalloc_allocated h (hroom (by simp)) (hfresh a rfl) size
    rw [hok] at ho
    cases ho
    exact hinv

/-- Every guarded call keeps the invariant. -/
theorem step_inv {m m' : Mem} {op : MemOp} (h : m.Inv) (hg : op.Guard m) (hs : m.Step op m') : m'.Inv := by
  obtain ⟨hlegal, ho⟩ := hs
  cases op with
  | setProcess process =>
    cases ho
    obtain ⟨free, ord, ht⟩ := h
    exact ⟨free, ord, ht.congr rfl rfl rfl (fun _ => rfl) (fun _ => rfl) (fun _ => rfl)
      (fun _ => rfl) fun _ => rfl⟩
  | malloc p size => exact malloc_inv h hg hlegal size ho
  | calloc p nmemb size => exact malloc_inv h hg hlegal _ ho
  | realloc s p size => exact rimRealloc_inv h hlegal.1 hlegal.2 hg.1 hg.2 size ho
  | free s =>
    obtain ⟨m₁, hok, hinv⟩ := rimFree_inv h hlegal
    simp only [exec, hok] at ho
    cases ho
    exact hinv
  | addRef s memProcess => exact rimMemAddRef_inv h hlegal memProcess ho
  | decProcess s =>
    cases ho
    exact (rimMemDecProcess_dropped h hlegal).1
  | setStatus s file dir =>
    cases ho
    cases hid : m.rimMemGetId s with
    | none => exact h
    | some r =>
      obtain ⟨free, ord, ht⟩ := h
      refine ⟨free, ord, ht.congr rfl rfl rfl (fun i => ?_) (fun i => ?_) (fun i => ?_)
        (fun i => ?_) fun _ => rfl⟩
      all_goals by_cases hir : i = r <;> simp [rimMemSetStatus, MemStatus.or, hir]
  | done =>
    obtain ⟨free, ord, ht⟩ := h
    obtain ⟨m₁, hok, hinv, -⟩ := rimDone_releases ht
    simp only [exec, hok] at ho
    cases ho
    exact hinv

end Mem

end RimStone
