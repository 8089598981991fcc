import RimStone.Laws.Memory.Table
import Mathlib.Data.List.Perm.Subperm

/-!
# The operations keep the table partitioned

One lemma for each call of `rimmem.c`: it returns, it keeps the invariant, and
what it does to the blocks as the program sees them. `Allocated` is the view of
a new block, `BlockChange` the view of a call that changes one block's status
and count; both leave every other block alone, although the entries may have
moved in the table.

`rim_realloc` of a block that moves is a release and a new entry. Its last step
sets `RIM_MEM_PROCESS` on an entry that `rim_add_mem` may just have put on the
ordinary list, so it keeps the invariant only when the mode in which the entry
was added agrees with the scope the block had (`rimRealloc_inv`).
-/

namespace RimStone.Mem

open RimStone.Lib

/-- The table is partitioned, by some pair of lists. -/
def Inv (m : Mem) : Prop := ∃ free ord, TableInv m free ord none

theorem inv_init : ({} : Mem).Inv :=
  ⟨[], [], .nil, .nil, fun i => by simp, fun i => by simp, fun i hi => by simp at hi,
    fun i hi => by simp at hi⟩

section Views

variable {m m' : Mem}

/-- The view of a call that gave out a new block at `p`. -/
structure Allocated (m : Mem) (p : Addr) (m' : Mem) : Prop where
  mode : m'.rimMemProcess = m.rimMemProcess
  holds : ∀ q status ref, m'.Holds q status ref ↔
    (q = p ∧ status = { process := m.rimMemProcess } ∧ ref = 0) ∨ (q ≠ p ∧ m.Holds q status ref)
  const : ∀ q, m'.rimMemGetId q = none ↔ q ≠ p ∧ m.rimMemGetId q = none

/-- The view of a call that changed the block at `s` by `f`. -/
structure BlockChange (m : Mem) (s : Addr) (f : MemStatus → Int → MemStatus × Int)
    (m' : Mem) : Prop where
  mode : m'.rimMemProcess = m.rimMemProcess
  holds : ∀ q status ref, m'.Holds q status ref ↔ (q ≠ s ∧ m.Holds q status ref) ∨
    (q = s ∧ ∃ status₀ ref₀, m.Holds s status₀ ref₀ ∧ f status₀ ref₀ = (status, ref))
  const : ∀ q, m'.rimMemGetId q = none ↔ m.rimMemGetId q = none

/-- A block has one status and one count. -/
theorem Inv.holds_unique (h : m.Inv) {p : Addr} {status status' : MemStatus} {ref ref' : Int}
    (hp : m.Holds p status ref) (hp' : m.Holds p status' ref') : status = status' ∧ ref = ref' := by
  obtain ⟨free, ord, ht⟩ := h
  obtain ⟨r, hr, hptr, rfl, rfl, hf⟩ := hp
  obtain ⟨r', hr', hptr', rfl, rfl, hf'⟩ := hp'
  obtain rfl := ht.entry_unique hr (by simp) hf hptr hr' (by simp) hf' hptr'
  exact ⟨rfl, rfl⟩

/-- A live pointer is a constant or a block in use. -/
theorem live_iff (s : Addr) : m.Live s ↔ m.rimMemGetId s = none ∨ ∃ status ref, m.Holds s status ref := by
  constructor
  · rintro (hc | ⟨r, hr, hf, hp⟩)
    · exact Or.inl hc
    · exact Or.inr ⟨_, _, r, hr, hp, rfl, rfl, hf⟩
  · rintro (hc | ⟨_, _, r, hr, hp, rfl, rfl, hf⟩)
    · exact Or.inl hc
    · exact Or.inr ⟨r, hr, hf, hp⟩

theorem Inv.not_const (h : m.Inv) {p : Addr} {status : MemStatus} {ref : Int}
    (hp : m.Holds p status ref) : m.rimMemGetId p ≠ none := by
  obtain ⟨free, ord, ht⟩ := h
  obtain ⟨r, hr, hptr, rfl, rfl, hf⟩ := hp
  rw [ht.id_eq hr (by simp) hf hptr]
  simp

/-- A call that changes only status and count of the entry of block `s`, and
neither releases the entry nor moves the block, changes only that block. -/
theorem blockChange_of_vm {r : Nat} {s : Addr} {g : Vml → Vml}
    {f : MemStatus → Int → MemStatus × Int} (hr : r < m.vmCurr)
    (hfree : (m.vm r).status.free = false) (hptr : (m.vm r).ptr = some s)
    (huniq : ∀ i, i < m.vmCurr → (m.vm i).status.free = false → (m.vm i).ptr = some s → i = r)
    (hg : (g (m.vm r)).ptr = (m.vm r).ptr)
    (hgf : (g (m.vm r)).status.free = false)
    (hfg : f (m.vm r).status (m.vm r).ref = ((g (m.vm r)).status, (g (m.vm r)).ref))
    (hvm : ∀ i, (m'.vm i).ptr = (if i = r then g (m.vm r) else m.vm i).ptr ∧
      (m'.vm i).status = (if i = r then g (m.vm r) else m.vm i).status ∧
      (m'.vm i).ref = (if i = r then g (m.vm r) else m.vm i).ref)
    (hcurr : m'.vmCurr = m.vmCurr) (hmode : m'.rimMemProcess = m.rimMemProcess)
    (hid : ∀ p, (m'.head p).id = (m.head p).id) : BlockChange m s f m' := by
  refine ⟨hmode, fun q status ref => ?_, fun q => by simp only [rimMemGetId, hid]⟩
  constructor
  · rintro ⟨i, hi, hp, rfl, rfl, hf⟩
    obtain ⟨hvp, hvs, hvr⟩ := hvm i
    rw [hcurr] at hi
    rw [hvs] at hf ⊢
    rw [hvp] at hp
    rw [hvr]
    by_cases hir : i = r
    · subst hir
      rw [if_pos rfl, hg, hptr] at hp
      obtain rfl := Option.some.inj hp
      exact Or.inr ⟨rfl, _, _, ⟨i, hr, hptr, rfl, rfl, hfree⟩, by rw [if_pos rfl]; exact hfg⟩
    · rw [if_neg hir] at hp hf ⊢
      refine Or.inl ⟨?_, i, hi, hp, rfl, rfl, hf⟩
      rintro rfl
      exact hir (huniq i hi hf hp)
  · rintro (⟨hne, i, hi, hp, rfl, rfl, hf⟩ | ⟨rfl, status₀, ref₀, ⟨i, hi, hp, rfl, rfl, hf⟩, he⟩)
    · obtain ⟨hvp, hvs, hvr⟩ := hvm i
      have hir : i ≠ r := by
        rintro rfl
        exact hne (Option.some.inj (hp.symm.trans hptr))
      rw [if_neg hir] at hvp hvs hvr
      exact ⟨i, hcurr ▸ hi, hvp.trans hp, hvs, hvr, hf⟩
    · obtain rfl := huniq i hi hf hp
      obtain ⟨hvp, hvs, hvr⟩ := hvm i
      rw [if_pos rfl] at hvp hvs hvr
      obtain ⟨h1, h2⟩ := Prod.mk.inj (hfg.symm.trans he)
      exact ⟨i, hcurr ▸ hr, hvp.trans (hg.trans hp), hvs.trans h1, hvr.trans h2, h1 ▸ hgf⟩

theorem Inv.blockChange_const (h : m.Inv) {s : Addr} (hc : m.rimMemGetId s = none)
    (f : MemStatus → Int → MemStatus × Int) : BlockChange m s f m := by
  refine ⟨rfl, fun q status ref => ⟨fun hq => ?_, ?_⟩, fun _ => Iff.rfl⟩
  · refine Or.inl ⟨?_, hq⟩
    rintro rfl
    exact h.not_const hq hc
  · rintro (⟨-, hq⟩ | ⟨-, _, _, hs, -⟩)
    · exact hq
    · exact absurd hc (h.not_const hs)

/-- What happens to a block after its entry moved happens to it. -/
theorem SameBlocks.blockChange {m₁ : Mem} (hb : SameBlocks m m₁) (hmode : m₁.rimMemProcess = m.rimMemProcess) {s : Addr}
    {f : MemStatus → Int → MemStatus × Int} (hc : BlockChange m₁ s f m') :
    BlockChange m s f m' := by
  refine ⟨hc.mode.trans hmode, fun q status ref => ?_, fun q => (hc.const q).trans (hb.const q)⟩
  simp only [hc.holds, hb.holds]

end Views

/-! ## Allocating -/

section Alloc

variable {m : Mem} {p : Addr}

/-- `rim_add_mem` and `rim_vmset` hand out a block. -/
theorem rimAddMem_allocated (h : m.Inv) (hroom : m.Room) (hfresh : m.Fresh p) :
    ∃ r m', m.rimAddMem p = .ok (r, m') ∧
      (m'.vm r).status = ({ process := m.rimMemProcess } : MemStatus) ∧
      (m'.rimVmset p r).Inv ∧ Allocated m p (m'.rimVmset p r) := by
  obtain ⟨free, ord, ht⟩ := h
  obtain ⟨r, m₁, free', htake, ht₁, htaken⟩ := takeVm_taken ht hroom
  have hr : r < m₁.vmCurr := (htaken.curr r).mpr (Or.inr rfl)
  have hother : ∀ i, i < m₁.vmCurr → i ≠ r → i < m.vmCurr := fun i hi hir =>
    ((htaken.curr i).mp hi).resolve_right hir
  have huse : ∀ i, i < m.vmCurr → (m.vm i).status.free = false → i ≠ r := by
    rintro i hi hf rfl
    rw [htaken.unused hi] at hf
    cases hf
  refine ⟨r, m₁.fillVm r p, by simp only [rimAddMem, htake, bind, Except.bind], ?_,
    ⟨_, _, ht₁.fill hr fun i hi hir hf => ?_⟩, ⟨?_, fun q status ref => ?_, fun q => ?_⟩⟩
  · have hvm := fill_vm m₁ r p r
    rw [if_pos rfl, htaken.mode] at hvm
    exact congrArg Vml.status hvm
  · rw [htaken.vm] at hf ⊢
    exact hfresh i (hother i hi hir) hf
  · rw [fill_rimMemProcess, htaken.mode]
  · constructor
    · rintro ⟨i, hi, hq, rfl, rfl, hf⟩
      rw [fill_vmCurr] at hi
      rw [fill_vm] at hq hf ⊢
      by_cases hir : i = r
      · rw [if_pos hir] at hq ⊢
        exact Or.inl ⟨(Option.some.inj hq).symm, by rw [← htaken.mode], rfl⟩
      · rw [if_neg hir, htaken.vm] at hq hf ⊢
        have hi' := hother i hi hir
        exact Or.inr ⟨fun e => hfresh i hi' hf (e ▸ hq), i, hi', hq, rfl, rfl, hf⟩
    · rintro (⟨rfl, rfl, rfl⟩ | ⟨-, i, hi, hq, rfl, rfl, hf⟩)
      · exact ⟨r, by rw [fill_vmCurr]; exact hr, by rw [fill_vm, if_pos rfl],
          by rw [fill_vm, if_pos rfl, htaken.mode], by rw [fill_vm, if_pos rfl], rfl⟩
      · have hir := huse i hi hf
        refine ⟨i, ?_, ?_, ?_, ?_, hf⟩
        · rw [fill_vmCurr]; exact (htaken.curr i).mpr (Or.inl hi)
        all_goals rw [fill_vm, if_neg hir, htaken.vm]
        exact hq
  · simp only [rimMemGetId, fill_head, htaken.head]
    by_cases hqp : q = p <;> simp [hqp]

/-- Setting a length changes neither the table nor the view. -/
theorem TableInv.setLen {m : Mem} {free ord : List Nat} {hole : Option Nat}
    (h : TableInv m free ord hole) (p : Addr) (n : Nat) :
    TableInv (m.rimMemSetLen p n) free ord hole :=
  h.congr rfl rfl rfl (fun _ => rfl) (fun _ => rfl) (fun _ => rfl) (fun _ => rfl) fun q => by
    by_cases hq : q = p <;> simp [rimMemSetLen, hq]

/-- `rim_malloc` with room gives out a new block. -/
theorem rimMalloc_allocated (h : m.Inv) (hroom : m.Room) (hfresh : m.Fresh p) (size : Nat) :
    ∃ m', m.rimMalloc (some p) size = .ok (p, m') ∧ m'.Inv ∧ Allocated m p m' := by
  obtain ⟨r, m₁, hadd, -, ⟨free, ord, ht⟩, ha⟩ := rimAddMem_allocated h hroom hfresh
  refine ⟨(m₁.rimVmset p r).rimMemSetLen p size, ?_, ⟨free, ord, ht.setLen p size⟩, ⟨ha.mode, ha.holds, fun q => ?_⟩⟩
  · simp only [rimMalloc, hadd, bind, Except.bind]
  · have hid : ((m₁.rimVmset p r).rimMemSetLen p size).rimMemGetId q =
        (m₁.rimVmset p r).rimMemGetId q := by
      by_cases hq : q = p <;> simp [rimMemGetId, rimMemSetLen, hq]
    rw [hid]
    exact ha.const q

end Alloc

/-! ## References -/

/-- What a reference from a process-scoped holder does to a block. -/
def referred (status : MemStatus) (ref : Int) : MemStatus × Int :=
  if status.process then (status, bitField9 (ref + 1)) else (status.or { process := true }, 1)

def dropped (status : MemStatus) (ref : Int) : MemStatus × Int :=
  if status.process then
    let ref := if ref > 0 then bitField9 (ref - 1) else ref
    if ref = 0 then ({ status with process := false }, 1) else (status, ref)
  else (status, ref)

section References

variable {m : Mem} {s : Addr}

/-- An entry in use that is not process-scoped is on the ordinary list. -/
theorem TableInv.mem_ord_of {free ord : List Nat} (h : TableInv m free ord none) {r : Nat}
    (hr : r < m.vmCurr) (hf : (m.vm r).status.free = false)
    (hp : (m.vm r).status.process = false) : r ∈ ord :=
  (h.mem_ord r).mpr ⟨hr, hf, hp, by simp⟩

/-- A process-scoped entry may be taken into transit as it is. -/
theorem TableInv.lift {free ord : List Nat} (h : TableInv m free ord none) {r : Nat} (hf : (m.vm r).status.free = false)
    (hp : (m.vm r).status.process = true) : TableInv m free ord (some r) := by
  refine ⟨h.freeChain, h.ordChain, fun i => ?_, fun i => ?_, fun i hi _ => h.scope i hi (by simp),
    fun i hi _ => h.header i hi (by simp)⟩
  · rw [h.mem_free i]
    constructor
    · rintro ⟨h1, h2, -⟩
      refine ⟨h1, h2, fun e => ?_⟩
      rw [← Option.some.inj e, hf] at h2
      cases h2
    · rintro ⟨h1, h2, -⟩
      exact ⟨h1, h2, by simp⟩
  · rw [h.mem_ord i]
    constructor
    · rintro ⟨h1, h2, h3, -⟩
      refine ⟨h1, h2, h3, fun e => ?_⟩
      rw [← Option.some.inj e, hp] at h3
      cases h3
    · rintro ⟨h1, h2, h3, -⟩
      exact ⟨h1, h2, h3, by simp⟩

/-- The entry in transit settles in process scope. -/
theorem TableInv.settle {free ord : List Nat} {r : Nat} (h : TableInv m free ord (some r))
    {m' : Mem} (hf : (m'.vm r).status.free = false) (hp : (m'.vm r).status.process = true)
    {q : Addr} (hq : (m'.vm r).ptr = some q) (hid : (m'.head q).id = some r)
    (hother : ∀ i, i ≠ r → m'.vm i = m.vm i) (hnext : (m'.vm r).next = (m.vm r).next)
    (hhead : m'.head = m.head) (hcurr : m'.vmCurr = m.vmCurr)
    (hfree : m'.vmFirstFree = m.vmFirstFree) (hord : m'.vmFirstOrd = m.vmFirstOrd) :
    TableInv m' free ord none := by
  have hcell : m'.cell = m.cell := by
    funext i
    by_cases hir : i = r
    · simp [cell, hir, hnext]
    · simp [cell, hother i hir]
  have hne : ∀ i, i ≠ r → some r ≠ some i := fun i hi e => hi (Option.some.inj e).symm
  refine ⟨?_, ?_, fun i => ?_, fun i => ?_, fun i hi _ hfi => ?_, fun i hi _ hfi => ?_⟩
  · rw [hcell, hfree]; exact h.freeChain
  · rw [hcell, hord]; exact h.ordChain
  · rw [h.mem_free i, hcurr]
    by_cases hir : i = r
    · simp [hir, hf]
    · simp [hother i hir, Ne.symm hir]
  · rw [h.mem_ord i, hcurr]
    by_cases hir : i = r
    · simp [hir, hp]
    · simp [hother i hir, Ne.symm hir]
  · by_cases hir : i = r
    · rw [hir, hf] at hfi
      cases hfi
    · rw [hother i hir] at hfi ⊢
      exact h.scope i (hcurr ▸ hi) (hne i hir) hfi
  · by_cases hir : i = r
    · exact ⟨q, hir ▸ hq, hir ▸ hid⟩
    · rw [hother i hir] at hfi ⊢
      rw [hhead]
      exact h.header i (hcurr ▸ hi) (hne i hir) hfi

/-- The entry in transit goes back on the ordinary list. -/
theorem TableInv.addOrd {free ord : List Nat} {r : Nat} (h : TableInv m free ord (some r))
    (hr : r < m.vmCurr) (hf : (m.vm r).status.free = false)
    (hp : (m.vm r).status.process = false) {q : Addr} (hq : (m.vm r).ptr = some q)
    (hid : (m.head q).id = some r) : TableInv (m.rimMemAddOrd r) free (r :: ord) none := by
  have hrfree : r ∉ free := fun hm => ((h.mem_free r).mp hm).2.2 rfl
  have hrord : r ∉ ord := fun hm => ((h.mem_ord r).mp hm).2.2.2 rfl
  have hne : ∀ i, i ≠ r → some r ≠ some i := fun i hi e => hi (Option.some.inj e).symm
  have hcell : ∀ i, i ≠ r → (m.rimMemAddOrd r).cell i = m.cell i := by
    intro i hi
    simp [cell, rimMemAddOrd, hi]
  refine ⟨?_, ?_, fun i => ?_, fun i => ?_, fun i hi _ hfi => ?_, fun i hi _ hfi => ?_⟩
  · exact h.freeChain.congr fun a ha => hcell a (ne_of_mem_of_not_mem ha hrfree)
  · refine .cons (n := m.vmFirstOrd) (by simp [cell, rimMemAddOrd]) ?_
    exact h.ordChain.congr fun a ha => hcell a (ne_of_mem_of_not_mem ha hrord)
  · by_cases hir : i = r
    · simp [rimMemAddOrd, hir, hrfree, hf]
    · simp [rimMemAddOrd, hir, h.mem_free i, Ne.symm hir]
  · by_cases hir : i = r
    · simp [rimMemAddOrd, hir, hr, hf, hp]
    · simp [rimMemAddOrd, hir, h.mem_ord i, Ne.symm hir]
  · by_cases hir : i = r
    · simp [rimMemAddOrd, hir, hf] at hfi
    · simp only [rimMemAddOrd, setVm_vm, if_neg hir] at hfi ⊢
      exact h.scope i hi (hne i hir) hfi
  · by_cases hir : i = r
    · exact ⟨q, by simpa [rimMemAddOrd, hir] using hq, by simpa [rimMemAddOrd, hir] using hid⟩
    · simp only [rimMemAddOrd, setVm_vm, if_neg hir] at hfi ⊢
      exact h.header i hi (hne i hir) hfi

/-- The entry in transit may hold anything. -/
theorem TableInv.editHole {free ord : List Nat} {r : Nat} (h : TableInv m free ord (some r))
    {m' : Mem} (hother : ∀ i, i ≠ r → m'.vm i = m.vm i) (hhead : m'.head = m.head)
    (hcurr : m'.vmCurr = m.vmCurr) (hfree : m'.vmFirstFree = m.vmFirstFree)
    (hord : m'.vmFirstOrd = m.vmFirstOrd) : TableInv m' free ord (some r) := by
  have hrfree : r ∉ free := fun hm => ((h.mem_free r).mp hm).2.2 rfl
  have hrord : r ∉ ord := fun hm => ((h.mem_ord r).mp hm).2.2.2 rfl
  have hcell : ∀ i, i ≠ r → m'.cell i = m.cell i := by
    intro i hi
    simp only [cell, hother i hi]
  have hvm : ∀ i, some r ≠ some i → m'.vm i = m.vm i := fun i hi =>
    hother i fun e => hi (e ▸ rfl)
  refine ⟨?_, ?_, fun i => ?_, fun i => ?_, fun i hi hne => ?_, fun i hi hne => ?_⟩
  · rw [hfree]
    exact h.freeChain.congr fun a ha => hcell a (ne_of_mem_of_not_mem ha hrfree)
  · rw [hord]
    exact h.ordChain.congr fun a ha => hcell a (ne_of_mem_of_not_mem ha hrord)
  · rw [h.mem_free i, hcurr]
    by_cases hir : i = r
    · simp [hir]
    · rw [hother i hir]
  · rw [h.mem_ord i, hcurr]
    by_cases hir : i = r
    · simp [hir]
    · rw [hother i hir]
  · rw [hvm i hne]
    exact h.scope i (hcurr ▸ hi) hne
  · rw [hvm i hne, hhead]
    exact h.header i (hcurr ▸ hi) hne

/-- A detached entry is the only one that holds its block. -/
theorem Detached.unique {m' : Mem} {free ord : List Nat} {r f i : Nat} {p : Addr}
    (hd : Detached m r p m' f) (h : TableInv m' free ord (some f)) (hi : i < m'.vmCurr)
    (hf : (m'.vm i).status.free = false) (hp : (m'.vm i).ptr = some p) : i = f := by
  by_contra hne
  obtain ⟨q, hq, hid⟩ := h.header i hi (fun e => hne (Option.some.inj e).symm) hf
  obtain rfl := Option.some.inj (hp.symm.trans hq)
  exact hne (Option.some.inj (hid.symm.trans hd.id))

/-- `rim_mem_add_ref` on ordinary memory takes it off the list into process
scope, with one reference. -/
theorem rimMemAddRef_ordinary {free ord : List Nat} (h : TableInv m free ord none) {r : Nat}
    (hid : m.rimMemGetId s = some r) (hr : r < m.vmCurr) (hf : (m.vm r).status.free = false)
    (hp : (m.vm r).ptr = some s) (hproc : (m.vm r).status.process = false) :
    ∃ m', m.rimMemAddRef s true = .ok m' ∧ m'.Inv ∧ BlockChange m s referred m' := by
  obtain ⟨f, m₁, ord', hdel, h₁, hd⟩ := rimMemDelOrd_detached h (h.mem_ord_of hr hf hproc) hp
  let g : Vml → Vml := fun e => { e with status := e.status.or { process := true }, ref := 1 }
  have hff : (m₁.vm f).status.free = false := hd.status ▸ hf
  have hfp : (m₁.vm f).status.process = false := hd.status ▸ hproc
  let m₂ : Mem := (m₁.rimMemSetStatus (some f) { process := true }).setVm f
    fun e => { e with ref := 1 }
  have hvm : ∀ i, m₂.vm i = if i = f then g (m₁.vm f) else m₁.vm i := by
    intro i
    by_cases hif : i = f <;> simp [m₂, rimMemSetStatus, hif, g]
  refine ⟨m₂, ?_, ⟨free, ord', h₁.settle (q := s) ?_ ?_ ?_ hd.id ?_ ?_ rfl rfl rfl rfl⟩,
    hd.blocks.blockChange hd.mode (blockChange_of_vm (g := g) hd.inTable hff hd.ptr
      (fun i => hd.unique h₁) rfl ?_ ?_ (fun i => ?_) rfl rfl fun _ => rfl)⟩
  · simp only [rimMemAddRef, hid, hproc, Bool.not_true, Bool.false_eq_true, ↓reduceIte,
      Bool.not_false, hdel, bind, Except.bind, m₂]
  · rw [hvm, if_pos rfl]; simp [g, MemStatus.or, hff]
  · rw [hvm, if_pos rfl]; simp [g, MemStatus.or]
  · rw [hvm, if_pos rfl]; exact hd.ptr
  · intro i hi; rw [hvm, if_neg hi]
  · rw [hvm, if_pos rfl]
  · simp [g, MemStatus.or, hff]
  · simp [referred, hfp, g]
  · rw [hvm]; exact ⟨rfl, rfl, rfl⟩

/-- An entry's count may change without the table noticing. -/
theorem TableInv.setRef {free ord : List Nat} {hole : Option Nat} (h : TableInv m free ord hole)
    (r : Nat) (f : Vml → Int) :
    TableInv (m.setVm r fun e => { e with ref := f e }) free ord hole := by
  refine h.congr rfl rfl rfl (fun i => ?_) (fun i => ?_) (fun i => ?_) (fun i => ?_) fun _ => rfl
  all_goals by_cases hir : i = r <;> simp [hir]

/-- `rim_mem_add_ref` for a process-scoped holder counts it, below the limit. -/
theorem rimMemAddRef_referred (h : m.Inv) (hs : m.Live s)
    (hmax : ∀ status, m.Holds s status RIM_MAX_REF → status.process = false) :
    ∃ m', m.rimMemAddRef s true = .ok m' ∧ m'.Inv ∧ BlockChange m s referred m' := by
  cases hid : m.rimMemGetId s with
  | none => exact ⟨m, by simp only [rimMemAddRef, hid], h, h.blockChange_const hid _⟩
  | some r =>
    obtain ⟨free, ord, ht⟩ := h
    obtain ⟨hr, hf, hp⟩ := ht.live_id hs hid
    cases hproc : (m.vm r).status.process with
    | false => exact rimMemAddRef_ordinary ht hid hr hf hp hproc
    | true =>
      have href : (m.vm r).ref ≠ RIM_MAX_REF := by
        intro e
        have := hmax _ ⟨r, hr, hp, rfl, e, hf⟩
        rw [hproc] at this
        cases this
      refine ⟨m.setVm r fun e => { e with ref := bitField9 ((m.vm r).ref + 1) }, ?_,
        ⟨free, ord, ht.setRef r fun _ => bitField9 ((m.vm r).ref + 1)⟩,
        blockChange_of_vm (g := fun e => { e with ref := bitField9 ((m.vm r).ref + 1) }) hr hf hp
          (fun i hi hfi hpi => ht.entry_unique hi (by simp) hfi hpi hr (by simp) hf hp)
          rfl hf ?_ (fun i => ?_) rfl rfl fun _ => rfl⟩
      · simp only [rimMemAddRef, hid, hproc, Bool.not_true, Bool.false_eq_true, ↓reduceIte, href]
      · simp [referred, hproc]
      · rw [setVm_vm]; exact ⟨rfl, rfl, rfl⟩

/-- However `rim_mem_add_ref` comes out, the table is partitioned. -/
theorem rimMemAddRef_inv (h : m.Inv) (hs : m.Live s) (memProcess : Bool) {m' : Mem}
    (ho : Outcome (m.rimMemAddRef s memProcess) m') : m'.Inv := by
  cases hid : m.rimMemGetId s with
  | none =>
    simp only [rimMemAddRef, hid] at ho
    cases ho
    exact h
  | some r =>
    obtain ⟨free, ord, ht⟩ := h
    obtain ⟨hr, hf, hp⟩ := ht.live_id hs hid
    cases memProcess with
    | false =>
      simp only [rimMemAddRef, hid, Bool.not_false, ↓reduceIte] at ho
      split_ifs at ho
      · cases ho
        exact ⟨free, ord, ht.setRef r fun _ => 1⟩
      · cases ho
        exact ⟨free, ord, ht⟩
    | true =>
      cases hproc : (m.vm r).status.process with
      | false =>
        obtain ⟨m₁, hok, hinv, -⟩ := rimMemAddRef_ordinary ht hid hr hf hp hproc
        rw [hok] at ho
        cases ho
        exact hinv
      | true =>
        simp only [rimMemAddRef, hid, hproc, Bool.not_true, Bool.false_eq_true, ↓reduceIte] at ho
        split_ifs at ho
        all_goals
          cases ho
          exact ⟨free, ord, ht.setRef r fun _ => bitField9 ((m.vm r).ref + 1)⟩

/-- `rim_mem_dec_process` drops one reference. -/
theorem rimMemDecProcess_dropped (h : m.Inv) (hs : m.Live s) :
    (m.rimMemDecProcess s).Inv ∧ BlockChange m s dropped (m.rimMemDecProcess s) := by
  cases hid : m.rimMemGetId s with
  | none =>
    simp only [rimMemDecProcess, hid]
    exact ⟨h, h.blockChange_const hid _⟩
  | some r =>
    obtain ⟨free, ord, ht⟩ := h
    obtain ⟨hr, hf, hp⟩ := ht.live_id hs hid
    have huniq : ∀ i, i < m.vmCurr → (m.vm i).status.free = false → (m.vm i).ptr = some s →
        i = r := fun i hi hfi hpi => ht.entry_unique hi (by simp) hfi hpi hr (by simp) hf hp
    cases hproc : (m.vm r).status.process with
    | false =>
      simp only [rimMemDecProcess, hid, hproc, Bool.false_eq_true, ↓reduceIte]
      refine ⟨⟨free, ord, ht⟩, blockChange_of_vm (g := id) hr hf hp huniq rfl hf ?_ (fun i => ?_) rfl rfl fun _ => rfl⟩
      · simp [dropped, hproc]
      · by_cases hir : i = r <;> simp [hir]
    | true =>
      let ref := if (m.vm r).ref > 0 then bitField9 ((m.vm r).ref - 1) else (m.vm r).ref
      let m₁ := m.setVm r fun e => { e with ref := ref }
      have hm₁ : (if (m.vm r).ref > 0 then m.setVm r fun e => { e with ref := bitField9 (e.ref - 1) }
          else m) = m₁ := by
        by_cases hpos : (m.vm r).ref > 0
        · simp [m₁, ref, hpos, setVm]
        · simp [m₁, ref, hpos, setVm]
      have hm₁r : m₁.vm r = { m.vm r with ref := ref } := by simp [m₁]
      have ht₁ : TableInv m₁ free ord none := ht.setRef r fun _ => ref
      by_cases hzero : ref = 0
      · -- the last reference: back on the ordinary list
        let m₂ := m₁.setVm r fun e => { e with status := { e.status with process := false } }
        have hhole : TableInv m₂ free ord (some r) :=
          (ht₁.lift (by rw [hm₁r]; exact hf) (by rw [hm₁r]; exact hproc)).editHole
            (fun i hi => by simp [m₂, hi]) rfl rfl rfl rfl
        have hm₂r : m₂.vm r =
            { m.vm r with ref := ref, status := { (m.vm r).status with process := false } } := by
          simp [m₂, hm₁r]
        have hend : m.rimMemDecProcess s =
            (m₂.rimMemAddOrd r).setVm r fun e => { e with ref := 1 } := by
          simp only [rimMemDecProcess, hid, hproc, ↓reduceIte, hm₁, hm₁r, hzero, m₂]
        have hadd : TableInv (m₂.rimMemAddOrd r) free (r :: ord) none :=
          hhole.addOrd hr (by rw [hm₂r]; exact hf) (by rw [hm₂r]) (q := s)
            (by rw [hm₂r]; exact hp) hid
        rw [hend]
        refine ⟨⟨free, r :: ord, hadd.setRef r fun _ => 1⟩, blockChange_of_vm
          (g := fun e => { e with status := { e.status with process := false }, ref := 1 })
          hr hf hp huniq rfl hf ?_ (fun i => ?_) rfl rfl fun _ => rfl⟩
        · simp only [dropped, hproc, ↓reduceIte]
          exact if_pos hzero
        · by_cases hir : i = r
          · simp [rimMemAddOrd, hir, hm₂r]
          · simp [rimMemAddOrd, hir, m₂, m₁]
      · have hend : m.rimMemDecProcess s = m₁ := by
          simp only [rimMemDecProcess, hid, hproc, ↓reduceIte, hm₁, hm₁r, hzero]
        rw [hend]
        refine ⟨⟨free, ord, ht₁⟩, blockChange_of_vm (g := fun e => { e with ref := ref })
          hr hf hp huniq rfl hf ?_ (fun i => ?_) rfl rfl fun _ => rfl⟩
        · simp only [dropped, hproc, ↓reduceIte]
          exact if_neg hzero
        · rw [setVm_vm]
          exact ⟨rfl, rfl, rfl⟩

end References

end RimStone.Mem
