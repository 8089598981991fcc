import RimStone.Memory.Table
import RimStone.Lib.Chain
import Mathlib.Tactic.SplitIfs

/-!
# The table's invariant

`TableInv m free ord hole` is the partition of the memory table: `free` is the
list of released entries, `ord` the list of ordinary ones, every other entry is
process-scoped, and the header of each block in use leads back to its entry.
`hole` is the entry in transit: inside an operation one entry is on neither
list while its status is being changed, and the invariant leaves that entry
out. Between operations there is no hole.

Each internal step of `rimmem.c` has one lemma that says how it moves the hole:
`takeVm` opens one, `rimMemDelOrd` opens one, `rimMemRelease` and `fillVm`
close it. The operations are compositions of these.

The swap of `rim_mem_del_ord` is invisible from outside the table: the two
entries keep their own `next` fields, so no list changes but for its head, and
the blocks keep their status and their reference count (`Holds`).
-/

namespace RimStone.Mem

open RimStone.Lib

/-- The table's cells as a chain store: every entry has a `next`. -/
def cell (m : Mem) (i : Nat) : Option (Option Nat) := some (m.vm i).next

/-- The partition of the table into two lists and the rest. -/
structure TableInv (m : Mem) (free ord : List Nat) (hole : Option Nat) : Prop where
  freeChain : Chain m.cell m.vmFirstFree free
  ordChain : Chain m.cell m.vmFirstOrd ord
  mem_free : ∀ i, i ∈ free ↔ i < m.vmCurr ∧ (m.vm i).status.free = true ∧ hole ≠ some i
  mem_ord : ∀ i, i ∈ ord ↔ i < m.vmCurr ∧ (m.vm i).status.free = false ∧
    (m.vm i).status.process = false ∧ hole ≠ some i
  scope : ∀ i, i < m.vmCurr → hole ≠ some i → (m.vm i).status.free = true →
    (m.vm i).status.process = false
  header : ∀ i, i < m.vmCurr → hole ≠ some i → (m.vm i).status.free = false →
    ∃ p, (m.vm i).ptr = some p ∧ (m.head p).id = some i

/-- The block at `p` is in use, with this status and reference count. -/
def Holds (m : Mem) (p : Addr) (status : MemStatus) (ref : Int) : Prop :=
  ∃ r, r < m.vmCurr ∧ (m.vm r).ptr = some p ∧ (m.vm r).status = status ∧
    (m.vm r).ref = ref ∧ status.free = false

/-! ## Reading an edited table -/

section Edits

variable (m : Mem) (r i : Nat) (f : Vml → Vml) (p q : Addr) (g : RimHead → RimHead)

@[simp] theorem setVm_vm : (m.setVm r f).vm i = if i = r then f (m.vm r) else m.vm i := by
  simp only [setVm, Function.update_apply]

@[simp] theorem setVm_vmCurr : (m.setVm r f).vmCurr = m.vmCurr := rfl

@[simp] theorem setVm_vmFirstFree : (m.setVm r f).vmFirstFree = m.vmFirstFree := rfl

@[simp] theorem setVm_vmFirstOrd : (m.setVm r f).vmFirstOrd = m.vmFirstOrd := rfl

@[simp] theorem setVm_rimMemProcess : (m.setVm r f).rimMemProcess = m.rimMemProcess := rfl

@[simp] theorem setVm_head : (m.setVm r f).head = m.head := rfl

@[simp] theorem setHead_head : (m.setHead p g).head q = if q = p then g (m.head p) else m.head q := by
  simp only [setHead, Function.update_apply]

@[simp] theorem setHead_vm : (m.setHead p g).vm = m.vm := rfl

@[simp] theorem setHead_vmCurr : (m.setHead p g).vmCurr = m.vmCurr := rfl

@[simp] theorem setHead_vmFirstFree : (m.setHead p g).vmFirstFree = m.vmFirstFree := rfl

@[simp] theorem setHead_vmFirstOrd : (m.setHead p g).vmFirstOrd = m.vmFirstOrd := rfl

@[simp] theorem setHead_rimMemProcess : (m.setHead p g).rimMemProcess = m.rimMemProcess := rfl

end Edits

section Inv

variable {m m' : Mem} {free ord : List Nat} {hole : Option Nat}

/-- The invariant reads of an entry its link, its two scope bits and its block,
and of a header its id. -/
theorem TableInv.congr (h : TableInv m free ord hole)
    (hcurr : m'.vmCurr = m.vmCurr) (hfree : m'.vmFirstFree = m.vmFirstFree)
    (hord : m'.vmFirstOrd = m.vmFirstOrd)
    (hnext : ∀ i, (m'.vm i).next = (m.vm i).next)
    (hptr : ∀ i, (m'.vm i).ptr = (m.vm i).ptr)
    (hfr : ∀ i, (m'.vm i).status.free = (m.vm i).status.free)
    (hpr : ∀ i, (m'.vm i).status.process = (m.vm i).status.process)
    (hid : ∀ p, (m'.head p).id = (m.head p).id) : TableInv m' free ord hole := by
  have hcell : m'.cell = m.cell := funext fun i => by simp only [cell, hnext]
  refine ⟨?_, ?_, ?_, ?_, ?_, ?_⟩
  · rw [hcell, hfree]; exact h.freeChain
  · rw [hcell, hord]; exact h.ordChain
  · intro i; rw [hcurr, hfr]; exact h.mem_free i
  · intro i; rw [hcurr, hfr, hpr]; exact h.mem_ord i
  · intro i; rw [hcurr, hfr, hpr]; exact h.scope i
  · intro i hi hne hnf
    rw [hcurr] at hi
    rw [hfr] at hnf
    obtain ⟨p, hp, hq⟩ := h.header i hi hne hnf
    exact ⟨p, (hptr i).trans hp, (hid p).trans hq⟩

/-- A block in use belongs to one entry: the one its header names. -/
theorem TableInv.entry_unique (h : TableInv m free ord hole) {i j : Nat} {p : Addr}
    (hi : i < m.vmCurr) (hne : hole ≠ some i) (hfi : (m.vm i).status.free = false)
    (hp : (m.vm i).ptr = some p) (hj : j < m.vmCurr) (hnej : hole ≠ some j)
    (hfj : (m.vm j).status.free = false) (hq : (m.vm j).ptr = some p) : i = j := by
  obtain ⟨a, ha, hia⟩ := h.header i hi hne hfi
  obtain ⟨b, hb, hjb⟩ := h.header j hj hnej hfj
  obtain rfl := Option.some.inj (hp.symm.trans ha)
  obtain rfl := Option.some.inj (hq.symm.trans hb)
  exact Option.some.inj (hia.symm.trans hjb)

/-- The header of a block in use names the entry that holds it. -/
theorem TableInv.id_eq (h : TableInv m free ord hole) {r : Nat} {p : Addr}
    (hr : r < m.vmCurr) (hne : hole ≠ some r) (hf : (m.vm r).status.free = false)
    (hp : (m.vm r).ptr = some p) : m.rimMemGetId p = some r := by
  obtain ⟨q, hq, hid⟩ := h.header r hr hne hf
  obtain rfl := Option.some.inj (hp.symm.trans hq)
  exact hid

/-- The reading of a live pointer: a constant, or the entry in use that its
header names. -/
theorem TableInv.live_id (h : TableInv m free ord none) {s : Addr} (hs : m.Live s) {r : Nat}
    (hr : m.rimMemGetId s = some r) :
    r < m.vmCurr ∧ (m.vm r).status.free = false ∧ (m.vm r).ptr = some s := by
  rcases hs with hc | ⟨i, hi, hf, hp⟩
  · rw [hc] at hr; cases hr
  · have hid := h.id_eq hi (by simp) hf hp
    obtain rfl := Option.some.inj (hid.symm.trans hr)
    exact ⟨hi, hf, hp⟩

end Inv

/-! ## Opening a hole: taking an entry off the ordinary list -/

/-- The program's view of the blocks is the same: which are in use, with which
status and count, and which pointers are constants. -/
structure SameBlocks (m m' : Mem) : Prop where
  holds : ∀ q status ref, m'.Holds q status ref ↔ m.Holds q status ref
  const : ∀ q, m'.rimMemGetId q = none ↔ m.rimMemGetId q = none

/-- What `rim_mem_del_ord` leaves behind when it took the entry of block `p`
off the list: the entry, now at `f`, is the same but for its place. -/
structure Detached (m : Mem) (r : Nat) (p : Addr) (m' : Mem) (f : Nat) : Prop where
  curr : m'.vmCurr = m.vmCurr
  tot : m'.vmTot = m.vmTot
  mode : m'.rimMemProcess = m.rimMemProcess
  inTable : f < m'.vmCurr
  ptr : (m'.vm f).ptr = some p
  status : (m'.vm f).status = (m.vm r).status
  ref : (m'.vm f).ref = (m.vm r).ref
  id : (m'.head p).id = some f
  blocks : SameBlocks m m'

/-- The swap of `rim_mem_del_ord`, entry by entry. -/
theorem rimMemDelOrd_swap {m : Mem} {r f : Nat} {p q : Addr} (hord : m.vmFirstOrd = some f)
    (hne : r ≠ f) (hp : (m.vm r).ptr = some p) (hq : (m.vm f).ptr = some q) (hpq : p ≠ q) :
    ∃ m', m.rimMemDelOrd r = .ok (f, m') ∧
      (∀ i, m'.vm i = if i = f then { m.vm r with next := (m.vm f).next }
        else if i = r then { m.vm f with next := (m.vm r).next } else m.vm i) ∧
      (∀ a, (m'.head a).id = if a = p then (m.head q).id
        else if a = q then (m.head p).id else (m.head a).id) ∧
      m'.vmFirstOrd = (m.vm f).next ∧ m'.vmFirstFree = m.vmFirstFree ∧
      m'.vmCurr = m.vmCurr ∧ m'.vmTot = m.vmTot ∧ m'.rimMemProcess = m.rimMemProcess := by
  unfold rimMemDelOrd
  simp only [hord, ne_eq, hne, not_false_eq_true, ↓reduceIte, Function.update_self,
    Function.update_of_ne hne, Function.update_of_ne hne.symm, hp, hq]
  refine ⟨_, rfl, fun i => ?_, fun a => ?_, rfl, rfl, rfl, rfl, rfl⟩
  · by_cases hif : i = f
    · subst hif
      simp
    · by_cases hir : i = r
      · subst hir
        simp [hif]
      · simp [hif, hir]
  · by_cases hap : a = p
    · subst hap
      simp [hpq]
    · by_cases haq : a = q
      · subst haq
        simp [hap]
      · simp [hap, haq]

/-- Two tables whose entries in use hold the same blocks, up to a permutation
of the entries that undoes itself, hold the same blocks. -/
theorem holds_of_swap {m m' : Mem} (σ : Nat → Nat) (hσ : ∀ i, σ (σ i) = i) (hcurr : ∀ i, i < m'.vmCurr ↔ σ i < m.vmCurr)
    (hptr : ∀ i, (m'.vm i).ptr = (m.vm (σ i)).ptr)
    (hstatus : ∀ i, (m'.vm i).status = (m.vm (σ i)).status)
    (href : ∀ i, (m'.vm i).ref = (m.vm (σ i)).ref) (q : Addr) (status : MemStatus) (ref : Int) :
    m'.Holds q status ref ↔ m.Holds q status ref := by
  constructor
  · rintro ⟨i, hi, hp, hs, hr, hf⟩
    exact ⟨σ i, (hcurr i).mp hi, (hptr i).symm.trans hp, (hstatus i).symm.trans hs, (href i).symm.trans hr, hf⟩
  · rintro ⟨i, hi, hp, hs, hr, hf⟩
    refine ⟨σ i, (hcurr _).mpr ?_, (hptr _).trans ?_, (hstatus _).trans ?_, (href _).trans ?_, hf⟩
    all_goals rw [hσ i]; assumption

/-- Moving the head of the ordinary list past its first entry leaves that entry
out, whatever it and the others now hold, as long as every other entry in use
is still the one its block's header names. -/
theorem TableInv.detach {m m' : Mem} {free rest : List Nat} {f : Nat}
    (h : TableInv m free (f :: rest) none) (hcurr : m'.vmCurr = m.vmCurr)
    (hfree : m'.vmFirstFree = m.vmFirstFree) (hord : m'.vmFirstOrd = (m.vm f).next)
    (hnext : ∀ i, (m'.vm i).next = (m.vm i).next)
    (hfr : ∀ i, (m'.vm i).status.free = (m.vm i).status.free)
    (hpr : ∀ i, (m'.vm i).status.process = (m.vm i).status.process)
    (hheader : ∀ i, i < m.vmCurr → i ≠ f → (m.vm i).status.free = false →
      ∃ p, (m'.vm i).ptr = some p ∧ (m'.head p).id = some i) :
    TableInv m' free rest (some f) := by
  have hcell : m'.cell = m.cell := funext fun i => by simp only [cell, hnext]
  have hfrest : f ∉ rest := (List.nodup_cons.mp (Seg.nodup h.ordChain)).1
  obtain ⟨-, hff, -, -⟩ := (h.mem_ord f).mp (List.mem_cons_self ..)
  obtain ⟨-, n, hn, hrest⟩ := seg_cons.mp h.ordChain
  obtain rfl := Option.some.inj hn
  refine ⟨?_, ?_, fun i => ?_, fun i => ?_, fun i hi _ hf => ?_, fun i hi hif hf => ?_⟩
  · rw [hcell, hfree]; exact h.freeChain
  · rw [hcell, hord]; exact hrest
  · rw [h.mem_free i, hcurr, hfr]
    constructor
    · rintro ⟨hi, hf, -⟩
      refine ⟨hi, hf, fun e => ?_⟩
      rw [← Option.some.inj e, hff] at hf
      cases hf
    · rintro ⟨hi, hf, -⟩
      exact ⟨hi, hf, by simp⟩
  · rw [hcurr, hfr, hpr]
    constructor
    · intro hi
      obtain ⟨h1, h2, h3, -⟩ := (h.mem_ord i).mp (List.mem_cons_of_mem _ hi)
      exact ⟨h1, h2, h3, fun e => hfrest (Option.some.inj e ▸ hi)⟩
    · rintro ⟨h1, h2, h3, h4⟩
      rcases List.mem_cons.mp ((h.mem_ord i).mpr ⟨h1, h2, h3, by simp⟩) with rfl | hi
      · exact absurd rfl h4
      · exact hi
  · rw [hfr] at hf
    rw [hpr]
    exact h.scope i (hcurr ▸ hi) (by simp) hf
  · rw [hfr] at hf
    exact hheader i (hcurr ▸ hi) (fun e => hif (e ▸ rfl)) hf

/-- `rim_mem_del_ord` takes an ordinary entry off the list and opens a hole
where that entry now is. -/
theorem rimMemDelOrd_detached {m : Mem} {free ord : List Nat} {r : Nat} {p : Addr}
    (h : TableInv m free ord none) (hr : r ∈ ord) (hp : (m.vm r).ptr = some p) :
    ∃ f m' ord', m.rimMemDelOrd r = .ok (f, m') ∧ TableInv m' free ord' (some f) ∧ Detached m r p m' f := by
  obtain ⟨hrc, hrf, hrp, -⟩ := (h.mem_ord r).mp hr
  have hrid : m.rimMemGetId p = some r := h.id_eq hrc (by simp) hrf hp
  cases ord with
  | nil => cases hr
  | cons f rest =>
    obtain ⟨hfo, -⟩ := seg_cons.mp h.ordChain
    obtain ⟨hfc, hff, hfp, -⟩ := (h.mem_ord f).mp (List.mem_cons_self ..)
    by_cases hne : r = f
    · -- the entry is the first one already
      subst hne
      refine ⟨r, { m with vmFirstOrd := (m.vm r).next }, rest, ?_, ?_, ?_⟩
      · simp [rimMemDelOrd, hfo]
      · exact h.detach rfl rfl rfl (fun _ => rfl) (fun _ => rfl) (fun _ => rfl)
          fun i hi _ hf => h.header i hi (by simp) hf
      · exact ⟨rfl, rfl, rfl, hrc, hp, rfl, rfl, hrid, ⟨fun _ _ _ => Iff.rfl, fun _ => Iff.rfl⟩⟩
    · obtain ⟨q, hq, hqid⟩ := h.header f hfc (by simp) hff
      have hpq : p ≠ q := by
        rintro rfl
        exact hne (Option.some.inj (hrid.symm.trans hqid))
      obtain ⟨m', hok, hvm, hhead, hord', hfree', hcurr, htot, hmode⟩ := rimMemDelOrd_swap hfo hne hp hq hpq
      -- the two entries trade places, all others stay
      let σ : Nat → Nat := fun i => if i = f then r else if i = r then f else i
      have hσ : ∀ i, σ (σ i) = i := by
        intro i
        simp only [σ]
        split_ifs <;> simp_all
      have hσc : ∀ i, i < m'.vmCurr ↔ σ i < m.vmCurr := by
        intro i
        simp only [σ, hcurr]
        split_ifs with hif hir
        · simp [hif, hfc, hrc]
        · simp [hir, hfc, hrc]
        · rfl
      have hsame : ∀ i, (m'.vm i).ptr = (m.vm (σ i)).ptr ∧
          (m'.vm i).status = (m.vm (σ i)).status ∧ (m'.vm i).ref = (m.vm (σ i)).ref := by
        intro i
        simp only [hvm i, σ]
        split_ifs <;> simp
      have hstay : ∀ i, (m'.vm i).next = (m.vm i).next ∧
          (m'.vm i).status.free = (m.vm i).status.free ∧
          (m'.vm i).status.process = (m.vm i).status.process := by
        intro i
        simp only [hvm i]
        split_ifs with hif hir
        · simp [hif, hrf, hff, hrp, hfp]
        · simp [hir, hrf, hff, hrp, hfp]
        · simp
      refine ⟨f, m', rest, hok, h.detach hcurr hfree' hord' (fun i => (hstay i).1)
        (fun i => (hstay i).2.1) (fun i => (hstay i).2.2) fun i hi hif hf => ?_,
        ⟨hcurr, htot, hmode, hcurr ▸ hfc, ?_, ?_, ?_, ?_, ⟨?_, ?_⟩⟩⟩
      · by_cases hir : i = r
        · subst hir
          refine ⟨q, ?_, ?_⟩
          · rw [(hsame i).1]; simpa [σ, hne] using hq
          · rw [hhead q, if_neg hpq.symm, if_pos rfl]; exact hrid
        · obtain ⟨a, ha, hida⟩ := h.header i hi (by simp) hf
          have hap : a ≠ p := by
            rintro rfl
            exact hir (Option.some.inj (hida.symm.trans hrid))
          have haq : a ≠ q := by
            rintro rfl
            exact hif (Option.some.inj (hida.symm.trans hqid))
          refine ⟨a, ?_, ?_⟩
          · rw [(hsame i).1]; simpa [σ, hif, hir] using ha
          · rw [hhead a, if_neg hap, if_neg haq]; exact hida
      · rw [(hsame f).1]; simpa [σ] using hp
      · rw [(hsame f).2.1]; simp [σ]
      · rw [(hsame f).2.2]; simp [σ]
      · rw [hhead p, if_pos rfl]; exact hqid
      · exact holds_of_swap σ hσ hσc (fun i => (hsame i).1) (fun i => (hsame i).2.1)
          fun i => (hsame i).2.2
      · intro a
        simp only [rimMemGetId] at hrid ⊢
        rw [hhead a]
        split_ifs with hap haq
        · simp [hap, hrid, hqid]
        · simp [haq, hrid, hqid]
        · rfl

/-! ## Closing a hole: releasing the entry -/

/-- A release puts the entry in transit on the free list. -/
theorem TableInv.release {m : Mem} {free ord : List Nat} {r : Nat}
    (h : TableInv m free ord (some r)) (hr : r < m.vmCurr) :
    TableInv (m.rimMemRelease r) (r :: free) ord none := by
  have hrfree : r ∉ free := fun hm => ((h.mem_free r).mp hm).2.2 rfl
  have hrord : r ∉ ord := fun hm => ((h.mem_ord r).mp hm).2.2.2 rfl
  have hcell : ∀ i, i ≠ r → (m.rimMemRelease r).cell i = m.cell i := by
    intro i hi
    simp [cell, rimMemRelease, hi]
  refine ⟨?_, ?_, fun i => ?_, fun i => ?_, fun i hi _ hf => ?_, fun i hi _ hf => ?_⟩
  · refine .cons (n := m.vmFirstFree) (by simp [cell, rimMemRelease]) ?_
    exact h.freeChain.congr fun a ha => hcell a (ne_of_mem_of_not_mem ha hrfree)
  · exact h.ordChain.congr fun a ha => hcell a (ne_of_mem_of_not_mem ha hrord)
  · by_cases hir : i = r
    · simp [rimMemRelease, hir, hr]
    · simp [rimMemRelease, hir, h.mem_free i, Ne.symm hir]
  · by_cases hir : i = r
    · simp [rimMemRelease, hir, hrord]
    · simp [rimMemRelease, hir, h.mem_ord i, Ne.symm hir]
  · by_cases hir : i = r
    · simp [rimMemRelease, hir]
    · simp only [rimMemRelease, setVm_vm, if_neg hir] at hf ⊢
      exact h.scope i hi (fun e => hir (Option.some.inj e).symm) hf
  · by_cases hir : i = r
    · simp [rimMemRelease, hir] at hf
    · simp only [rimMemRelease, setVm_vm, if_neg hir] at hf ⊢
      exact h.header i hi (fun e => hir (Option.some.inj e).symm) hf

/-! ## Opening a hole: taking an unused entry -/

/-- The table can give out an entry: one is released, one is left in the array,
or the array may still grow. -/
def Room (m : Mem) : Prop :=
  m.vmFirstFree ≠ none ∨ m.vmCurr + 1 < m.vmTot ∨ m.vmTot + RIMMSIZE < RIM_MAX_MEM - 1

/-- The table after `takeVm` gave out entry `r`: nothing else changed. -/
structure Taken (m : Mem) (r : Nat) (m' : Mem) : Prop where
  vm : m'.vm = m.vm
  head : m'.head = m.head
  mode : m'.rimMemProcess = m.rimMemProcess
  curr : ∀ i, i < m'.vmCurr ↔ i < m.vmCurr ∨ i = r
  unused : r < m.vmCurr → (m.vm r).status.free = true

/-- With room, `takeVm` opens a hole at an unused entry. -/
theorem takeVm_taken {m : Mem} {free ord : List Nat} (h : TableInv m free ord none) (hroom : m.Room) :
    ∃ r m' free', m.takeVm = .ok (r, m') ∧ TableInv m' free' ord (some r) ∧ Taken m r m' := by
  cases hff : m.vmFirstFree with
  | some r =>
    have hchain := h.freeChain
    rw [hff] at hchain
    cases hchain with
    | cons hn hrest =>
      rename_i n rest
      obtain rfl := Option.some.inj hn
      obtain ⟨hrc, hrf, -⟩ := (h.mem_free r).mp (List.mem_cons_self ..)
      have hnd := Seg.nodup h.freeChain
      have hrrest : r ∉ rest := (List.nodup_cons.mp hnd).1
      refine ⟨r, { m with vmFirstFree := (m.vm r).next }, rest, by simp only [takeVm, hff],
        ⟨hrest, h.ordChain, fun i => ?_, fun i => ?_, fun i hi _ => h.scope i hi (by simp),
          fun i hi _ => h.header i hi (by simp)⟩, ⟨rfl, rfl, rfl, fun i => ?_, fun _ => hrf⟩⟩
      · constructor
        · intro hi
          obtain ⟨h1, h2, -⟩ := (h.mem_free i).mp (List.mem_cons_of_mem _ hi)
          exact ⟨h1, h2, fun e => hrrest (Option.some.inj e ▸ hi)⟩
        · rintro ⟨h1, h2, h3⟩
          rcases List.mem_cons.mp ((h.mem_free i).mpr ⟨h1, h2, by simp⟩) with rfl | hi
          · exact absurd rfl h3
          · exact hi
      · rw [h.mem_ord i]
        constructor
        · rintro ⟨h1, h2, h3, -⟩
          refine ⟨h1, h2, h3, fun e => ?_⟩
          rw [← Option.some.inj e, hrf] at h2
          cases h2
        · rintro ⟨h1, h2, h3, -⟩
          exact ⟨h1, h2, h3, by simp⟩
      · constructor
        · exact Or.inl
        · rintro (hi | rfl)
          · exact hi
          · exact hrc
  | none =>
    have hnil : free = [] := (Seg.eq_nil_iff h.freeChain).mpr hff
    subst hnil
    let m₁ : Mem := { m with vmCurr := m.vmCurr + 1 }
    have key : ∀ tot, TableInv { m₁ with vmTot := tot } [] ord (some m.vmCurr) ∧
        Taken m m.vmCurr { m₁ with vmTot := tot } := by
      intro tot
      have hlast : ∀ i, i < m.vmCurr + 1 → some m.vmCurr ≠ some i → i < m.vmCurr := by
        intro i hi hne
        have : i ≠ m.vmCurr := fun e => hne (e ▸ rfl)
        omega
      refine ⟨⟨h.freeChain, h.ordChain, fun i => ?_, fun i => ?_, fun i hi hne hf => ?_,
        fun i hi hne hf => ?_⟩, ⟨rfl, rfl, rfl, fun i => ?_, fun hi => absurd hi (by omega)⟩⟩
      · constructor
        · intro hi; cases hi
        · rintro ⟨h1, h2, h3⟩
          exact (h.mem_free i).mpr ⟨hlast i h1 h3, h2, by simp⟩
      · rw [h.mem_ord i]
        constructor
        · rintro ⟨h1, h2, h3, -⟩
          refine ⟨Nat.lt_succ_of_lt h1, h2, h3, fun e => ?_⟩
          have := Option.some.inj e
          omega
        · rintro ⟨h1, h2, h3, h4⟩
          exact ⟨hlast i h1 h4, h2, h3, by simp⟩
      · exact h.scope i (hlast i hi hne) (by simp) hf
      · exact h.header i (hlast i hi hne) (by simp) hf
      · simp only [m₁]
        omega
    by_cases htot : m.vmCurr + 1 ≥ m.vmTot
    · have hmax : ¬ m.vmTot + RIMMSIZE ≥ RIM_MAX_MEM - 1 := by
        rcases hroom with hr | hr | hr
        · exact absurd hff hr
        · omega
        · omega
      exact ⟨m.vmCurr, { m₁ with vmTot := m.vmTot + RIMMSIZE }, [],
        by simp only [takeVm, hff, htot, hmax, ↓reduceIte, m₁], key _⟩
    · exact ⟨m.vmCurr, m₁, [], by simp only [takeVm, hff, htot, ↓reduceIte, m₁], key m.vmTot⟩

/-! ## Closing a hole: filling the entry -/

section Fill

variable (m : Mem) (r : Nat) (p : Addr)

theorem fill_vm (i : Nat) :
    ((m.fillVm r p).rimVmset p r).vm i = if i = r then
      { ptr := some p, next := if m.rimMemProcess then (m.vm r).next else m.vmFirstOrd,
        status := { process := m.rimMemProcess }, ref := 0 }
    else m.vm i := by
  cases hm : m.rimMemProcess <;> by_cases hi : i = r <;>
    simp [fillVm, rimVmset, rimMemSetStatus, rimMemAddOrd, MemStatus.or, hm, hi]

theorem fill_head (q : Addr) :
    (((m.fillVm r p).rimVmset p r).head q).id = if q = p then some r else (m.head q).id := by
  cases hm : m.rimMemProcess <;> by_cases hq : q = p <;>
    simp [fillVm, rimVmset, rimMemSetStatus, rimMemAddOrd, hm, hq]

theorem fill_vmCurr : ((m.fillVm r p).rimVmset p r).vmCurr = m.vmCurr := by
  cases hm : m.rimMemProcess <;> simp [fillVm, rimVmset, rimMemSetStatus, rimMemAddOrd, hm]

theorem fill_vmFirstFree : ((m.fillVm r p).rimVmset p r).vmFirstFree = m.vmFirstFree := by
  cases hm : m.rimMemProcess <;> simp [fillVm, rimVmset, rimMemSetStatus, rimMemAddOrd, hm]

theorem fill_vmFirstOrd : ((m.fillVm r p).rimVmset p r).vmFirstOrd =
    if m.rimMemProcess then m.vmFirstOrd else some r := by
  cases hm : m.rimMemProcess <;> simp [fillVm, rimVmset, rimMemSetStatus, rimMemAddOrd, hm]

theorem fill_rimMemProcess : ((m.fillVm r p).rimVmset p r).rimMemProcess = m.rimMemProcess := by
  cases hm : m.rimMemProcess <;> simp [fillVm, rimVmset, rimMemSetStatus, rimMemAddOrd, hm]

end Fill

/-- Filling the entry in transit with a block that no other entry holds puts it
on the ordinary list, or in process scope, with its header. -/
theorem TableInv.fill {m : Mem} {free ord : List Nat} {r : Nat} {p : Addr}
    (h : TableInv m free ord (some r)) (hr : r < m.vmCurr)
    (hp : ∀ i, i < m.vmCurr → i ≠ r → (m.vm i).status.free = false → (m.vm i).ptr ≠ some p) :
    TableInv ((m.fillVm r p).rimVmset p r) free (if m.rimMemProcess then ord else r :: ord)
      none := by
  have hrfree : r ∉ free := fun hm => ((h.mem_free r).mp hm).2.2 rfl
  have hrord : r ∉ ord := fun hm => ((h.mem_ord r).mp hm).2.2.2 rfl
  have hne : ∀ i, i ≠ r → some r ≠ some i := fun i hi e => hi (Option.some.inj e).symm
  have hcell : ∀ i, i ≠ r → ((m.fillVm r p).rimVmset p r).cell i = m.cell i := by
    intro i hir
    simp [cell, fill_vm, hir]
  refine ⟨?_, ?_, fun i => ?_, fun i => ?_, fun i hi _ hf => ?_, fun i hi _ hf => ?_⟩
  · rw [fill_vmFirstFree]
    exact h.freeChain.congr fun a ha => hcell a (ne_of_mem_of_not_mem ha hrfree)
  · have hc := h.ordChain.congr fun a ha => hcell a (ne_of_mem_of_not_mem ha hrord)
    rw [fill_vmFirstOrd]
    cases hmode : m.rimMemProcess with
    | true => simpa using hc
    | false => exact .cons (by simp [cell, fill_vm, hmode]) hc
  · rw [fill_vmCurr, fill_vm]
    by_cases hir : i = r
    · simp [hir, hrfree]
    · simp [hir, h.mem_free i, Ne.symm hir]
  · rw [fill_vmCurr, fill_vm]
    by_cases hir : i = r
    · cases hmode : m.rimMemProcess <;> simp [hir, hrord, hr]
    · cases hmode : m.rimMemProcess <;> simp [hir, h.mem_ord i, Ne.symm hir]
  · rw [fill_vm] at hf ⊢
    rw [fill_vmCurr] at hi
    by_cases hir : i = r
    · simp [hir] at hf
    · rw [if_neg hir] at hf ⊢
      exact h.scope i hi (hne i hir) hf
  · rw [fill_vm] at hf ⊢
    rw [fill_vmCurr] at hi
    by_cases hir : i = r
    · exact ⟨p, by simp [hir], by simp [fill_head, hir]⟩
    · rw [if_neg hir] at hf ⊢
      obtain ⟨q, hq, hid⟩ := h.header i hi (hne i hir) hf
      have hqp : q ≠ p := fun e => hp i hi hir hf (e ▸ hq)
      exact ⟨q, hq, by rw [fill_head, if_neg hqp]; exact hid⟩

end RimStone.Mem
