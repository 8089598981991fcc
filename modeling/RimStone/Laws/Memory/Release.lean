import RimStone.Laws.Memory.Operations

/-!
# Releasing, moving and the end of a request

`_rim_free` releases the entry of one block. `rim_realloc` of a block that
moves is a release followed by a new entry: its last step sets
`RIM_MEM_PROCESS` on an entry that `rim_add_mem` may just have put on the
ordinary list, so it keeps the invariant only when the entry was added in the
scope the block had.

`rim_done` releases the ordinary list from its head. Seen from the loop, the
list that is left is the ordinary list of a table whose `vm_first_ord` is the
loop's index, so each turn is a detachment and a release.
-/

namespace RimStone.Mem

open RimStone.Lib

variable {m : Mem}

@[simp] theorem rimMemRelease_vm (m : Mem) (r i : Nat) : (m.rimMemRelease r).vm i =
    if i = r then { m.vm r with ptr := none, status := { free := true }, next := m.vmFirstFree }
    else m.vm i := by
  simp only [rimMemRelease, setVm_vm]

variable {r : Nat} {s : Addr} {free ord : List Nat}

/-- `_rim_free` keeps the table partitioned. -/
theorem rimFree_inv (h : m.Inv) (hs : m.Live s) : ∃ m', m.rimFree s = .ok m' ∧ m'.Inv := by
  cases hid : m.rimMemGetId s with
  | none => exact ⟨m, by simp only [rimFree, hid], h⟩
  | some r =>
    obtain ⟨free, ord, ht⟩ := h
    obtain ⟨hr, hf, hp⟩ := ht.live_id hs hid
    by_cases hproc : (m.vm r).status.process = true
    · exact ⟨m, by simp only [rimFree, hid, hproc, ↓reduceIte], free, ord, ht⟩
    · by_cases href : (m.vm r).ref > 0
      · exact ⟨m, by simp only [rimFree, hid, hproc, href, Bool.false_eq_true, ↓reduceIte],
          free, ord, ht⟩
      · obtain ⟨f, m₁, ord', hdel, h₁, hd⟩ :=
          rimMemDelOrd_detached ht (ht.mem_ord_of hr hf (Bool.eq_false_iff.mpr hproc)) hp
        refine ⟨m₁.rimMemRelease f, ?_, f :: free, ord', h₁.release hd.inTable⟩
        simp only [rimFree, hid, hproc, href, Bool.false_eq_true, ↓reduceIte, hdel, bind, Except.bind]

/-! ## Moving a block -/

/-- Copying a block with its header to a fresh address, and pointing its entry
there, keeps the table. -/
theorem TableInv.move (h : TableInv m free ord none) {old p : Addr} (hr : r < m.vmCurr)
    (hf : (m.vm r).status.free = false) (hp : (m.vm r).ptr = some old) (hfresh : m.Fresh p) :
    TableInv ((m.setHead p fun _ => m.head old).setVm r fun e => { e with ptr := some p })
      free ord none := by
  have hvm : ∀ i, (((m.setHead p fun _ => m.head old).setVm r
      fun e => { e with ptr := some p }).vm i).status = (m.vm i).status ∧
      (((m.setHead p fun _ => m.head old).setVm r
      fun e => { e with ptr := some p }).vm i).next = (m.vm i).next := by
    intro i
    by_cases hir : i = r <;> simp [hir]
  have hcell : ((m.setHead p fun _ => m.head old).setVm r
      fun e => { e with ptr := some p }).cell = m.cell := by
    funext i
    simp only [cell, (hvm i).2]
  refine ⟨?_, ?_, fun i => ?_, fun i => ?_, fun i hi hne => ?_, fun i hi hne hfi => ?_⟩
  · rw [hcell]; exact h.freeChain
  · rw [hcell]; exact h.ordChain
  · rw [(hvm i).1]; exact h.mem_free i
  · rw [(hvm i).1]; exact h.mem_ord i
  · rw [(hvm i).1]; exact h.scope i hi hne
  · rw [(hvm i).1] at hfi
    by_cases hir : i = r
    · refine ⟨p, by simp [hir], ?_⟩
      have hid : (m.head old).id = some r := h.id_eq hr (by simp) hf hp
      simpa [hir] using hid
    · obtain ⟨q, hq, hid⟩ := h.header i hi hne hfi
      have hqp : q ≠ p := fun e => hfresh i hi hfi (e ▸ hq)
      exact ⟨q, by simpa [hir] using hq, by simpa [hqp] using hid⟩

/-- Taking an entry in use off its list, if it is on one, and releasing it. -/
theorem release_entry (h : TableInv m free ord none) {p : Addr} (hr : r < m.vmCurr) (hf : (m.vm r).status.free = false)
    (hp : (m.vm r).ptr = some p) :
    ∃ f m₁ free' ord', (if (m.vm r).status.process then .ok (r, m) else m.rimMemDelOrd r) =
        .ok (f, m₁) ∧ TableInv (m₁.rimMemRelease f) (f :: free') ord' none ∧
      (m₁.rimMemRelease f).rimMemProcess = m.rimMemProcess ∧ (m₁.rimMemRelease f).Fresh p := by
  cases hproc : (m.vm r).status.process with
  | true =>
    refine ⟨r, m, free, ord, rfl, (h.lift hf hproc).release hr, rfl, fun i hi hfi => ?_⟩
    rw [rimMemRelease_vm] at hfi ⊢
    by_cases hir : i = r
    · simp [hir]
    · rw [if_neg hir] at hfi ⊢
      exact fun hq => hir (h.entry_unique hi (by simp) hfi hq hr (by simp) hf hp)
  | false =>
    obtain ⟨f, m₁, ord', hdel, h₁, hd⟩ := rimMemDelOrd_detached h (h.mem_ord_of hr hf hproc) hp
    refine ⟨f, m₁, free, ord', hdel, h₁.release hd.inTable, hd.mode, fun i hi hfi => ?_⟩
    rw [rimMemRelease_vm] at hfi ⊢
    by_cases hif : i = f
    · simp [hif]
    · rw [if_neg hif] at hfi ⊢
      exact fun hq => hif (hd.unique h₁ hi hfi hq)

/-- `rim_realloc` keeps the table partitioned, when there is room for a constant's
copy and a process-scoped block that moves is moved in process scope. -/
theorem rimRealloc_inv (h : m.Inv) {p : Option Addr} (hs : m.Live s)
    (hfresh : ∀ a, p = some a → m.Fresh a ∨ (a = s ∧ m.rimMemGetId s ≠ none))
      (hroom : m.rimMemGetId s = none → p ≠ none → m.Room)
        (hmode : ∀ r, m.rimMemGetId s = some r → (m.vm r).status.process = true → p ≠ some s → m.rimMemProcess = true)
          (size : Nat) {m' : Mem} (ho : Outcome ((·.2) <$> m.rimRealloc (m.rimMemGetId s) p size) m') : m'.Inv := by
  cases p with
  | none =>
    cases hid : m.rimMemGetId s <;> simp only [rimRealloc, rimMalloc, hid] at ho <;>
      cases ho <;> exact h
  | some a =>
    cases hid : m.rimMemGetId s with
    | none =>
      have hfr : m.Fresh a := (hfresh a rfl).resolve_right fun hsame => hsame.2 hid
      obtain ⟨m₁, hok, hinv, -⟩ := rimMalloc_allocated h (hroom hid (by simp)) hfr size
      rw [hid] at ho
      simp only [rimRealloc, hok] at ho
      cases ho
      exact hinv
    | some r =>
      obtain ⟨free, ord, ht⟩ := h
      obtain ⟨hr, hf, hp⟩ := ht.live_id hs hid
      by_cases has : a = s
      · -- the block stays where it is
        subst has
        rw [hid] at ho
        simp only [rimRealloc, hp, ne_eq, not_true_eq_false, ↓reduceIte] at ho
        cases ho
        exact ⟨free, ord, ht.setLen a size⟩
      · have hfr : m.Fresh a := (hfresh a rfl).resolve_right fun hsame => has hsame.1
        have ht₀ := ht.move hr hf hp hfr
        obtain ⟨m₀, hm₀⟩ : ∃ m₀, m₀ = (m.setHead a fun _ => m.head s).setVm r
            fun e => { e with ptr := some a } := ⟨_, rfl⟩
        rw [← hm₀] at ht₀
        have hm₀r : m₀.vm r = { m.vm r with ptr := some a } := by simp [hm₀]
        have hm₀mode : m₀.rimMemProcess = m.rimMemProcess := by simp [hm₀]
        obtain ⟨f, m₁, free', ord', hdel, h₁, hmode₁, hfr₁⟩ := release_entry ht₀ (r := r) (p := a)
          (by rw [hm₀]; exact hr) (by rw [hm₀r]; exact hf) (by rw [hm₀r])
        have hroom₁ : (m₁.rimMemRelease f).Room := Or.inl (by simp [rimMemRelease])
        obtain ⟨r', m₂, hadd, hstatus, ⟨free'', ord'', h₂⟩, -⟩ := rimAddMem_allocated ⟨_, _, h₁⟩ hroom₁ hfr₁
        rw [hid] at ho
        simp only [rimRealloc, hp, ne_eq, has, not_false_eq_true, ↓reduceIte,
          ← hm₀, hdel, hadd, bind, Except.bind, Functor.map, Except.map] at ho
        cases ho
        refine ⟨free'', ord'', (TableInv.setRef ?_ r' _).setLen a size⟩
        by_cases hproc : m.rimMemGetProcess (some r) = true
        · -- the new entry is process-scoped already: the mode put it there
          have hset : (m₂.vm r').status.or { process := true } = (m₂.vm r').status := by
            have hp' : m.rimMemProcess = true := hmode r hid hproc fun e => has (Option.some.inj e)
            rw [hstatus, hmode₁, hm₀mode, hp']
            rfl
          rw [if_pos hproc]
          refine h₂.congr rfl rfl rfl (fun i => ?_) (fun i => ?_) (fun i => ?_) (fun i => ?_)
            fun _ => rfl
          all_goals
            simp only [rimMemSetStatus, setVm_vm]
            by_cases hir : i = r'
            · subst hir
              simp only [↓reduceIte, rimVmset, setHead_vm, hset]
            · simp only [hir, ↓reduceIte]
        · rw [if_neg hproc]
          exact h₂

/-! ## The end of a request -/

/-- The loop of `rim_done` releases the entries of its list and no other. -/
theorem rimDoneLoop_releases : ∀ {fuel : Nat} {m : Mem} {free : List Nat}
    {i : Option Nat}, TableInv { m with vmFirstOrd := i } free ord none → ord.length ≤ fuel →
    ∃ m' free', rimDoneLoop fuel i m = .ok m' ∧
      TableInv { m' with vmFirstOrd := none } free' [] none ∧
      (∀ j, m'.vm j = m.vm j ∨ j ∈ ord) ∧
      (∀ j ∈ ord, (m'.vm j).ptr = none ∧ (m'.vm j).status = { free := true }) := by
  induction ord with
  | nil =>
    intro fuel m free i h _
    obtain rfl := seg_nil.mp h.ordChain
    refine ⟨m, free, by cases fuel <;> rfl, h, fun j => Or.inl rfl, fun j hj => by cases hj⟩
  | cons a rest ih =>
    intro fuel m free i h hlen
    obtain ⟨rfl, -⟩ := seg_cons.mp h.ordChain
    obtain ⟨hac, -⟩ := (h.mem_ord a).mp (List.mem_cons_self ..)
    have harest : a ∉ rest := (List.nodup_cons.mp (Seg.nodup h.ordChain)).1
    cases fuel with
    | zero => simp at hlen
    | succ fuel =>
      -- past its first entry, the list starts at that entry's `next`
      have hdetach : TableInv { m with vmFirstOrd := (m.vm a).next } free rest (some a) :=
        h.detach rfl rfl rfl (fun _ => rfl) (fun _ => rfl) (fun _ => rfl)
          fun i hi _ hf => h.header i hi (by simp) hf
      obtain ⟨m', free', hloop, ht', hkeep, hrel⟩ :=
        ih (m := m.rimMemRelease a) (i := (m.vm a).next) (hdetach.release hac)
          (Nat.le_of_succ_le_succ hlen)
      refine ⟨m', free', hloop, ht', fun j => ?_, fun j hj => ?_⟩
      · by_cases hja : j = a
        · exact Or.inr (hja ▸ List.mem_cons_self ..)
        · rcases hkeep j with he | hm
          · exact Or.inl (by rw [he, rimMemRelease_vm, if_neg hja])
          · exact Or.inr (List.mem_cons_of_mem _ hm)
      · rcases List.mem_cons.mp hj with rfl | hj
        · have he := (hkeep j).resolve_right harest
          rw [he, rimMemRelease_vm, if_pos rfl]
          exact ⟨rfl, rfl⟩
        · exact hrel j hj

/-- A list of the table's entries is no longer than the table. -/
theorem TableInv.length_ord_le (h : TableInv m free ord none) : ord.length ≤ m.vmCurr := by
  have hsub : ord ⊆ List.range m.vmCurr := fun i hi =>
    List.mem_range.mpr ((h.mem_ord i).mp hi).1
  have hle := ((Seg.nodup h.ordChain).subperm hsub).length_le
  rwa [List.length_range] at hle

/-- `rim_done` releases the ordinary entries and leaves every other one alone. -/
theorem rimDone_releases (h : TableInv m free ord none) :
    ∃ m', m.rimDone = .ok m' ∧ m'.Inv ∧ (∀ j, m'.vm j = m.vm j ∨ j ∈ ord) ∧
      (∀ j ∈ ord, (m'.vm j).ptr = none ∧ (m'.vm j).status = { free := true }) := by
  obtain ⟨m', free', hloop, ht', hkeep, hrel⟩ := rimDoneLoop_releases (m := m) h h.length_ord_le
  refine ⟨{ m' with vmFirstOrd := none }, ?_, ⟨free', [], ht'⟩, hkeep, hrel⟩
  simp only [rimDone, hloop, bind, Except.bind]

end RimStone.Mem
