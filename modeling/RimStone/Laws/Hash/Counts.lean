import RimStone.Laws.Hash.Run
import RimStone.Laws.Memory.Owners
import Mathlib.Tactic.Abel

/-!
# Hash statements keep the counts exact

Over runs of statements on any number of process-scoped hashes that share their
strings: the count of every process-scoped block is the number of pairs' places, and
of `others`, that hold it.

Two statements break this. `write-hash` with an `old-value` clause leaves the
reference to the value it replaces, and `resize-hash` adds references for the items
it makes and drops none for those it gives up. `Guard` is the condition that none of
this is to be seen: what is left behind is a constant.
-/

namespace RimStone

open Mem RimStone.Lib

def pairRefs (p : RimStr × Addr) : Addr → ℕ := Pi.single p.2 1 + Pi.single p.1.addr 1

def pairsRefs (l : List (RimStr × Addr)) : Addr → ℕ := (l.map pairRefs).sum

@[simp] theorem pairsRefs_nil : pairsRefs [] = 0 := rfl

@[simp] theorem pairsRefs_cons (p : RimStr × Addr) (l : List (RimStr × Addr)) :
    pairsRefs (p :: l) = pairRefs p + pairsRefs l := by
  unfold pairsRefs
  rw [List.map_cons, List.sum_cons]

theorem pairsRefs_perm {l l' : List (RimStr × Addr)} (h : l.Perm l') : pairsRefs l = pairsRefs l' :=
  (h.map pairRefs).sum_eq

namespace RimHash

def refs (h : RimHash) : Addr → ℕ := pairsRefs h.pairs

/-- The memory of a hash: its own, its table and its items. -/
def addrs (h : RimHash) : List Addr := h.addr :: h.tableAddr :: h.items.keys

def owner : Owner RimHash where
  refs := refs
  addrs := addrs
  good h := (∃ ahead, h.InOrder ahead) ∧ h.process = true

end RimHash

section Calls

variable {m m' : Mem} {holders : Addr → ℕ} {loose : Set Addr} {p : RimStr × Addr} {new : Addr}

/-- The calls that make an item. -/
theorem newItem_counted (hc : Counted m holders ∅) (hmode : m.rimMemProcess = true)
    (hkey : m.Live p.1.addr) (hdata : m.Live p.2) (hkn : p.1.addr ≠ new) (hdn : p.2 ≠ new)
    (hfresh : m.Fresh new) (hzero : holders new = 0)
    (hrun : m.runCalls [.malloc new sizeofItem, .addRef p.1.addr, .addRef p.2] = .ok m') :
    Counted m' (holders + pairRefs p) ∅ ∧ m.Keeps m' {new} ∧
      ∀ b, m'.Idle b ↔ b = new ∨ (m.Idle b ∧ ¬ (b = p.1.addr ∨ b = p.2)) := by
  obtain ⟨m₁, hmal, hrun⟩ := runCalls_cons.mp hrun
  obtain ⟨m₂, hadd, hrun⟩ := runCalls_cons.mp hrun
  obtain ⟨m₃, hadd', hnil⟩ := runCalls_cons.mp hrun
  obtain rfl := Except.ok.inj hnil
  obtain ⟨hc₁, hk₁, hi₁⟩ := hc.mallocCall hmode hfresh hzero (Set.notMem_empty _) hmal
  have hok : m₁.rimMemAddRef p.1.addr m₁.rimMemProcess = .ok m₂ := hadd
  rw [hk₁.mode, hmode] at hok
  obtain ⟨hc₂, hk₂, hi₂⟩ := hc₁.addRef (hk₁.live _ hkey) hok {new}
  have hok' : m₂.rimMemAddRef p.2 m₂.rimMemProcess = .ok m₃ := hadd'
  rw [hk₂.mode, hk₁.mode, hmode] at hok'
  obtain ⟨hc₃, hk₃, hi₃⟩ := hc₂.addRef (hk₂.live _ (hk₁.live _ hdata)) hok' {new}
  have hrefs : holders + pairRefs p = holders + Pi.single p.1.addr 1 + Pi.single p.2 1 := by
    unfold pairRefs
    rw [add_assoc, add_comm (Pi.single p.2 1)]
  rw [hrefs]
  refine ⟨hc₃, (hk₁.trans hk₂).trans hk₃, fun b => ?_⟩
  rw [hi₃, hi₂, hi₁]
  constructor
  · rintro ⟨⟨hb | hb, hbk⟩, hbd⟩
    · exact Or.inr ⟨hb, not_or.mpr ⟨hbk, hbd⟩⟩
    · exact Or.inl hb
  · rintro (rfl | ⟨hb, hu⟩)
    · exact ⟨⟨Or.inr rfl, hkn.symm⟩, hdn.symm⟩
    · obtain ⟨hbk, hbd⟩ := not_or.mp hu
      exact ⟨⟨Or.inl hb, hbk⟩, hbd⟩

/-- The calls that give up an item with its pair. -/
theorem dropItem_counted {a : Addr} (hc : Counted m (holders + pairRefs p) loose) (ha : m.Idle a)
    (hrun : m.runCalls [.decProcess p.1.addr, .decProcess p.2, .decProcess a] = .ok m') :
    Counted m' holders loose ∧ m.Keeps m' ∅ ∧ ∀ b, m'.Idle b ↔ m.Idle b ∧ b ≠ a := by
  obtain rfl := Except.ok.inj hrun
  have hc₀ : Counted m (holders + Pi.single p.2 1 + Pi.single p.1.addr 1) loose := by
    rw [add_assoc]
    exact hc
  obtain ⟨hc₁, hk₁, hi₁⟩ := hc₀.dropRef ∅
  obtain ⟨hc₂, hk₂, hi₂⟩ := hc₁.dropRef ∅
  obtain ⟨hc₃, hk₃, hi₃⟩ := hc₂.dropIdle ((hi₂ a).mpr ((hi₁ a).mpr ha)) ∅
  refine ⟨hc₃, (hk₁.trans hk₂).trans hk₃, fun b => ?_⟩
  rw [hi₃, hi₂, hi₁]

theorem Counted.of_const {a : Addr} (hc : Counted m (holders + Pi.single a 1) loose)
    (ha : m.rimMemGetId a = none) : Counted m holders loose := by
  have hdrop := (hc.dropRef (∅ : Set Addr)).1
  rwa [rimMemDecProcess_const ha] at hdrop

/-- Blocks are given up one after the other. -/
theorem dropIdle_counted {as : List Addr} (hc : Counted m holders loose) (hnd : as.Nodup)
    (has : ∀ a ∈ as, m.Idle a) (hrun : m.runCalls (as.map .decProcess) = .ok m') :
    Counted m' holders loose ∧ m.Keeps m' ∅ ∧ ∀ b, m'.Idle b ↔ m.Idle b ∧ b ∉ as := by
  induction as generalizing m with
  | nil =>
    obtain rfl := Except.ok.inj hrun
    exact ⟨hc, .refl _ _, fun b => by simp⟩
  | cons a as ih =>
    obtain ⟨m₁, hdec, hrun⟩ := runCalls_cons.mp hrun
    obtain rfl := Except.ok.inj hdec
    obtain ⟨hnot, hnd⟩ := List.nodup_cons.mp hnd
    obtain ⟨hc₁, hk₁, hi₁⟩ := hc.dropIdle (has a (List.mem_cons_self ..)) ∅
    have has₁ : ∀ b ∈ as, (m.rimMemDecProcess a).Idle b := fun b hb =>
      (hi₁ b).mpr ⟨has b (List.mem_cons_of_mem _ hb), ne_of_mem_of_not_mem hb hnot⟩
    obtain ⟨hc₂, hk₂, hi₂⟩ := ih hc₁ hnd has₁ hrun
    refine ⟨hc₂, hk₁.trans hk₂, fun b => ?_⟩
    rw [hi₂, hi₁, List.mem_cons, not_or, and_assoc]

/-- Items are given up with their pairs. -/
theorem dropItems_counted {es : List HashEntry} (hc : Counted m (holders + pairsRefs (es.map HashItems.pairOf)) loose)
    (hnd : (es.map Sigma.fst).Nodup) (has : ∀ a ∈ es.map Sigma.fst, m.Idle a)
    (hrun : m.runCalls (es.flatMap (RimHash.itemCalls true)) = .ok m') :
    Counted m' holders loose ∧ m.Keeps m' ∅ ∧ ∀ b, m'.Idle b ↔ m.Idle b ∧ b ∉ es.map Sigma.fst := by
  induction es generalizing m with
  | nil =>
    obtain rfl := Except.ok.inj hrun
    rw [List.map_nil, pairsRefs_nil, add_zero] at hc
    exact ⟨hc, .refl _ _, fun b => by simp⟩
  | cons s es ih =>
    rw [List.flatMap_cons] at hrun
    obtain ⟨m₁, hitem, hrun⟩ := runCalls_append.mp hrun
    rw [List.map_cons] at hnd has
    obtain ⟨hnot, hnd⟩ := List.nodup_cons.mp hnd
    rw [List.map_cons, pairsRefs_cons, add_comm (pairRefs _), ← add_assoc] at hc
    obtain ⟨hc₁, hk₁, hi₁⟩ := dropItem_counted hc (has s.1 (List.mem_cons_self ..)) hitem
    have has₁ : ∀ b ∈ es.map Sigma.fst, m₁.Idle b := fun b hb =>
      (hi₁ b).mpr ⟨has b (List.mem_cons_of_mem _ hb), ne_of_mem_of_not_mem hb hnot⟩
    obtain ⟨hc₂, hk₂, hi₂⟩ := ih hc₁ hnd has₁ hrun
    refine ⟨hc₂, hk₁.trans hk₂, fun b => ?_⟩
    rw [hi₂, hi₁, List.map_cons, List.mem_cons, not_or, and_assoc]

/-- Items are made for pairs of constants. -/
theorem addCalls_counted {answer : Nat → Addr} {i : Nat} {ps : List (RimStr × Addr)}
    (hc : Counted m holders ∅) (hmode : m.rimMemProcess = true)
    (hconst : ∀ p ∈ ps, m.rimMemGetId p.1.addr = none ∧ m.rimMemGetId p.2 = none)
    (hne : ∀ p ∈ ps, ∀ j, p.1.addr ≠ answer j ∧ p.2 ≠ answer j)
    (hinj : Function.Injective answer)
    (hfresh : ∀ j, i ≤ j → m.Fresh (answer j) ∧ holders (answer j) = 0)
    (hrun : m.runCalls (RimHash.addCalls answer i ps) = .ok m') :
    Counted m' holders ∅ ∧ m.Keeps m' (Set.range answer) ∧
      ∀ b, m'.Idle b ↔ m.Idle b ∨ b ∈ (List.range' i ps.length).map answer := by
  induction ps generalizing m i with
  | nil =>
    obtain rfl := Except.ok.inj hrun
    exact ⟨hc, .refl _ _, fun b => by simp⟩
  | cons p ps ih =>
    obtain ⟨m₁, hmal, hrun⟩ := runCalls_cons.mp hrun
    obtain ⟨m₂, hadd, hrun⟩ := runCalls_cons.mp hrun
    obtain ⟨m₃, hadd', hrun⟩ := runCalls_cons.mp hrun
    obtain ⟨hnew, hzero⟩ := hfresh i (Nat.le_refl i)
    obtain ⟨hc₁, hk₁, hi₁⟩ := hc.mallocCall hmode hnew hzero (Set.notMem_empty _) hmal
    obtain ⟨hkey, hdata⟩ := hconst p (List.mem_cons_self ..)
    obtain ⟨hkn, hdn⟩ := hne p (List.mem_cons_self ..) i
    -- the references to constants are not counted
    have hok : m₁.rimMemAddRef p.1.addr m₁.rimMemProcess = .ok m₂ := hadd
    rw [rimMemAddRef_const (hk₁.const _ hkn hkey)] at hok
    obtain rfl := Except.ok.inj hok
    have hok' : m₁.rimMemAddRef p.2 m₁.rimMemProcess = .ok m₃ := hadd'
    rw [rimMemAddRef_const (hk₁.const _ hdn hdata)] at hok'
    obtain rfl := Except.ok.inj hok'
    have hconst₁ : ∀ q ∈ ps, m₁.rimMemGetId q.1.addr = none ∧ m₁.rimMemGetId q.2 = none := by
      intro q hq
      obtain ⟨hqk, hqd⟩ := hconst q (List.mem_cons_of_mem _ hq)
      obtain ⟨hqk', hqd'⟩ := hne q (List.mem_cons_of_mem _ hq) i
      exact ⟨hk₁.const _ hqk' hqk, hk₁.const _ hqd' hqd⟩
    have hfresh₁ : ∀ j, i + 1 ≤ j → m₁.Fresh (answer j) ∧ holders (answer j) = 0 := by
      intro j hj
      obtain ⟨hnew', hzero'⟩ := hfresh j (by omega)
      refine ⟨hk₁.fresh _ (fun hm => ?_) hnew', hzero'⟩
      have heq := hinj hm
      omega
    obtain ⟨hc₂, hk₂, hi₂⟩ := ih hc₁ (hk₁.mode.trans hmode) hconst₁
      (fun q hq => hne q (List.mem_cons_of_mem _ hq)) hfresh₁ hrun
    have hsub : ({answer i} : Set Addr) ⊆ Set.range answer := by
      rintro _ rfl
      exact ⟨i, rfl⟩
    refine ⟨hc₂, (hk₁.mono hsub).trans hk₂, fun b => ?_⟩
    rw [hi₂, hi₁, List.length_cons, List.range'_succ, List.map_cons, List.mem_cons, or_assoc]

end Calls

namespace RimHash

/-- A process-scoped hash in order, in a memory that counts its places. -/
structure Ready (rest : Addr → ℕ) (m : Mem) (h : RimHash) (ahead : Set Bytes) : Prop where
  order : h.InOrder ahead
  process : h.process = true
  counted : Counted m (rest + h.refs) ∅
  apart : h.addrs.Nodup
  idle : ∀ a ∈ h.addrs, m.Idle a

section Becomes

variable {rest : Addr → ℕ} {m m' : Mem} {h h' : RimHash} {ahead : Set Bytes} {key : RimStr}
  {data new : Addr}

theorem Ready.mem_idle (hr : Ready rest m h ahead) {b : Addr} : m.Idle b ↔ b ∈ h.addrs ∨ (m.Idle b ∧ b ∉ h.addrs) := by
  by_cases hb : b ∈ h.addrs
  · simp [hb, hr.idle b hb]
  · simp [hb]

theorem Ready.lookup_fresh {rest : Addr → ℕ} (hr : Ready rest m h ahead) {a : Addr}
    (hf : m.Fresh a) : h.items.lookup a = none := by
  rw [AList.lookup_eq_none]
  intro hmem
  have hown : a ∈ h.addrs := List.mem_cons_of_mem _ (List.mem_cons_of_mem _ hmem)
  exact hf.not_idle (hr.idle a hown)

/-- What holds after the calls in the scope of a hash holds after it. -/
theorem becomes_of_scope {used : Addr → Prop} {m₁ : Mem} (hgood : (∃ ahead, h'.InOrder ahead) ∧ h'.process = true)
    (hc : Counted m₁ (rest + h'.refs) ∅) (hnd : h'.addrs.Nodup)
    (hown : ∀ a ∈ h'.addrs, a ∈ h.addrs ∨ ¬ m.Idle a)
    (hidle : ∀ b, m₁.Idle b ↔ b ∈ h'.addrs ∨ (m.Idle b ∧ b ∉ h.addrs ∧ ¬ used b)) :
    owner.Becomes rest h m used h' { m₁ with rimMemProcess := false } :=
  ⟨hgood, rfl, hc.setMode false, hnd, hown, hidle⟩

/-- `rim_add_hash` -/
theorem add_becomes (hr : Ready rest m h ahead) {oldData : Bool} {calls : List MemCall}
    {out : HashOut} (hgood : (∃ ahead, h'.InOrder ahead) ∧ h'.process = true)
    (hout : AddOutcome h ahead key data oldData new h' (calls, out)) (hsame : SameHash h h')
    (hkey : m.Live key.addr) (hdata : m.Live data) (hkn : key.addr ≠ new) (hdn : data ≠ new)
    (hka : key.addr ∉ h.addrs) (hda : data ∉ h.addrs) (hfresh : m.Fresh new)
    (hzero : (rest + h.refs) new = 0)
    (hguard : oldData = true → ∀ p ∈ h.pairs, ckey p = cstr key.bytes → m.rimMemGetId p.2 = none)
    (hrun : m.inScope h.process calls = .ok m') :
    owner.Becomes rest h m (fun b => b = key.addr ∨ b = data) h' m' := by
  obtain ⟨m₁, hcalls, rfl⟩ := inScope_ok hrun
  rw [hr.process] at hcalls
  have hc := hr.counted.setMode true
  cases hout with
  | added habs hpairs' haddrs hinv =>
    obtain ⟨hc₁, hk₁, hi₁⟩ := newItem_counted (p := (key, data)) hc rfl hkey hdata hkn hdn hfresh
      hzero hcalls
    have hrefs : rest + h'.refs = rest + h.refs + pairRefs (key, data) := by
      unfold refs
      rw [hpairs', pairsRefs_cons, add_assoc, add_comm (pairRefs _)]
    have hnot : new ∉ h.addrs := fun hm => hfresh.not_idle (hr.idle new hm)
    have hperm : h'.addrs.Perm (new :: h.addrs) := by
      unfold addrs
      rw [haddrs, hsame.addr, hsame.tableAddr]
      exact (List.Perm.cons _ (List.Perm.swap _ _ _)).trans (List.Perm.swap _ _ _)
    have hmem : ∀ b, b ∈ h'.addrs ↔ b = new ∨ b ∈ h.addrs := fun b =>
      hperm.mem_iff.trans List.mem_cons
    refine becomes_of_scope hgood (hrefs ▸ hc₁)
      (hperm.nodup_iff.mpr (List.nodup_cons.mpr ⟨hnot, hr.apart⟩)) (fun a ha => ?_) fun b => ?_
    · rcases (hmem a).mp ha with rfl | ha
      · exact Or.inr hfresh.not_idle
      · exact Or.inl ha
    · rw [hi₁ b, hmem]
      constructor
      · rintro (hb | ⟨hb, hu⟩)
        · exact Or.inl (Or.inl hb)
        · by_cases hba : b ∈ h.addrs
          · exact Or.inl (Or.inr hba)
          · exact Or.inr ⟨hb, hba, hu⟩
      · rintro ((hb | hb) | ⟨hb, -, hu⟩)
        · exact Or.inl hb
        · refine Or.inr ⟨hr.idle b hb, not_or.mpr ⟨?_, ?_⟩⟩
          · exact ne_of_mem_of_not_mem hb hka
          · exact ne_of_mem_of_not_mem hb hda
        · exact Or.inr ⟨hb, hu⟩
  | replaced k d l hk hpairs hpairs' haddrs hinv =>
    rw [List.append_assoc] at hcalls
    obtain ⟨m₂, hadds, hdrops⟩ := runCalls_append.mp hcalls
    obtain ⟨m₃, hadd, hadds⟩ := runCalls_cons.mp hadds
    obtain ⟨m₄, hadd', hnil⟩ := runCalls_cons.mp hadds
    obtain rfl := Except.ok.inj hnil
    obtain ⟨hc₁, hk₁, hi₁⟩ := hc.addRef hkey hadd (∅ : Set Addr)
    have hok' : m₃.rimMemAddRef data m₃.rimMemProcess = .ok m₄ := hadd'
    rw [hk₁.mode] at hok'
    obtain ⟨hc₂, hk₂, hi₂⟩ := hc₁.addRef (hk₁.live data hdata) hok' (∅ : Set Addr)
    have hrefs : rest + h.refs + Pi.single key.addr 1 + Pi.single data 1 =
        rest + h'.refs + Pi.single k.addr 1 + Pi.single d 1 := by
      unfold refs
      rw [pairsRefs_perm hpairs, pairsRefs_perm hpairs', pairsRefs_cons, pairsRefs_cons]
      unfold pairRefs
      abel
    rw [hrefs] at hc₂
    -- the old value is dropped, or is a constant
    have hdrop : Counted m₁ (rest + h'.refs) ∅ ∧ ∀ b, m₁.Idle b ↔ m₄.Idle b := by
      obtain ⟨m₅, hold, hdropk⟩ := runCalls_append.mp hdrops
      obtain rfl := Except.ok.inj hdropk
      cases oldData with
      | false =>
        obtain rfl := Except.ok.inj hold
        obtain ⟨hc₃, -, hi₃⟩ := hc₂.dropRef (∅ : Set Addr)
        obtain ⟨hc₄, -, hi₄⟩ := hc₃.dropRef (∅ : Set Addr)
        exact ⟨hc₄, fun b => (hi₄ b).trans (hi₃ b)⟩
      | true =>
        obtain rfl := Except.ok.inj hold
        have hmem : (k, d) ∈ h.pairs := hpairs.mem_iff.mpr (List.mem_cons_self ..)
        have hconst : m.rimMemGetId d = none := hguard rfl (k, d) hmem hk
        have hconst' := hk₂.const d (Set.notMem_empty d) (hk₁.const d (Set.notMem_empty d) hconst)
        obtain ⟨hc₄, -, hi₄⟩ := (hc₂.of_const hconst').dropRef (∅ : Set Addr)
        exact ⟨hc₄, hi₄⟩
    have hperm : h'.addrs.Perm h.addrs := by
      unfold addrs
      rw [hsame.addr, hsame.tableAddr]
      exact (haddrs.symm.cons _).cons _
    refine becomes_of_scope hgood hdrop.1 (hperm.nodup_iff.mpr hr.apart)
      (fun a ha => Or.inl (hperm.mem_iff.mp ha)) fun b => ?_
    rw [hdrop.2 b, hi₂, hi₁, hperm.mem_iff, and_assoc]
    constructor
    · rintro ⟨hb, hbk, hbd⟩
      by_cases hba : b ∈ h.addrs
      · exact Or.inl hba
      · exact Or.inr ⟨hb, hba, not_or.mpr ⟨hbk, hbd⟩⟩
    · rintro (hb | ⟨hb, -, hu⟩)
      · exact ⟨hr.idle b hb, ne_of_mem_of_not_mem hb hka, ne_of_mem_of_not_mem hb hda⟩
      · exact ⟨hb, not_or.mp hu⟩

/-- `rim_find_hash` -/
theorem find_becomes (hr : Ready rest m h ahead) {del : Bool} {calls : List MemCall}
    {out : HashOut} (hgood : (∃ ahead, h'.InOrder ahead) ∧ h'.process = true)
    (hout : FindOutcome h ahead key del h' (calls, out)) (hsame : SameHash h h')
    (hrun : m.inScope h.process calls = .ok m') :
    owner.Becomes rest h m (fun _ => False) h' m' := by
  obtain ⟨m₁, hcalls, rfl⟩ := inScope_ok hrun
  have hc := hr.counted.setMode h.process
  have hkept : h'.items = h.items → calls = [] →
      owner.Becomes rest h m (fun _ => False) h' { m₁ with rimMemProcess := false } := by
    intro hitems hnil
    rw [hnil] at hcalls
    obtain rfl := Except.ok.inj hcalls
    have haddrs : h'.addrs = h.addrs := by
      unfold addrs
      rw [hsame.addr, hsame.tableAddr, hitems]
    have hrefs : h'.refs = h.refs := by
      unfold refs pairs
      rw [hitems]
    refine becomes_of_scope hgood (hrefs ▸ hc) (haddrs ▸ hr.apart) (fun a ha => ?_) fun b => ?_
    · exact Or.inl (haddrs ▸ ha)
    · rw [haddrs]
      simp only [not_false_eq_true, and_true]
      exact hr.mem_idle
  cases hout with
  | absent habs hitems => exact hkept hitems rfl
  | kept hdel k d hkey hmem hitems => exact hkept hitems rfl
  | removed hdel k d a hkey hpairs haddrs =>
    have hrefs : rest + h.refs = rest + h'.refs + pairRefs (k, d) := by
      unfold refs
      rw [pairsRefs_perm hpairs, pairsRefs_cons, add_assoc, add_comm (pairRefs _)]
    rw [hrefs] at hc
    have hperm : h.addrs.Perm (a :: h'.addrs) := by
      unfold addrs
      rw [hsame.addr, hsame.tableAddr]
      exact ((haddrs.cons _).cons _).trans
        ((List.Perm.cons _ (List.Perm.swap _ _ _)).trans (List.Perm.swap _ _ _))
    have ha : a ∈ h.addrs := hperm.mem_iff.mpr (List.mem_cons_self ..)
    obtain ⟨hnot, hnd⟩ := List.nodup_cons.mp (hperm.nodup_iff.mp hr.apart)
    have hmem : ∀ b, b ∈ h.addrs ↔ b = a ∨ b ∈ h'.addrs := fun b =>
      hperm.mem_iff.trans List.mem_cons
    obtain ⟨hc₁, -, hi₁⟩ := dropItem_counted (p := (k, d)) hc (hr.idle a ha) hcalls
    refine becomes_of_scope hgood hc₁ hnd (fun b hb => Or.inl ((hmem b).mpr (Or.inr hb))) fun b => ?_
    rw [hi₁, hmem]
    constructor
    · rintro ⟨hb, hba⟩
      by_cases hbh : b ∈ h'.addrs
      · exact Or.inl hbh
      · exact Or.inr ⟨hb, not_or.mpr ⟨hba, hbh⟩, id⟩
    · rintro (hb | ⟨hb, hu, -⟩)
      · exact ⟨hr.idle b ((hmem b).mpr (Or.inr hb)), ne_of_mem_of_not_mem hb hnot⟩
      · exact ⟨hb, (not_or.mp hu).1⟩

/-- The memory of a new hash, whose own block and table are `answer 0` and `answer 1`. -/
theorem newHash_counted {holders : Addr → ℕ} {addr tableAddr : Addr} {size n : Nat}
    (hc : Counted m holders ∅) (hmode : m.rimMemProcess = true) (hne : addr ≠ tableAddr)
    (ha : m.Fresh addr) (ht : m.Fresh tableAddr) (ha₀ : holders addr = 0)
    (ht₀ : holders tableAddr = 0)
    (hrun : m.runCalls [.malloc addr size, .calloc tableAddr n sizeofPtr] = .ok m') :
    Counted m' holders ∅ ∧ m.Keeps m' {addr, tableAddr} ∧ ∀ b, m'.Idle b ↔ m.Idle b ∨ b = addr ∨ b = tableAddr := by
  obtain ⟨m₁, hmal, hrun⟩ := runCalls_cons.mp hrun
  obtain ⟨m₂, hcal, hnil⟩ := runCalls_cons.mp hrun
  obtain rfl := Except.ok.inj hnil
  obtain ⟨hc₁, hk₁, hi₁⟩ := hc.mallocCall hmode ha ha₀ (Set.notMem_empty _) hmal
  obtain ⟨hc₂, hk₂, hi₂⟩ := hc₁.calloc (hk₁.mode.trans hmode) (hk₁.fresh _ hne.symm ht) ht₀
    (Set.notMem_empty _) hcal
  have hsub₁ : ({addr} : Set Addr) ⊆ {addr, tableAddr} := fun b hb => Or.inl hb
  have hsub₂ : ({tableAddr} : Set Addr) ⊆ {addr, tableAddr} := fun b hb => Or.inr hb
  refine ⟨hc₂, (hk₁.mono hsub₁).trans (hk₂.mono hsub₂), fun b => ?_⟩
  rw [hi₂, hi₁, or_assoc]

/-- What giving up items without their pairs asks of the memory. -/
theorem flatMap_itemCalls (es : List HashEntry) :
    es.flatMap (itemCalls false) = (es.map Sigma.fst).map MemCall.decProcess := by
  induction es with
  | nil => rfl
  | cons s es ih =>
    rw [List.flatMap_cons, List.map_cons, List.map_cons, ih]
    rfl

/-- `rim_resize_hash`, of a hash of constants -/
theorem resize_becomes (hr : Ready rest m h ahead) {newsize : Int} {answer : Nat → Addr}
    {calls : List MemCall} (hgood : (∃ ahead, h'.InOrder ahead) ∧ h'.process = true)
    (hsize : newsize < 2 ^ 61) (hinj : Function.Injective answer)
    (hexec : h.rimResizeHash newsize answer = some (h', calls))
    (hfresh : ∀ j, m.Fresh (answer j) ∧ (rest + h.refs) (answer j) = 0)
    (hconst : ∀ p ∈ h.pairs, m.rimMemGetId p.1.addr = none ∧ m.rimMemGetId p.2 = none)
    (hrun : m.inScope h.process calls = .ok m') :
    owner.Becomes rest h m (fun _ => False) h' m' := by
  obtain ⟨h₁, ps, es, ahead', hexec₁, hps, hes, -, hpairs, hkeys, haddr, htable, -, -⟩ :=
    rimResizeHash_keeps hr.order.inv hsize hinj
  obtain ⟨rfl, rfl⟩ := Prod.mk.inj (Option.some.inj (hexec.symm.trans hexec₁))
  obtain ⟨m₁, hcalls, rfl⟩ := inScope_ok hrun
  rw [hr.process] at hcalls
  obtain ⟨m₃, hcalls, hdelete⟩ := runCalls_append.mp hcalls
  obtain ⟨m₂, hcreate, hadd⟩ := runCalls_append.mp hcalls
  have hc := hr.counted.setMode true
  -- no pair holds an answer
  have hheld : ∀ p ∈ h.pairs, ∀ j, p.1.addr ≠ answer j ∧ p.2 ≠ answer j := by
    intro p hp j
    have hzero := (hfresh j).2
    have hle : pairRefs p (answer j) ≤ h.refs (answer j) := by
      obtain ⟨l₁, l₂, hl⟩ := List.append_of_mem hp
      unfold refs
      rw [pairsRefs_perm ((List.Perm.of_eq hl).trans List.perm_middle), pairsRefs_cons]
      exact Nat.le_add_right _ _
    rw [Pi.add_apply] at hzero
    constructor
    · intro heq
      have hpos : 0 < pairRefs p (answer j) := by
        rw [pairRefs, heq, Pi.add_apply, Pi.single_eq_same]
        omega
      omega
    · intro heq
      have hpos : 0 < pairRefs p (answer j) := by
        rw [pairRefs, heq, Pi.add_apply, Pi.single_eq_same]
        omega
      omega
  have hne : answer 0 ≠ answer 1 := fun heq => by cases hinj heq
  obtain ⟨hc₂, hk₂, hi₂⟩ := newHash_counted hc rfl hne (hfresh 0).1 (hfresh 1).1 (hfresh 0).2
    (hfresh 1).2 hcreate
  have hnew : ∀ b j, b = answer j → 2 ≤ j → b ∉ ({answer 0, answer 1} : Set Addr) := by
    rintro b j rfl hj (hm | hm)
    · have := hinj hm
      omega
    · have := hinj hm
      omega
  have hconst₂ : ∀ p ∈ ps, m₂.rimMemGetId p.1.addr = none ∧ m₂.rimMemGetId p.2 = none := by
    intro p hp
    obtain ⟨hk, hd⟩ := hconst p (hps.mem_iff.mp hp)
    have hno := hheld p (hps.mem_iff.mp hp)
    refine ⟨hk₂.const _ ?_ hk, hk₂.const _ ?_ hd⟩
    · rintro (hm | hm)
      · exact (hno 0).1 hm
      · exact (hno 1).1 hm
    · rintro (hm | hm)
      · exact (hno 0).2 hm
      · exact (hno 1).2 hm
  have hfresh₂ : ∀ j, 2 ≤ j → m₂.Fresh (answer j) ∧ (rest + h.refs) (answer j) = 0 := fun j hj =>
    ⟨hk₂.fresh _ (hnew _ j rfl hj) (hfresh j).1, (hfresh j).2⟩
  obtain ⟨hc₃, hk₃, hi₃⟩ := addCalls_counted hc₂ hk₂.mode hconst₂
    (fun p hp => hheld p (hps.mem_iff.mp hp)) hinj hfresh₂ hadd
  -- the items, the table and the hash that are given up
  have hflat : es.flatMap (itemCalls false) ++ [.decProcess h.tableAddr, .decProcess h.addr] =
      (es.map Sigma.fst ++ [h.tableAddr, h.addr]).map MemCall.decProcess := by
    rw [List.map_append, flatMap_itemCalls]
    rfl
  rw [hflat] at hdelete
  have hold : (es.map Sigma.fst ++ [h.tableAddr, h.addr]).Perm h.addrs := by
    unfold addrs
    refine ((hes.map Sigma.fst).append_right _).trans (List.perm_append_comm.trans ?_)
    exact List.Perm.swap _ _ _
  have hidle₃ : ∀ a ∈ es.map Sigma.fst ++ [h.tableAddr, h.addr], m₃.Idle a := fun a ha =>
    (hi₃ a).mpr (Or.inl ((hi₂ a).mpr (Or.inl (hr.idle a (hold.mem_iff.mp ha)))))
  obtain ⟨hc₄, -, hi₄⟩ := dropIdle_counted hc₃ (hold.nodup_iff.mpr hr.apart) hidle₃ hdelete
  have hrefs : h'.refs = h.refs := pairsRefs_perm hpairs
  have haddrs' : h'.addrs.Perm ((List.range' 0 (ps.length + 2)).map answer) := by
    unfold addrs
    rw [haddr, htable, List.range'_succ, List.range'_succ]
    exact (hkeys.cons _).cons _
  have hmem : ∀ b, b ∈ h'.addrs ↔ (b = answer 0 ∨ b = answer 1) ∨
      b ∈ (List.range' 2 ps.length).map answer := by
    intro b
    rw [haddrs'.mem_iff, List.range'_succ, List.range'_succ, List.map_cons, List.map_cons,
      List.mem_cons, List.mem_cons, or_assoc]
  have hanswer : ∀ b ∈ h'.addrs, ¬ m.Idle b := by
    intro b hb
    obtain ⟨j, -, rfl⟩ := List.mem_map.mp (haddrs'.mem_iff.mp hb)
    exact (hfresh j).1.not_idle
  refine becomes_of_scope hgood (hrefs ▸ hc₄)
    (haddrs'.nodup_iff.mpr (List.Nodup.map hinj (List.nodup_range' ..)))
    (fun a ha => Or.inr (hanswer a ha)) fun b => ?_
  rw [hi₄, hi₃, hi₂, hold.mem_iff, hmem]
  constructor
  · rintro ⟨(hb | hb) | hb, hno⟩
    · exact Or.inr ⟨hb, hno, id⟩
    · exact Or.inl (Or.inl hb)
    · exact Or.inl (Or.inr hb)
  · intro hb
    have hno : b ∈ h'.addrs → b ∉ h.addrs := fun hb' hb => hanswer b hb' (hr.idle b hb)
    rw [hmem] at hno
    rcases hb with hb | ⟨hb, hbh, -⟩
    · refine ⟨?_, hno hb⟩
      rcases hb with hb | hb
      · exact Or.inl (Or.inr hb)
      · exact Or.inr hb
    · exact ⟨Or.inl (Or.inl hb), hbh⟩

/-- `rim_delete_hash` with `del` -/
theorem purge_becomes (hr : Ready rest m h ahead) {addr tableAddr : Addr} {calls : List MemCall}
    (hgood : (∃ ahead, h'.InOrder ahead) ∧ h'.process = true)
    (hexec : h.rimDeleteHash true addr tableAddr = some (some h', calls)) (hne : addr ≠ tableAddr)
    (ha : m.Fresh addr) (ht : m.Fresh tableAddr) (ha₀ : (rest + h.refs) addr = 0)
    (ht₀ : (rest + h.refs) tableAddr = 0) (hrun : m.inScope h.process calls = .ok m') :
    owner.Becomes rest h m (fun _ => False) h' m' := by
  obtain ⟨h₁, es, hexec₁, hes, hcr⟩ := rimDeleteHash_purges hr.order.inv hr.order.limit addr tableAddr
  obtain ⟨hsome, rfl⟩ := Prod.mk.inj (Option.some.inj (hexec.symm.trans hexec₁))
  obtain rfl := Option.some.inj hsome
  obtain ⟨m₁, hcalls, rfl⟩ := inScope_ok hrun
  rw [hr.process] at hcalls
  obtain ⟨m₃, hcalls, hcreate⟩ := runCalls_append.mp hcalls
  obtain ⟨m₂, hitems, hown⟩ := runCalls_append.mp hcalls
  have hc := hr.counted.setMode true
  have hrefs : h.refs = pairsRefs (es.map HashItems.pairOf) := pairsRefs_perm (hes.map HashItems.pairOf).symm
  have hkeys : (es.map Sigma.fst).Perm h.items.keys := hes.map Sigma.fst
  obtain ⟨hnotA, hndT⟩ := List.nodup_cons.mp hr.apart
  obtain ⟨hnotT, hndK⟩ := List.nodup_cons.mp hndT
  have hidleK : ∀ a ∈ es.map Sigma.fst, m.Idle a := fun a hm =>
    hr.idle a (List.mem_cons_of_mem _ (List.mem_cons_of_mem _ (hkeys.mem_iff.mp hm)))
  rw [hrefs] at hc
  obtain ⟨hc₂, hk₂, hi₂⟩ := dropItems_counted hc (hkeys.nodup_iff.mpr hndK) hidleK hitems
  have hown' : m₂.runCalls ([h.tableAddr, h.addr].map .decProcess) = .ok m₃ := hown
  have hnd₂ : [h.tableAddr, h.addr].Nodup := by
    refine List.nodup_cons.mpr ⟨fun hm => ?_, List.nodup_singleton _⟩
    exact hnotA (List.mem_singleton.mp hm ▸ List.mem_cons_self ..)
  have hidle₂ : ∀ a ∈ [h.tableAddr, h.addr], m₂.Idle a := by
    intro a hm
    refine (hi₂ a).mpr ⟨hr.idle a ?_, fun hk => ?_⟩
    · simp only [List.mem_cons, List.not_mem_nil, or_false] at hm
      rcases hm with rfl | rfl
      · exact List.mem_cons_of_mem _ (List.mem_cons_self ..)
      · exact List.mem_cons_self ..
    · have hk := hkeys.mem_iff.mp hk
      simp only [List.mem_cons, List.not_mem_nil, or_false] at hm
      rcases hm with rfl | rfl
      · exact hnotT hk
      · exact hnotA (List.mem_cons_of_mem _ hk)
  obtain ⟨hc₃, hk₃, hi₃⟩ := dropIdle_counted hc₂ hnd₂ hidle₂ hown'
  have hk₂₃ := hk₂.trans hk₃
  have hzero : ∀ a, (rest + h.refs) a = 0 → rest a = 0 := by
    intro a hz
    rw [Pi.add_apply] at hz
    omega
  obtain ⟨hc₄, -, hi₄⟩ := newHash_counted hc₃ hk₂₃.mode hne (hk₂₃.fresh _ (Set.notMem_empty _) ha)
    (hk₂₃.fresh _ (Set.notMem_empty _) ht) (hzero _ ha₀) (hzero _ ht₀) hcreate
  have hempty : h'.refs = 0 := by
    unfold refs pairs HashItems.pairs
    rw [hcr.items]
    rfl
  have haddrs : h'.addrs = [addr, tableAddr] := by
    unfold addrs
    rw [hcr.addr, hcr.tableAddr, hcr.items]
    rfl
  refine becomes_of_scope hgood ?_ ?_ (fun a hm => ?_) fun b => ?_
  · rw [hempty, add_zero]
    exact hc₄
  · rw [haddrs]
    simp [hne]
  · rw [haddrs] at hm
    simp only [List.mem_cons, List.not_mem_nil, or_false] at hm
    rcases hm with rfl | rfl
    · exact Or.inr ha.not_idle
    · exact Or.inr ht.not_idle
  · rw [hi₄, hi₃, hi₂, haddrs]
    have hgone : b ∈ h.addrs ↔ b ∈ es.map Sigma.fst ∨ b ∈ [h.tableAddr, h.addr] := by
      rw [hkeys.mem_iff]
      unfold addrs
      simp only [List.mem_cons, List.not_mem_nil, or_false]
      tauto
    rw [hgone]
    simp only [List.mem_cons, List.not_mem_nil, or_false, not_or, not_false_eq_true, and_true]
    tauto

end Becomes

end RimHash

end RimStone
