import RimStone.Laws.Tree.OrderedMap
import RimStone.Laws.Memory.Counts
import RimStone.Tree.Statements
import Mathlib.Algebra.BigOperators.Group.List.Basic

/-!
# Counts of the values in trees

Each node of a tree holds its key and its data. What `tree.c` and the generated
code ask of the memory is followed with the counts of `Counted`: a write adds the
two references of the new node, an update exchanges one, a deletion drops two. The
memory of the nodes themselves is idle while they are in a tree.

The code drops a value once more when the value of a deleted node is not asked for,
and for each node of a purge. The counts are exact afterwards if that value is held
nowhere any more.
-/

namespace RimStone

open TreeNode Mem

/-- The places of a node: how many of them hold the block at an address. -/
def NodeData.refs (d : NodeData) : Addr → ℕ := Pi.single d.data 1 + Pi.single d.key.addr 1

def refsOf (l : List NodeData) : Addr → ℕ := (l.map NodeData.refs).sum

@[simp] theorem refsOf_nil : refsOf [] = 0 := rfl

@[simp] theorem refsOf_cons (d : NodeData) (l : List NodeData) : refsOf (d :: l) = d.refs + refsOf l := by
  simp [refsOf]

theorem refsOf_append (I J : List NodeData) : refsOf (I ++ J) = refsOf I + refsOf J := by
  simp [refsOf]

theorem refsOf_middle (I J : List NodeData) (d : NodeData) : refsOf (I ++ d :: J) = refsOf (I ++ J) + d.refs := by
  rw [refsOf_append, refsOf_append, refsOf_cons, add_comm d.refs, add_assoc]

variable {d e : NodeData} {J K : List NodeData} {gone : Addr}

theorem le_refsOf {l : List NodeData} (hd : d ∈ l) (a : Addr) : d.refs a ≤ refsOf l a := by
  obtain ⟨I, J, rfl⟩ := List.append_of_mem hd
  rw [refsOf_middle]
  exact Nat.le_add_left ..

theorem refs_data_pos (d : NodeData) : 0 < d.refs d.data := by
  unfold NodeData.refs
  rw [Pi.add_apply, Pi.single_eq_same]
  exact Nat.add_pos_left Nat.one_pos _

/-- Two entries that changed places count as before. -/
theorem RimTree.Removes.refs (h : RimTree.Removes e J K gone) : refsOf K = refsOf J := by
  have hfactor : ∀ l : List NodeData, l.map NodeData.refs =
      (l.map fun d => (d.key, d.data)).map
        fun p => (Pi.single p.2 1 + Pi.single p.1.addr 1 : Addr → ℕ) := by
    intro l
    rw [List.map_map]
    rfl
  unfold refsOf
  rw [hfactor, hfactor, h.entries]

namespace RimTree

def refs (t : RimTree) : Addr → ℕ := refsOf t.nodes

def addrs (t : RimTree) : List Addr := t.tree.inorder.map (·.addr)

/-- The memory of the nodes of `t'` is that of the nodes of `t`, but for what a
deletion gave up and but for what is `new`. -/
structure Reuses (t t' : RimTree) (new : Set Addr) : Prop where
  nodup : t.addrs.Nodup → (∀ a ∈ new, a ∉ t.addrs) → t'.addrs.Nodup
  sub : ∀ a ∈ t'.addrs, a ∈ t.addrs ∨ a ∈ new

/-- The idle blocks of the two memories are the same, apart from those `used`, and
from nodes. -/
structure IdleNodes (t t' : RimTree) (m m' : Mem) (used : Addr → Prop) : Prop where
  keep : ∀ b, m.Idle b → b ∉ t.addrs → ¬ used b → m'.Idle b
  node : ∀ b ∈ t'.addrs, m'.Idle b
  only : ∀ b, m'.Idle b → b ∈ t'.addrs ∨ (m.Idle b ∧ b ∉ t.addrs)

section Laws

variable {t t' : RimTree} {st : TreeSt} {m m' : Mem} {holders : Addr → ℕ} {loose : Set Addr}
  {key : RimStr} {data fresh : Addr}

theorem Reuses.of_addrs (h : t'.addrs = t.addrs) (new : Set Addr) : t.Reuses t' new := by
  refine ⟨fun hnd _ => ?_, fun a ha => Or.inl ?_⟩
  · rw [h]
    exact hnd
  · rwa [h] at ha

/-- The nodes under the top and the top. -/
theorem addrs_of_top {n : Nat} (htop : t.tree = node d n t.rootNode null) :
    t.addrs = t.rootNode.inorder.map (·.addr) ++ [d.addr] := by
  unfold addrs
  rw [htop]
  simp only [inorder, List.map_append, List.map_cons, List.map_nil]

/-- What an operation made of the nodes, it made of their memory. -/
theorem SameType.addrs (h : SameType t t') : ∃ top : Addr,
    t.addrs = t.rootNode.inorder.map (·.addr) ++ [top] ∧
    t'.addrs = t'.rootNode.inorder.map (·.addr) ++ [top] := by
  obtain ⟨d, n, n', htop, htop'⟩ := h.top
  exact ⟨d.addr, addrs_of_top htop, addrs_of_top htop'⟩

/-- What is not idle is no node's memory. -/
theorem fresh_of_idle (h : t.TreeInv) (hnode : ∀ a ∈ t.addrs, m.Idle a) (hlim : fresh < addrLimit)
    (hnew : ¬ m.Idle fresh) : t.Fresh fresh := by
  obtain ⟨top, n, htop⟩ := h.top
  refine ⟨hlim, ?_⟩
  rintro d hd rfl
  refine hnew (hnode d.addr ?_)
  rw [addrs_of_top htop]
  exact List.mem_append_left _ (List.mem_map.mpr ⟨d, hd, rfl⟩)

/-- The search, when its loop comes to a node. -/
theorem search_found (he : e ∈ t.nodes) (hfound : rimTreeSearchLoop (t.ctx key (-1)) t.rootNode = some e.addr) :
    t.rimTreeSearchF {} key (-1) = RimTreeCursor.found {} (some e.addr) := by
  unfold nodes at he
  unfold rimTreeSearchF rimTreeSearch
  split_ifs at he ⊢
  · rw [hfound]
  · exact absurd he List.not_mem_nil

/-! ## Writing -/

/-- The counts after an insertion that went through, or whose key is a constant. -/
theorem insert_counted (hout : InsertOutcome t key data fresh t' st) (hsame : SameType t t')
    (hc : Counted m (holders + t.refs) ∅) (hmode : m.rimMemProcess = true)
    (hkey : m.Live key.addr) (hdata : m.Live data) (hkf : key.addr ≠ fresh) (hdf : data ≠ fresh)
    (hnode : ∀ a ∈ t.addrs, m.Idle a) (hkn : key.addr ∉ t.addrs) (hdn : data ∉ t.addrs)
    (hfresh : m.Fresh fresh) (hzero : (holders + t.refs) fresh = 0)
    (hguard : m.rimMemGetId key.addr = none ∨ (t.rimTreeSearchF {} key (-1)).status = .errExist)
    (hrun : m.runCalls st.calls = .ok m') :
    Counted m' (holders + t'.refs) ∅ ∧ m.Keeps m' {fresh} ∧ t.Reuses t' {fresh} ∧
      t.IdleNodes t' m m' fun b => b = key.addr ∨ b = data := by
  obtain ⟨top, haddrs, haddrs'⟩ := hsame.addrs
  have hnotfresh : fresh ∉ t.addrs := fun hm => hfresh.not_idle (hnode fresh hm)
  cases hout with
  | exist e he hcmp hfound hroot hnodes hstatus hcalls =>
    -- the reference to the key stays, so the key has to be a constant
    have hconst := hguard.resolve_right (by
      rw [search_found he hfound]
      exact RimStatus.noConfusion)
    have hm : m' = m := by
      rw [hcalls, runCalls_cons] at hrun
      obtain ⟨m₁, hadd, hnil⟩ := hrun
      have hadd' : m.rimMemAddRef key.addr m.rimMemProcess = .ok m₁ := hadd
      rw [rimMemAddRef_const hconst] at hadd'
      obtain rfl := Except.ok.inj hadd'
      exact (Except.ok.inj hnil).symm
    have hsub : t'.addrs = t.addrs := by rw [haddrs, haddrs', hroot]
    have hrefs : t'.refs = t.refs := by
      unfold refs
      rw [hnodes]
    subst hm
    rw [hrefs]
    refine ⟨hc, .refl _ _, .of_addrs hsub _, ⟨fun b hb _ _ => hb, fun b hb => ?_, fun b hb => ?_⟩⟩
    · exact hnode b (hsub ▸ hb)
    · rw [hsub]
      by_cases hbt : b ∈ t.addrs
      · exact Or.inl hbt
      · exact Or.inr ⟨hb, hbt⟩
  | first d hroot hnodes hroot' hnodes' hstatus hcalls =>
    rw [hcalls, runCalls_cons] at hrun
    obtain ⟨m₁, hadd, hrun⟩ := hrun
    obtain ⟨m₂, hadd', hnil⟩ := runCalls_cons.mp hrun
    obtain rfl := Except.ok.inj hnil
    have hok : m.rimMemAddRef key.addr m.rimMemProcess = .ok m₁ := hadd
    rw [hmode] at hok
    obtain ⟨hc₁, hk₁, hi₁⟩ := hc.addRef hkey hok {fresh}
    have hok' : m₁.rimMemAddRef data m₁.rimMemProcess = .ok m₂ := hadd'
    rw [hk₁.mode, hmode] at hok'
    obtain ⟨hc₂, hk₂, hi₂⟩ := hc₁.addRef (hk₁.live data hdata) hok' {fresh}
    have hsub : t'.addrs = t.addrs := by
      rw [haddrs, haddrs', hroot, hroot']
      rfl
    have hrefs : holders + t'.refs = holders + t.refs + Pi.single key.addr 1 + Pi.single data 1 := by
      unfold refs
      rw [hnodes, hnodes', refsOf_cons, refsOf_nil]
      unfold NodeData.refs
      simp only [add_zero, add_assoc]
      rw [add_comm (Pi.single data 1)]
    rw [hrefs]
    refine ⟨hc₂, hk₁.trans hk₂, .of_addrs hsub _, ⟨fun b hb _ hu => ?_, fun b hb => ?_,
      fun b hb => ?_⟩⟩
    · rw [not_or] at hu
      exact (hi₂ b).mpr ⟨(hi₁ b).mpr ⟨hb, hu.1⟩, hu.2⟩
    · rw [hsub] at hb
      refine (hi₂ b).mpr ⟨(hi₁ b).mpr ⟨hnode b hb, ?_⟩, ?_⟩
      · exact ne_of_mem_of_not_mem hb hkn
      · exact ne_of_mem_of_not_mem hb hdn
    · rw [hsub]
      have hb' := ((hi₁ b).mp ((hi₂ b).mp hb).1).1
      by_cases hbt : b ∈ t.addrs
      · exact Or.inl hbt
      · exact Or.inr ⟨hb', hbt⟩
  | leaf I J hroot hnodes hroot' hnodes' hbetween hstatus hcalls =>
    rw [hcalls, runCalls_cons] at hrun
    obtain ⟨m₁, hadd, hrun⟩ := hrun
    obtain ⟨m₂, hcal, hrun⟩ := runCalls_cons.mp hrun
    obtain ⟨m₃, hadd', hnil⟩ := runCalls_cons.mp hrun
    obtain rfl := Except.ok.inj hnil
    have hok : m.rimMemAddRef key.addr m.rimMemProcess = .ok m₁ := hadd
    rw [hmode] at hok
    obtain ⟨hc₁, hk₁, hi₁⟩ := hc.addRef hkey hok ∅
    have hzero₁ : (holders + t.refs + Pi.single key.addr 1 : Addr → ℕ) fresh = 0 := by
      rw [Pi.add_apply, hzero]
      simp [hkf.symm]
    obtain ⟨hc₂, hk₂, hi₂⟩ := hc₁.calloc (hk₁.mode.trans hmode)
      (hk₁.fresh fresh (Set.notMem_empty _) hfresh) hzero₁ (Set.notMem_empty _) hcal
    have hok' : m₂.rimMemAddRef data m₂.rimMemProcess = .ok m₃ := hadd'
    rw [hk₂.mode, hk₁.mode, hmode] at hok'
    have hk₁₂ := (hk₁.mono (Set.empty_subset {fresh})).trans hk₂
    obtain ⟨hc₃, hk₃, hi₃⟩ := hc₂.addRef (hk₁₂.live data hdata) hok' {fresh}
    have hperm : t'.addrs.Perm (fresh :: t.addrs) := by
      rw [haddrs, haddrs', hroot, hroot', List.map_append, List.map_cons, List.map_append]
      simp only [List.append_assoc, List.cons_append]
      exact List.perm_middle
    have hrefs : holders + t'.refs = holders + t.refs + Pi.single key.addr 1 + Pi.single data 1 := by
      unfold refs
      rw [hnodes, hnodes', refsOf_middle]
      unfold NodeData.refs
      simp only [add_assoc]
      rw [add_comm (Pi.single data 1)]
    rw [hrefs]
    have hmem : ∀ b, b ∈ t'.addrs ↔ b = fresh ∨ b ∈ t.addrs := fun b =>
      hperm.mem_iff.trans List.mem_cons
    refine ⟨hc₃, hk₁₂.trans hk₃, ⟨fun hnd hf => ?_, fun b hb => ((hmem b).mp hb).symm⟩,
      ⟨fun b hb _ hu => ?_, fun b hb => ?_, fun b hb => ?_⟩⟩
    · exact hperm.nodup_iff.mpr (List.nodup_cons.mpr ⟨hf fresh rfl, hnd⟩)
    · rw [not_or] at hu
      exact (hi₃ b).mpr ⟨(hi₂ b).mpr (Or.inl ((hi₁ b).mpr ⟨hb, hu.1⟩)), hu.2⟩
    · rcases (hmem b).mp hb with rfl | hb
      · exact (hi₃ b).mpr ⟨(hi₂ b).mpr (Or.inr rfl), hdf.symm⟩
      · refine (hi₃ b).mpr ⟨(hi₂ b).mpr (Or.inl ((hi₁ b).mpr ⟨hnode b hb, ?_⟩)), ?_⟩
        · exact ne_of_mem_of_not_mem hb hkn
        · exact ne_of_mem_of_not_mem hb hdn
    · rcases (hi₂ b).mp ((hi₃ b).mp hb).1 with hb | rfl
      · by_cases hbt : b ∈ t.addrs
        · exact Or.inl ((hmem b).mpr (Or.inr hbt))
        · exact Or.inr ⟨((hi₁ b).mp hb).1, hbt⟩
      · exact Or.inl ((hmem b).mpr (Or.inl rfl))

/-! ## Deleting -/

/-- The calls that give up a node: its data, its key and its memory. -/
theorem dropNode_counted (hc : Counted m (holders + d.refs) loose) (hgone : m.Idle gone)
    (hrun : m.runCalls [.decProcess d.data, .decProcess d.key.addr, .decProcess gone] = .ok m') :
    Counted m' holders loose ∧ m.Keeps m' ∅ ∧ ∀ b, m'.Idle b ↔ m.Idle b ∧ b ≠ gone := by
  obtain rfl := Except.ok.inj hrun
  have hc₀ : Counted m (holders + Pi.single d.key.addr 1 + Pi.single d.data 1) loose := by
    have hsum : holders + d.refs = holders + Pi.single d.key.addr 1 + Pi.single d.data 1 := by
      unfold NodeData.refs
      rw [add_assoc, add_comm (Pi.single d.data 1)]
    rw [← hsum]
    exact hc
  obtain ⟨hc₁, hk₁, hi₁⟩ := hc₀.dropRef ∅
  obtain ⟨hc₂, hk₂, hi₂⟩ := hc₁.dropRef ∅
  obtain ⟨hc₃, hk₃, hi₃⟩ := hc₂.dropIdle ((hi₂ gone).mpr ((hi₁ gone).mpr hgone)) ∅
  refine ⟨hc₃, (hk₁.trans hk₂).trans hk₃, fun b => ?_⟩
  rw [hi₃, hi₂, hi₁]

/-- The memory of the nodes after one was given up. -/
theorem removed_addrs (hsame : SameType t t') {I : List NodeData} (hroot : t.rootNode.inorder = I ++ e :: J)
    (hrem : Removes e J K gone) (hroot' : t'.rootNode.inorder = if I ++ K = [] then [.zero fresh] else I ++ K) :
    ∃ top, t.addrs.Perm (gone :: ((I ++ K).map (·.addr) ++ [top])) ∧
      t'.addrs = (if I ++ K = [] then [fresh] else (I ++ K).map (·.addr)) ++ [top] := by
  obtain ⟨top, haddrs, haddrs'⟩ := hsame.addrs
  refine ⟨top, ?_, ?_⟩
  · rw [haddrs, hroot]
    exact hrem.addrs_append.append_right [top]
  · rw [haddrs', hroot']
    split_ifs <;> rfl

theorem removed_refs {I : List NodeData} (hnodes : t.nodes = I ++ e :: J) (hnodes' : t'.nodes = I ++ K)
    (hrem : Removes e J K gone) :
    t.refs = t'.refs + e.refs := by
  unfold refs
  rw [hnodes, hnodes', refsOf_middle, refsOf_append, refsOf_append, hrem.refs]

theorem DeleteOutcome.reuses (h : DeleteOutcome t key fresh t' st) (hsame : SameType t t') :
    t.Reuses t' {fresh} ∧ (t'.nodes ≠ [] → ∀ a ∈ t'.addrs, a ∈ t.addrs) := by
  cases h with
  | absent habs hroot hnodes hstatus hcalls =>
    obtain ⟨top, haddrs, haddrs'⟩ := hsame.addrs
    have hsub : t'.addrs = t.addrs := by rw [haddrs, haddrs', hroot]
    exact ⟨.of_addrs hsub _, fun _ a ha => hsub ▸ ha⟩
  | removed I e J K gone hroot hnodes hcmp hfound hrem hroot' hnodes' hstatus hres hcalls =>
    obtain ⟨top, hold, hnew⟩ := removed_addrs hsame hroot hrem hroot'
    have htop : top ∈ t.addrs := hold.mem_iff.mpr (by simp)
    by_cases hnil : I ++ K = []
    · rw [if_pos hnil] at hnew
      refine ⟨⟨fun _ hf => ?_, fun b hb => ?_⟩, fun hne => absurd (hnodes'.trans hnil) hne⟩
      · have hft : fresh ≠ top := fun h => hf fresh rfl (h ▸ htop)
        simp [hnew, hft]
      · rw [hnew] at hb
        rcases List.mem_cons.mp hb with rfl | hb
        · exact Or.inr rfl
        · obtain rfl := List.mem_singleton.mp hb
          exact Or.inl htop
    · rw [if_neg hnil] at hnew
      rw [← hnew] at hold
      refine ⟨⟨fun hnd _ => ?_, fun b hb => Or.inl ?_⟩, fun _ b hb => ?_⟩
      · exact (List.nodup_cons.mp (hold.nodup_iff.mp hnd)).2
      · exact hold.mem_iff.mpr (List.mem_cons_of_mem _ hb)
      · exact hold.mem_iff.mpr (List.mem_cons_of_mem _ hb)

/-- The counts after a deletion. Only one that empties the tree allocates. -/
theorem delete_counted (hout : DeleteOutcome t key fresh t' st) (hsame : SameType t t')
    (hc : Counted m (holders + t.refs) loose) (hmode : m.rimMemProcess = true)
    (hnode : ∀ a ∈ t.addrs, m.Idle a) (hnd : t.addrs.Nodup) (hfresh : m.Fresh fresh)
    (hzero : (holders + t.refs) fresh = 0) (hloose : fresh ∉ loose)
    (hrun : m.runCalls st.calls = .ok m') :
    Counted m' (holders + t'.refs) loose ∧ m.Keeps m' {fresh} ∧
      (t'.nodes ≠ [] → m.Keeps m' ∅) ∧ t.IdleNodes t' m m' fun _ => False := by
  cases hout with
  | absent habs hroot hnodes hstatus hcalls =>
    obtain ⟨top, haddrs, haddrs'⟩ := hsame.addrs
    have hm : m' = m := by
      rw [hcalls] at hrun
      exact (Except.ok.inj hrun).symm
    have hsub : t'.addrs = t.addrs := by rw [haddrs, haddrs', hroot]
    have hrefs : t'.refs = t.refs := by
      unfold refs
      rw [hnodes]
    subst hm
    rw [hrefs]
    refine ⟨hc, .refl _ _, fun _ => .refl _ _, ⟨fun b hb _ _ => hb, fun b hb => ?_, fun b hb => ?_⟩⟩
    · exact hnode b (hsub ▸ hb)
    · rw [hsub]
      by_cases hbt : b ∈ t.addrs
      · exact Or.inl hbt
      · exact Or.inr ⟨hb, hbt⟩
  | removed I e J K gone hroot hnodes hcmp hfound hrem hroot' hnodes' hstatus hres hcalls =>
    rw [hcalls, runCalls_append] at hrun
    obtain ⟨m₁, hdrop, hrun⟩ := hrun
    have hrefs : holders + t.refs = holders + t'.refs + e.refs := by
      rw [removed_refs hnodes hnodes' hrem, add_assoc]
    obtain ⟨top, hold, hnew⟩ := removed_addrs hsame hroot hrem hroot'
    -- the node given up was one of the tree's
    have hgone : gone ∈ t.addrs := hold.mem_iff.mpr (List.mem_cons_self ..)
    have hnd' := List.nodup_cons.mp (hold.nodup_iff.mp hnd)
    have hmem : ∀ b, b ∈ t.addrs ↔ b = gone ∨ b ∈ (I ++ K).map (·.addr) ++ [top] := fun b =>
      hold.mem_iff.trans List.mem_cons
    rw [hrefs] at hc hzero
    obtain ⟨hc₁, hk₁, hi₁⟩ := dropNode_counted hc (hnode gone hgone) hdrop
    by_cases hnil : I ++ K = []
    · -- the tree is empty and gets a new root
      rw [if_pos hnil] at hrun hnew
      simp only [hnil, List.map_nil, List.nil_append, List.mem_singleton] at hnd' hmem
      obtain ⟨m₂, hcal, hdone⟩ := runCalls_cons.mp hrun
      obtain rfl := Except.ok.inj hdone
      have hzero' : (holders + t'.refs : Addr → ℕ) fresh = 0 := by
        rw [Pi.add_apply] at hzero
        omega
      obtain ⟨hc₂, hk₂, hi₂⟩ := hc₁.calloc (hk₁.mode.trans hmode)
        (hk₁.fresh fresh (Set.notMem_empty _) hfresh) hzero' hloose hcal
      have htop : top ∈ t.addrs := (hmem top).mpr (Or.inr rfl)
      refine ⟨hc₂, (hk₁.mono (Set.empty_subset {fresh})).trans hk₂, fun hne => absurd (hnodes'.trans hnil) hne,
        ⟨fun b hb hbt _ => ?_, fun b hb => ?_, fun b hb => ?_⟩⟩
      · refine (hi₂ b).mpr (Or.inl ((hi₁ b).mpr ⟨hb, ?_⟩))
        rintro rfl
        exact hbt hgone
      · rw [hnew] at hb
        rcases List.mem_cons.mp hb with rfl | hb
        · exact (hi₂ b).mpr (Or.inr rfl)
        · obtain rfl := List.mem_singleton.mp hb
          exact (hi₂ b).mpr (Or.inl ((hi₁ b).mpr ⟨hnode b htop, Ne.symm hnd'.1⟩))
      · rw [hnew]
        rcases (hi₂ b).mp hb with hb | rfl
        · obtain ⟨hb, hbg⟩ := (hi₁ b).mp hb
          by_cases hbt : b ∈ t.addrs
          · obtain rfl := ((hmem b).mp hbt).resolve_left hbg
            exact Or.inl (by simp)
          · exact Or.inr ⟨hb, hbt⟩
        · exact Or.inl (by simp)
    · rw [if_neg hnil] at hrun hnew
      obtain rfl := Except.ok.inj hrun
      rw [← hnew] at hnd' hmem
      refine ⟨hc₁, hk₁.mono (Set.empty_subset {fresh}), fun _ => hk₁,
        ⟨fun b hb hbt _ => ?_, fun b hb => ?_, fun b hb => ?_⟩⟩
      · refine (hi₁ b).mpr ⟨hb, ?_⟩
        rintro rfl
        exact hbt hgone
      · refine (hi₁ b).mpr ⟨hnode b ((hmem b).mpr (Or.inr hb)), ?_⟩
        rintro rfl
        exact hnd'.1 hb
      · obtain ⟨hb, hbg⟩ := (hi₁ b).mp hb
        by_cases hbt : b ∈ t.addrs
        · exact Or.inl (((hmem b).mp hbt).resolve_left hbg)
        · exact Or.inr ⟨hb, hbt⟩

end Laws

/-! ## Following pointers -/

section Deref

variable {t : RimTree}

theorem mem_inorder_of_nodes (hd : d ∈ t.nodes) : d ∈ t.rootNode.inorder := by
  unfold nodes at hd
  split_ifs at hd
  · exact hd
  · exact absurd hd List.not_mem_nil

theorem TreeInv.mem_tree (h : t.TreeInv) (hd : d ∈ t.nodes) : d ∈ t.tree.inorder := by
  obtain ⟨top, n, htop⟩ := h.top
  rw [htop, inorder]
  exact List.mem_append_left _ (mem_inorder_of_nodes hd)

theorem find_addr {l : List NodeData} (hnd : (l.map (·.addr)).Nodup) (hd : d ∈ l) :
    l.find? (·.addr = d.addr) = some d := by
  cases hfind : l.find? (·.addr = d.addr) with
  | none =>
    have hnone := List.find?_eq_none.mp hfind d hd
    simp at hnone
  | some e =>
    have haddr : e.addr = d.addr := by simpa using List.find?_some hfind
    have he := List.mem_of_find?_eq_some hfind
    rw [List.inj_on_of_nodup_map hnd he hd haddr]

theorem deref_eq (hnd : t.addrs.Nodup) (hd : d ∈ t.tree.inorder) :
    t.deref d.addr = some d := find_addr hnd hd

/-- That also where the node above the root is taken for another. -/
theorem TreeInv.deref_node (h : t.TreeInv) (hd : d ∈ t.nodes) : t.deref d.addr = some d := by
  obtain ⟨top, n, htop⟩ := h.top
  unfold deref
  rw [htop, inorder, List.find?_append, find_addr h.addrs (mem_inorder_of_nodes hd)]
  rfl

end Deref

section Update

variable {t : RimTree} {a data : Addr}

theorem mapData_inorder (f : NodeData → NodeData) (n : TreeNode) : (n.mapData f).inorder = n.inorder.map f := by
  induction n with
  | null => rfl
  | node d h l g ihl ihg => simp [mapData, inorder, ihl, ihg]

theorem mapData_depth (f : NodeData → NodeData) (n : TreeNode) : (n.mapData f).depth = n.depth := by
  induction n with
  | null => rfl
  | node d h l g ihl ihg => simp [mapData, depth, ihl, ihg]

theorem mapData_cached (f : NodeData → NodeData) {n : TreeNode} (h : n.Cached) : (n.mapData f).Cached := by
  induction n with
  | null => trivial
  | node d k l g ihl ihg =>
    obtain ⟨hk, hl, hg⟩ := h
    refine ⟨?_, ihl hl, ihg hg⟩
    have hdepth := mapData_depth f (node d k l g)
    rw [mapData] at hdepth
    rw [hk, ← hdepth, depth, depth]

theorem mapData_balanced (f : NodeData → NodeData) {n : TreeNode} (h : n.Balanced) : (n.mapData f).Balanced := by
  induction n with
  | null => trivial
  | node d k l g ihl ihg =>
    obtain ⟨hl, hg, hlg, hgl⟩ := h
    refine ⟨ihl hl, ihg hg, ?_, ?_⟩
    · rw [mapData_depth, mapData_depth]
      exact hlg
    · rw [mapData_depth, mapData_depth]
      exact hgl

theorem mapData_subtreeInv {f : NodeData → NodeData} (hf : ∀ d, (f d).keyPresent = d.keyPresent)
    {n : TreeNode} (h : SubtreeInv n) : SubtreeInv (n.mapData f) := by
  refine ⟨?_, mapData_balanced f h.balanced, fun d hd => ?_⟩
  · cases n with
    | null => trivial
    | node d k l g => exact ⟨mapData_cached f h.below.1, mapData_cached f h.below.2⟩
  · rw [mapData_inorder] at hd
    obtain ⟨e, he, rfl⟩ := List.mem_map.mp hd
    rw [hf]
    exact h.present e he

def withData (a data : Addr) (d : NodeData) : NodeData :=
  if d.addr = a then { d with data := data } else d

theorem withData_addr (d : NodeData) : (withData a data d).addr = d.addr := by
  unfold withData
  split_ifs <;> rfl

theorem withData_keyPresent (d : NodeData) : (withData a data d).keyPresent = d.keyPresent := by
  unfold withData
  split_ifs <;> rfl

theorem map_withData_addr (l : List NodeData) : (l.map (withData a data)).map (·.addr) = l.map (·.addr) := by
  rw [List.map_map]
  exact List.map_congr_left fun d _ => withData_addr d

theorem setData_rootNode : (t.setData a data).rootNode = t.rootNode.mapData (withData a data) := by
  unfold rootNode setData
  cases t.tree <;> rfl

theorem setData_nodes : (t.setData a data).nodes = t.nodes.map (withData a data) := by
  unfold nodes
  rw [setData_rootNode, mapData_inorder]
  have hpres : keyPresentAt (t.rootNode.mapData (withData a data)) = keyPresentAt t.rootNode := by
    cases t.rootNode with
    | null => rfl
    | node d h l g => exact withData_keyPresent d
  rw [hpres]
  split_ifs <;> rfl

theorem setData_addrs : (t.setData a data).addrs = t.addrs := by
  unfold addrs setData
  rw [mapData_inorder]
  exact map_withData_addr _

/-- Writing a node's data keeps the invariant. -/
theorem setData_inv (h : t.TreeInv) : (t.setData a data).TreeInv := by
  obtain ⟨d, n, htop⟩ := h.top
  refine ⟨⟨withData a data d, n, ?_⟩, ?_, ?_, ?_, ?_, fun hs => ?_⟩
  · rw [setData_rootNode]
    have htree : (t.setData a data).tree = t.tree.mapData (withData a data) := rfl
    rw [htree]
    conv_lhs => rw [htop]
    rfl
  · rw [setData_rootNode]
    rcases h.shape with ⟨d, n, hroot, hpres, hlinks⟩ | ⟨hne, hsub⟩
    · refine Or.inl ⟨withData a data d, n, by rw [hroot]; rfl, ?_, ?_⟩
      · rw [withData_keyPresent]
        exact hpres
      · rw [withData_addr]
        exact hlinks
    · refine Or.inr ⟨fun hnull => hne ?_, mapData_subtreeInv withData_keyPresent hsub⟩
      cases hroot : t.rootNode with
      | null => rfl
      | node d h l g =>
        rw [hroot] at hnull
        cases hnull
  · rw [setData_nodes, List.length_map]
    exact h.count
  · rw [setData_rootNode, mapData_inorder, map_withData_addr]
    exact h.addrs
  · intro e he
    rw [setData_rootNode, mapData_inorder] at he
    obtain ⟨e', he', rfl⟩ := List.mem_map.mp he
    rw [withData_addr]
    exact h.bound e' he'
  · rw [setData_nodes, map_withData_addr]
    exact h.threaded hs

/-- The nodes stay, but for the data of the one. -/
theorem setData_nodes_at (h : t.TreeInv) {I : List NodeData} (hin : t.nodes = I ++ d :: J) :
    (t.setData d.addr data).nodes = I ++ { d with data := data } :: J := by
  have hnd : ((I ++ d :: J).map (·.addr)).Nodup := by
    rw [← hin]
    refine List.Sublist.nodup (List.Sublist.map _ ?_) h.addrs
    unfold nodes
    split_ifs
    · exact List.Sublist.refl _
    · exact List.nil_sublist _
  have hsame : ∀ e ∈ I ++ J, withData d.addr data e = e := by
    intro e he
    unfold withData
    rw [if_neg]
    intro heq
    have hperm : ((I ++ d :: J).map (·.addr)).Perm (d.addr :: (I ++ J).map (·.addr)) :=
      List.perm_middle.map _
    exact (List.nodup_cons.mp (hperm.nodup_iff.mp hnd)).1 (List.mem_map.mpr ⟨e, he, heq⟩)
  have hI : I.map (withData d.addr data) = I :=
    (List.map_congr_left fun e he => hsame e (List.mem_append_left _ he)).trans (List.map_id' I)
  have hJ : J.map (withData d.addr data) = J :=
    (List.map_congr_left fun e he => hsame e (List.mem_append_right _ he)).trans (List.map_id' J)
  have hd' : withData d.addr data d = { d with data := data } := by
    unfold withData
    rw [if_pos rfl]
  rw [setData_nodes, hin, List.map_append, List.map_cons, hI, hJ, hd']

/-- The new data for the old, in one place. -/
theorem setData_refs (h : t.TreeInv) (hd : d ∈ t.nodes) :
    t.refs + Pi.single data 1 = (t.setData d.addr data).refs + Pi.single d.data 1 := by
  obtain ⟨I, J, hin⟩ := List.append_of_mem hd
  unfold refs
  rw [setData_nodes_at h hin, hin, refsOf_middle, refsOf_middle]
  have hswap : d.refs + Pi.single data 1 =
      NodeData.refs { d with data := data } + Pi.single d.data 1 := by
    unfold NodeData.refs
    rw [add_right_comm, add_assoc, add_comm, add_assoc]
  rw [add_assoc, add_assoc, hswap]

end Update

section Query

variable {t : RimTree}

theorem found_okay {lcurs : RimTreeCursor} {o : Option Addr} (h : (lcurs.found o).status = .okay) :
    ∃ a, o = some a ∧ (lcurs.found o).current = some a := by
  cases o with
  | none => cases h
  | some a => exact ⟨a, rfl, rfl⟩

variable {c : TreeCtx}

theorem rimTreeSearchLoop_mem {n : TreeNode} {a : Addr} (h : rimTreeSearchLoop c n = some a) :
    ∃ d ∈ n.inorder, d.addr = a := by
  induction n with
  | null => cases h
  | node d k l g ihl ihg =>
    unfold rimTreeSearchLoop at h
    dsimp only at h
    split_ifs at h
    · exact ⟨d, by simp [inorder], Option.some.inj h⟩
    · obtain ⟨e, he, rfl⟩ := ihl h
      exact ⟨e, by simp [inorder, he], rfl⟩
    · obtain ⟨e, he, rfl⟩ := ihg h
      exact ⟨e, by simp [inorder, he], rfl⟩

theorem rimTreeSearchLesserEqualLoop_mem {equal : Bool} {n : TreeNode} {prev : Option Addr} {a : Addr}
    (h : rimTreeSearchLesserEqualLoop c equal n prev = some a) :
    prev = some a ∨ ∃ d ∈ n.inorder, d.addr = a := by
  induction n generalizing prev with
  | null => exact Or.inl h
  | node d k l g ihl ihg =>
    unfold rimTreeSearchLesserEqualLoop at h
    dsimp only at h
    by_cases hhere : rimTreeCompare c d.key = 0 ∧ equal = true
    · rw [if_pos hhere] at h
      exact Or.inr ⟨d, by simp [inorder], Option.some.inj h⟩
    · rw [if_neg hhere] at h
      by_cases hside : (if rimTreeCompare c d.key = 0 then -1 else rimTreeCompare c d.key) < 0
      · rw [if_pos hside] at h
        rcases ihl h with hp | ⟨e, he, rfl⟩
        · exact Or.inl hp
        · exact Or.inr ⟨e, by simp [inorder, he], rfl⟩
      · rw [if_neg hside] at h
        rcases ihg h with hp | ⟨e, he, rfl⟩
        · exact Or.inr ⟨d, by simp [inorder], Option.some.inj hp⟩
        · exact Or.inr ⟨e, by simp [inorder, he], rfl⟩

theorem rimTreeSearchGreaterEqualLoop_mem {equal : Bool} {n : TreeNode} {prev : Option Addr} {a : Addr}
    (h : rimTreeSearchGreaterEqualLoop c equal n prev = some a) :
    prev = some a ∨ ∃ d ∈ n.inorder, d.addr = a := by
  induction n generalizing prev with
  | null => exact Or.inl h
  | node d k l g ihl ihg =>
    unfold rimTreeSearchGreaterEqualLoop at h
    dsimp only at h
    by_cases hhere : rimTreeCompare c d.key = 0 ∧ equal = true
    · rw [if_pos hhere] at h
      exact Or.inr ⟨d, by simp [inorder], Option.some.inj h⟩
    · rw [if_neg hhere] at h
      by_cases hside : (if rimTreeCompare c d.key = 0 then 1 else rimTreeCompare c d.key) < 0
      · rw [if_pos hside] at h
        rcases ihl h with hp | ⟨e, he, rfl⟩
        · exact Or.inr ⟨d, by simp [inorder], Option.some.inj hp⟩
        · exact Or.inr ⟨e, by simp [inorder, he], rfl⟩
      · rw [if_neg hside] at h
        rcases ihg h with hp | ⟨e, he, rfl⟩
        · exact Or.inl hp
        · exact Or.inr ⟨e, by simp [inorder, he], rfl⟩

/-- A query that is answered is answered with a node. -/
theorem query_node (h : t.TreeInv) (q : TreeQuery) (hok : (q.run t).status = .okay) :
    ∃ d ∈ t.nodes, (q.run t).current = some d.addr := by
  -- the searches start from the root if it holds a key
  have hsearch : ∀ o : Option Addr, (∀ a, o = some a → ∃ d ∈ t.rootNode.inorder, d.addr = a) →
      ((RimTreeCursor.found {} (if keyPresentAt t.rootNode then o else none)).status = .okay) →
      ∃ d ∈ t.nodes,
        (RimTreeCursor.found {} (if keyPresentAt t.rootNode then o else none)).current =
          some d.addr := by
    intro o ho hst
    obtain ⟨a, hsome, hcur⟩ := found_okay hst
    unfold nodes
    split_ifs at hsome hcur ⊢
    obtain ⟨d, hd, rfl⟩ := ho a hsome
    exact ⟨d, hd, hcur⟩
  have hends := h.ends {}
  cases q with
  | equal key => exact hsearch _ (fun a ha => rimTreeSearchLoop_mem ha) hok
  | lesser orEqual key =>
    refine hsearch _ (fun a ha => ?_) hok
    exact (rimTreeSearchLesserEqualLoop_mem ha).resolve_left (by simp)
  | greater orEqual key =>
    refine hsearch _ (fun a ha => ?_) hok
    exact (rimTreeSearchGreaterEqualLoop_mem ha).resolve_left (by simp)
  | minKey =>
    unfold TreeQuery.run at hok ⊢
    rw [hends.1] at hok ⊢
    obtain ⟨a, hsome, hcur⟩ := found_okay hok
    obtain ⟨d, hd, rfl⟩ := Option.map_eq_some_iff.mp hsome
    exact ⟨d, List.mem_of_head? hd, hcur⟩
  | maxKey =>
    unfold TreeQuery.run at hok ⊢
    rw [hends.2] at hok ⊢
    obtain ⟨a, hsome, hcur⟩ := found_okay hok
    obtain ⟨d, hd, rfl⟩ := Option.map_eq_some_iff.mp hsome
    exact ⟨d, List.mem_of_getLast? hd, hcur⟩

end Query

end RimTree

end RimStone
