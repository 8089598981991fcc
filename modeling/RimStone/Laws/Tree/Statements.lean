import RimStone.Laws.Tree.Purge

/-!
# Tree statements keep the counts exact

Over runs of statements on any number of process-scoped trees that share their
strings: the count of every process-scoped block is the number of tree nodes'
places, and of `others`, that hold it (`Exact`).

Three statements break this. `write-tree` takes a reference to its key before it
knows that the key is there already. `delete-tree` without a `value` clause and
`purge-tree` drop the value of a node that dropped it itself. `Guard` is the
condition that none of this is to be seen: the key is new or a constant, the
deleted value is held by that node only, the values of a purged tree by that tree
only.
-/

namespace RimStone

open Mem RimTree RimStone.Lib

namespace TreeSys

/-- How many places hold a block: the trees' nodes, and `others`. -/
def holders (others : Addr → ℕ) (s : TreeSys) : Addr → ℕ := others + (s.trees.map refs).sum

def nodeAddrs (s : TreeSys) : List Addr := s.trees.flatMap addrs

/-- Well-formed trees in a memory whose counts are exact. -/
structure Exact (others : Addr → ℕ) (s : TreeSys) : Prop where
  trees : ∀ t ∈ s.trees, t.TreeInv ∧ t.process = true
  mode : s.mem.rimMemProcess = false
  counted : Counted s.mem (s.holders others) ∅
  apart : s.nodeAddrs.Nodup
  nodes : ∀ a ∈ s.nodeAddrs, s.mem.Idle a

def IsString (s : TreeSys) (a : Addr) : Prop := s.mem.Live a ∧ a ∉ s.nodeAddrs

/-- An address the system may answer: nothing is there, nor is it a constant in use. -/
def IsFresh (others : Addr → ℕ) (s : TreeSys) (a : Addr) : Prop :=
  a < addrLimit ∧ s.mem.Fresh a ∧ s.holders others a = 0

end TreeSys

def TreeStmt.Legal (others : Addr → ℕ) (s : TreeSys) : TreeStmt → Prop
  | newString p _ => s.IsFresh others p
  | writeTree _ key value fresh => s.IsString key.addr ∧ s.IsString value ∧
      s.IsFresh others fresh ∧ key.addr ≠ fresh ∧ value ≠ fresh
  | readTree _ _ update => ∀ u, update = some u → s.IsString u
  | deleteTree _ _ _ fresh | purgeTree _ fresh => s.IsFresh others fresh
  | endRequest => True

/-- The condition under which a statement leaves the counts exact. A block without
an entry is a constant. -/
def TreeStmt.Guard (others : Addr → ℕ) (s : TreeSys) : TreeStmt → Prop
  | writeTree i key _ _ => s.mem.rimMemGetId key.addr = none ∨
      ∀ t, s.trees[i]? = some t → (t.rimTreeSearchF {} key (-1)).status = .errExist
  | deleteTree i key value _ => value = true ∨ ∀ t a d, s.trees[i]? = some t →
      (t.rimTreeSearchF {} key (-1)).current = some a → t.deref a = some d →
      s.mem.rimMemGetId d.data = none ∨ s.holders others d.data = d.refs d.data
  | purgeTree i _ => ∀ t, s.trees[i]? = some t → ∀ d ∈ t.nodes,
      s.mem.rimMemGetId d.data = none ∨ s.holders others d.data = t.refs d.data
  | _ => True

namespace TreeSys

def Step (others : Addr → ℕ) (s : TreeSys) (stmt : TreeStmt) (s' : TreeSys) : Prop :=
  stmt.Legal others s ∧ s.exec stmt = .ok s'

section One

variable {others : Addr → ℕ} {s s' : TreeSys} {A B : List RimTree} {t t' : RimTree} {m m' : Mem}
  {fresh : Addr}

def beside (others : Addr → ℕ) (A B : List RimTree) : Addr → ℕ :=
  others + ((A.map refs).sum + (B.map refs).sum)

theorem holders_focus (others : Addr → ℕ) (m : Mem) (A B : List RimTree) (t : RimTree) :
    holders others ⟨m, A ++ t :: B⟩ = beside others A B + t.refs := by
  unfold holders beside
  simp only [List.map_append, List.map_cons, List.sum_append, List.sum_cons]
  rw [add_comm t.refs, add_assoc, add_assoc]

theorem mem_nodeAddrs_focus {a : Addr} : a ∈ nodeAddrs ⟨m, A ++ t :: B⟩ ↔ a ∈ t.addrs ∨ a ∈ nodeAddrs ⟨m, A ++ B⟩ := by
  unfold nodeAddrs
  simp only [List.flatMap_append, List.flatMap_cons, List.mem_append]
  tauto

theorem perm_nodeAddrs_focus : (nodeAddrs ⟨m, A ++ t :: B⟩).Perm (t.addrs ++ nodeAddrs ⟨m, A ++ B⟩) := by
  unfold nodeAddrs
  simp only [List.flatMap_append, List.flatMap_cons]
  rw [← List.append_assoc, ← List.append_assoc]
  exact List.perm_append_comm.append_right _

/-- A statement runs on one of the trees. -/
theorem onTree_ok {i : Nat} {f : RimTree → Except (Fault Mem) (RimTree × Mem)}
    (h : s.onTree i f = .ok s') : ∃ A t B t' m', s.trees[i]? = some t ∧ s.trees = A ++ t :: B ∧
      f t = .ok (t', m') ∧ s' = ⟨m', A ++ t' :: B⟩ := by
  unfold onTree at h
  cases ht : s.trees[i]? with
  | none =>
    rw [ht] at h
    cases h
  | some t =>
    rw [ht] at h
    cases hf : f t with
    | error e =>
      simp only [hf, bind, Except.bind] at h
      cases h
    | ok r =>
      simp only [hf, bind, Except.bind] at h
      obtain ⟨hi, hget⟩ := List.getElem?_eq_some_iff.mp ht
      refine ⟨s.trees.take i, t, s.trees.drop (i + 1), r.1, r.2, rfl, ?_, hf, ?_⟩
      · rw [← hget]
        simp
      · rw [← Except.ok.inj h, List.set_eq_take_append_cons_drop, if_pos hi]

/-- The only idle blocks are nodes, and blocks that were idle before and no nodes. -/
def IdleKept (s s' : TreeSys) : Prop :=
  ∀ a, s'.mem.Idle a → a ∈ s'.nodeAddrs ∨ (s.mem.Idle a ∧ a ∉ s.nodeAddrs)

theorem IdleKept.refl (s : TreeSys) : s.IdleKept s := by
  intro a ha
  by_cases hn : a ∈ s.nodeAddrs
  · exact Or.inl hn
  · exact Or.inr ⟨ha, hn⟩

theorem IdleKept.trans {s₁ : TreeSys} (h : s.IdleKept s₁) (h' : s₁.IdleKept s') : s.IdleKept s' := by
  intro a ha
  rcases h' a ha with ha | ⟨ha, hn⟩
  · exact Or.inl ha
  · exact Or.inr ((h a ha).resolve_left hn)

/-- A statement on one tree keeps the counts of all exact. -/
theorem exact_focus {used : Addr → Prop} {new : Set Addr}
    (h : Exact others ⟨m, A ++ t :: B⟩) (hinv : t'.TreeInv) (hproc : t'.process = true) (hmode : m'.rimMemProcess = false)
    (hc : Counted m' (beside others A B + t'.refs) ∅) (hr : t.Reuses t' new)
    (hi : t.IdleNodes t' m m' used) (hnew : ∀ a ∈ new, ¬ m.Idle a)
    (hused : ∀ b, used b → b ∉ nodeAddrs ⟨m, A ++ t :: B⟩) :
    Exact others ⟨m', A ++ t' :: B⟩ ∧ IdleKept ⟨m, A ++ t :: B⟩ ⟨m', A ++ t' :: B⟩ := by
  obtain ⟨hnd, hndAB, hdisj⟩ := List.nodup_append.mp (perm_nodeAddrs_focus.nodup_iff.mp h.apart)
  have hnode : ∀ a ∈ t.addrs, m.Idle a := fun a ha =>
    h.nodes a (mem_nodeAddrs_focus.mpr (Or.inl ha))
  have hother : ∀ a ∈ nodeAddrs ⟨m, A ++ B⟩, m.Idle a ∧ a ∉ t.addrs := fun a ha =>
    ⟨h.nodes a (mem_nodeAddrs_focus.mpr (Or.inr ha)), fun hat => hdisj a hat a ha rfl⟩
  refine ⟨⟨fun u hu => ?_, hmode, ?_, ?_, fun a ha => ?_⟩, fun a ha => ?_⟩
  · rcases List.mem_append.mp hu with hu | hu
    · exact h.trees u (List.mem_append_left _ hu)
    · rcases List.mem_cons.mp hu with rfl | hu
      · exact ⟨hinv, hproc⟩
      · exact h.trees u (List.mem_append_right _ (List.mem_cons_of_mem _ hu))
  · rw [holders_focus]
    exact hc
  · refine perm_nodeAddrs_focus.nodup_iff.mpr (List.nodup_append.mpr ⟨?_, hndAB, ?_⟩)
    · exact hr.nodup hnd fun a ha hat => hnew a ha (hnode a hat)
    · rintro a ha b hb rfl
      rcases hr.sub a ha with ha | ha
      · exact hdisj a ha a hb rfl
      · exact hnew a ha (hother a hb).1
  · rcases mem_nodeAddrs_focus.mp ha with ha | ha
    · exact hi.node a ha
    · exact hi.keep a (hother a ha).1 (hother a ha).2 fun hu =>
        hused a hu (mem_nodeAddrs_focus.mpr (Or.inr ha))
  · rcases hi.only a ha with ha | ⟨ha, hat⟩
    · exact Or.inl (mem_nodeAddrs_focus.mpr (Or.inl ha))
    · by_cases hn : a ∈ nodeAddrs ⟨m, A ++ B⟩
      · exact Or.inl (mem_nodeAddrs_focus.mpr (Or.inr hn))
      · refine Or.inr ⟨ha, fun hm => ?_⟩
        exact (mem_nodeAddrs_focus.mp hm).elim hat hn

/-- A fresh address is no node's, and held by nothing. -/
theorem IsFresh.focus (h : IsFresh others ⟨m, A ++ t :: B⟩ fresh) :
    fresh < addrLimit ∧ m.Fresh fresh ∧ (beside others A B + t.refs) fresh = 0 := by
  obtain ⟨hlim, hfresh, hzero⟩ := h
  rw [holders_focus] at hzero
  exact ⟨hlim, hfresh, hzero⟩

/-- The parts of an exact state that a statement on one tree starts from. -/
theorem Exact.focus (h : Exact others ⟨m, A ++ t :: B⟩) :
    t.TreeInv ∧ t.process = true ∧
      Counted { m with rimMemProcess := t.process } (beside others A B + t.refs) ∅ ∧
      t.addrs.Nodup ∧ ∀ a ∈ t.addrs, m.Idle a := by
  obtain ⟨hinv, hproc⟩ := h.trees t (by simp)
  have hc := h.counted.setMode t.process
  rw [holders_focus] at hc
  exact ⟨hinv, hproc, hc, (List.nodup_append.mp (perm_nodeAddrs_focus.nodup_iff.mp h.apart)).1,
    fun a ha => h.nodes a (mem_nodeAddrs_focus.mpr (Or.inl ha))⟩

/-- `write-tree` -/
theorem writeTree_exact {key : RimStr} {value : Addr} (h : Exact others ⟨m, A ++ t :: B⟩)
    (hkey : IsString ⟨m, A ++ t :: B⟩ key.addr) (hvalue : IsString ⟨m, A ++ t :: B⟩ value)
    (hfresh : IsFresh others ⟨m, A ++ t :: B⟩ fresh) (hkf : key.addr ≠ fresh) (hvf : value ≠ fresh)
    (hguard : m.rimMemGetId key.addr = none ∨ (t.rimTreeSearchF {} key (-1)).status = .errExist)
    (hok : writeTree m key value fresh t = .ok (t', m')) :
    Exact others ⟨m', A ++ t' :: B⟩ ∧ IdleKept ⟨m, A ++ t :: B⟩ ⟨m', A ++ t' :: B⟩ := by
  obtain ⟨hinv, hproc, hc, hnd, hnode⟩ := h.focus
  obtain ⟨hlim, hnew, hzero⟩ := hfresh.focus
  have hnot : ∀ {b}, b ∉ nodeAddrs ⟨m, A ++ t :: B⟩ → b ∉ t.addrs := fun hb hbt =>
    hb (mem_nodeAddrs_focus.mpr (Or.inl hbt))
  obtain ⟨hinv', hsame, hout⟩ := rimTreeInsertF_inv key value hinv
    (fresh_of_idle hinv hnode hlim hnew.not_idle) {}
  unfold writeTree at hok
  cases hrun : m.inScope t.process (rimTreeInsertF {} t key (-1) value fresh).2.calls with
  | error e =>
    simp only [hrun, bind, Except.bind] at hok
    cases hok
  | ok m₁ =>
    simp only [hrun, bind, Except.bind] at hok
    obtain ⟨rfl, rfl⟩ := Prod.mk.inj (Except.ok.inj hok)
    obtain ⟨m₂, hcalls, rfl⟩ := inScope_ok hrun
    obtain ⟨hc', -, hr, hi⟩ := insert_counted hout hsame hc hproc hkey.1 hvalue.1 hkf hvf hnode
      (hnot hkey.2) (hnot hvalue.2) hnew hzero hguard hcalls
    refine exact_focus h hinv' (hsame.process.trans hproc) rfl (hc'.setMode false) hr
      ⟨hi.keep, hi.node, hi.only⟩ (by rintro _ rfl; exact hnew.not_idle) ?_
    rintro b (rfl | rfl)
    · exact hkey.2
    · exact hvalue.2

/-- `read-tree`, with or without an update. -/
theorem readTree_exact {query : TreeQuery} {update : Option Addr} (h : Exact others ⟨m, A ++ t :: B⟩)
    (hupdate : ∀ u, update = some u → IsString ⟨m, A ++ t :: B⟩ u)
    (hok : readTree m query update t = .ok (t', m')) :
    Exact others ⟨m', A ++ t' :: B⟩ ∧ IdleKept ⟨m, A ++ t :: B⟩ ⟨m', A ++ t' :: B⟩ := by
  obtain ⟨hinv, hproc, hc, hnd, hnode⟩ := h.focus
  have hsame : readTree m query update t = .ok (t, m) →
      Exact others ⟨m', A ++ t' :: B⟩ ∧ IdleKept ⟨m, A ++ t :: B⟩ ⟨m', A ++ t' :: B⟩ := by
    intro hnone
    rw [hnone] at hok
    obtain ⟨rfl, rfl⟩ := Prod.mk.inj (Except.ok.inj hok)
    exact ⟨h, .refl _⟩
  cases hst : (query.run t).status with
  | errExist | infoExist => exact hsame (by simp only [readTree, hst])
  | okay =>
    cases update with
    | none => exact hsame (by simp only [readTree, hst])
    | some u =>
      obtain ⟨hlive, hu⟩ := hupdate u rfl
      obtain ⟨d, hd, hcur⟩ := query_node hinv query hst
      have hderef := deref_eq hnd (hinv.mem_tree hd)
      simp only [readTree, hst, hcur, Option.bind_some, hderef] at hok
      cases hadd : m.rimMemAddRef u t.process with
      | error e =>
        simp only [hadd, bind, Except.bind] at hok
        cases hok
      | ok m₁ =>
        simp only [hadd, bind, Except.bind] at hok
        obtain ⟨rfl, rfl⟩ := Prod.mk.inj (Except.ok.inj hok)
        rw [hproc] at hadd
        have hc₀ : Counted m (beside others A B + t.refs) ∅ := by
          have hcount := h.counted
          rw [holders_focus] at hcount
          exact hcount
        obtain ⟨hc₁, hk₁, hi₁⟩ := hc₀.addRef hlive hadd ∅
        rw [add_assoc, setData_refs hinv hd, ← add_assoc] at hc₁
        obtain ⟨hc₂, hk₂, hi₂⟩ := hc₁.dropRef ∅
        have hi : t.IdleNodes (t.setData d.addr u) m (m₁.rimMemDecProcess d.data)
            fun b => b = u := by
          refine ⟨fun b hb _ hbu => (hi₂ b).mpr ((hi₁ b).mpr ⟨hb, hbu⟩), fun b hb => ?_,
            fun b hb => ?_⟩
          · rw [setData_addrs] at hb
            refine (hi₂ b).mpr ((hi₁ b).mpr ⟨hnode b hb, ?_⟩)
            rintro rfl
            exact hu (mem_nodeAddrs_focus.mpr (Or.inl hb))
          · rw [setData_addrs]
            have hb' := ((hi₁ b).mp ((hi₂ b).mp hb)).1
            by_cases hbt : b ∈ t.addrs
            · exact Or.inl hbt
            · exact Or.inr ⟨hb', hbt⟩
        refine exact_focus h (setData_inv hinv) hproc ((hk₁.trans hk₂).mode.trans h.mode) hc₂
          (.of_addrs setData_addrs ∅) hi (fun a ha => absurd ha (Set.notMem_empty a)) ?_
        rintro b rfl
        exact hu

/-- A deletion up to the end of its scope, with some blocks loose. -/
theorem deleteF_focus {key : RimStr} (loose : Set Addr) (h : Exact others ⟨m, A ++ t :: B⟩)
    (hfresh : IsFresh others ⟨m, A ++ t :: B⟩ fresh)
    (hloose : ∀ a ∈ loose, 0 < (beside others A B + t.refs) a)
    (hok : m.inScope t.process (rimTreeDeleteF {} t key fresh).2.calls = .ok m') :
    Counted m' (beside others A B + (rimTreeDeleteF {} t key fresh).1.refs) loose ∧
      m.Keeps { m' with rimMemProcess := m.rimMemProcess } {fresh} ∧ m'.rimMemProcess = false ∧
      t.IdleNodes (rimTreeDeleteF {} t key fresh).1 m m' fun _ => False := by
  obtain ⟨hinv, hproc, hc, hnd, hnode⟩ := h.focus
  obtain ⟨hlim, hnew, hzero⟩ := hfresh.focus
  obtain ⟨hinv', hsame, hout⟩ := rimTreeDeleteF_inv key hinv hlim {}
  obtain ⟨m₁, hcalls, rfl⟩ := inScope_ok hok
  have hnot : fresh ∉ loose := fun hl => by
    have hpos := hloose fresh hl
    omega
  obtain ⟨hc', hk, -, hi⟩ := delete_counted hout hsame (hc.loosen hloose) hproc hnode hnd hnew hzero
    hnot hcalls
  exact ⟨hc'.setMode false, ⟨rfl, hk.live, hk.const, hk.fresh⟩, rfl, hi.keep, hi.node, hi.only⟩

/-- `delete-tree` -/
theorem deleteTree_exact {key : RimStr} {value : Bool} (h : Exact others ⟨m, A ++ t :: B⟩)
    (hfresh : IsFresh others ⟨m, A ++ t :: B⟩ fresh)
    (hguard : value = true ∨ ∀ a d, (t.rimTreeSearchF {} key (-1)).current = some a →
      t.deref a = some d →
      m.rimMemGetId d.data = none ∨ (beside others A B + t.refs) d.data = d.refs d.data)
    (hok : deleteTree m key value fresh t = .ok (t', m')) :
    Exact others ⟨m', A ++ t' :: B⟩ ∧ IdleKept ⟨m, A ++ t :: B⟩ ⟨m', A ++ t' :: B⟩ := by
  obtain ⟨hinv, hproc, -, hnd, -⟩ := h.focus
  obtain ⟨hlim, hnew, hzero⟩ := hfresh.focus
  obtain ⟨hinv', hsame, hout⟩ := rimTreeDeleteF_inv key hinv hlim {}
  obtain ⟨hr, -⟩ := hout.reuses hsame
  have hnot : ∀ a ∈ ({fresh} : Set Addr), ¬ m.Idle a := by
    intro a ha
    rw [Set.mem_singleton_iff.mp ha]
    exact hnew.not_idle
  unfold deleteTree at hok
  cases hrun : m.inScope t.process (rimTreeDeleteF {} t key fresh).2.calls with
  | error e =>
    simp only [hrun, bind, Except.bind] at hok
    cases hok
  | ok m₁ =>
    simp only [hrun, bind, Except.bind] at hok
    -- nothing more is dropped
    have hplain : (rimTreeDeleteF {} t key fresh).1 = t' → m₁ = m' →
        Exact others ⟨m', A ++ t' :: B⟩ ∧ IdleKept ⟨m, A ++ t :: B⟩ ⟨m', A ++ t' :: B⟩ := by
      rintro rfl rfl
      obtain ⟨hc', -, hmode, hi⟩ := deleteF_focus ∅ h hfresh
        (fun a ha => absurd ha (Set.notMem_empty a)) hrun
      exact exact_focus h hinv' (hsame.process.trans hproc) hmode hc' hr hi hnot
        fun _ hf => hf.elim
    cases hout with
    | absent habs hroot hnodes hstatus hcalls =>
      simp only [hstatus] at hok
      obtain ⟨ht, hm⟩ := Prod.mk.inj (Except.ok.inj hok)
      exact hplain ht hm
    | removed I e J K gone hroot hnodes hcmp hfound hrem hroot' hnodes' hstatus hres hcalls =>
      cases value with
      | true =>
        simp only [hstatus] at hok
        obtain ⟨ht, hm⟩ := Prod.mk.inj (Except.ok.inj hok)
        exact hplain ht hm
      | false =>
        simp only [hstatus, hres] at hok
        obtain ⟨rfl, rfl⟩ := Prod.mk.inj (Except.ok.inj hok)
        have he : e ∈ t.nodes := by simp [hnodes]
        have hrefs := removed_refs hnodes hnodes' hrem
        have hpos : 0 < (beside others A B + t.refs) e.data := by
          have hle := le_refsOf he e.data
          have hone := refs_data_pos e
          rw [Pi.add_apply]
          unfold RimTree.refs
          omega
        have hef : e.data ≠ fresh := by
          intro heq
          rw [heq] at hpos
          omega
        have hheld := hguard.resolve_left Bool.noConfusion e.addr e
          (by rw [search_found he hfound]; rfl) (deref_eq hnd (hinv.mem_tree he))
        rcases hheld with hconst | hheld
        · -- a constant has no count
          obtain ⟨-, hk, -, -⟩ := deleteF_focus ∅ h hfresh
            (fun a ha => absurd ha (Set.notMem_empty a)) hrun
          have hconst' : m₁.rimMemGetId e.data = none := hk.const e.data hef hconst
          exact hplain rfl (rimMemDecProcess_const hconst').symm
        · -- the node was the only one to hold its value, which is ordinary now
          have hloose : ∀ a ∈ ({e.data} : Set Addr), 0 < (beside others A B + t.refs) a := by
            intro a ha
            rw [Set.mem_singleton_iff.mp ha]
            exact hpos
          obtain ⟨hc', -, hmode, hi⟩ := deleteF_focus {e.data} h hfresh hloose hrun
          obtain ⟨hc₂, hk₂, hi₂⟩ := hc'.dropLoose (Set.mem_singleton e.data) ∅
          have htight : ∀ a ∈ ({e.data} : Set Addr),
              (beside others A B + (rimTreeDeleteF {} t key fresh).1.refs) a = 0 := by
            intro a ha
            rw [Set.mem_singleton_iff.mp ha]
            rw [hrefs] at hheld
            simp only [Pi.add_apply] at hheld ⊢
            omega
          exact exact_focus h hinv' (hsame.process.trans hproc) (hk₂.mode.trans hmode)
            (hc₂.tighten htight) hr
            ⟨fun b hb hbt hu => (hi₂ b).mpr (hi.keep b hb hbt hu), fun b hb => (hi₂ b).mpr (hi.node b hb),
              fun b hb => hi.only b ((hi₂ b).mp hb)⟩ hnot fun _ hf => hf.elim

/-- `purge-tree` -/
theorem purgeTree_exact (h : Exact others ⟨m, A ++ t :: B⟩) (hfresh : IsFresh others ⟨m, A ++ t :: B⟩ fresh)
    (hguard : ∀ d ∈ t.nodes, m.rimMemGetId d.data = none ∨ (beside others A B + t.refs) d.data = t.refs d.data)
    (hok : purgeTree m fresh t = .ok (t', m')) :
    Exact others ⟨m', A ++ t' :: B⟩ ∧ IdleKept ⟨m, A ++ t :: B⟩ ⟨m', A ++ t' :: B⟩ := by
  obtain ⟨hinv, hproc, hc, hnd, hnode⟩ := h.focus
  obtain ⟨hlim, hnew, hzero⟩ := hfresh.focus
  unfold purgeTree at hok
  cases hpurge : t.rimTreePurgeF fresh with
  | none =>
    simp only [hpurge] at hok
    cases hok
  | some r =>
    obtain ⟨t₁, calls⟩ := r
    simp only [hpurge] at hok
    cases hrun : m.inScope t.process calls with
    | error e =>
      simp only [hrun, bind, Except.bind] at hok
      cases hok
    | ok m₁ =>
      simp only [hrun, bind, Except.bind] at hok
      obtain ⟨rfl, rfl⟩ := Prod.mk.inj (Except.ok.inj hok)
      obtain ⟨m₂, hcalls, rfl⟩ := inScope_ok hrun
      -- the values that are not constants are dropped twice
      let loose : Set Addr := {a | ∃ d ∈ t.nodes, d.data = a ∧ m.rimMemGetId a ≠ none}
      have hpos : ∀ a ∈ loose, 0 < (beside others A B + t.refs) a := by
        rintro _ ⟨d, hd, rfl, -⟩
        have hle := le_refsOf hd d.data
        have hone := refs_data_pos d
        rw [Pi.add_apply]
        unfold RimTree.refs
        omega
      have hloose : fresh ∉ loose := fun hl => by
        have hp := hpos fresh hl
        omega
      have hdata : ∀ d ∈ t.nodes, d.data ∈ loose ∨ m.rimMemGetId d.data = none := by
        intro d hd
        by_cases hconst : m.rimMemGetId d.data = none
        · exact Or.inr hconst
        · exact Or.inl ⟨d, hd, rfl, hconst⟩
      obtain ⟨hinv', hsame, hnil, hc', -, hr, hi⟩ := purgeLoop_counted hinv (hc.loosen hpos) hproc
        hnode hnd hnew hlim hzero hloose hdata hpurge hcalls
      have htight : ∀ a ∈ loose, (beside others A B + t₁.refs) a = 0 := by
        rintro _ ⟨d, hd, rfl, hconst⟩
        have hheld := (hguard d hd).resolve_left hconst
        have hrefs : t₁.refs = 0 := by
          unfold RimTree.refs
          rw [hnil]
          rfl
        rw [hrefs, add_zero]
        rw [Pi.add_apply] at hheld
        omega
      refine exact_focus h hinv' (hsame.process.trans hproc) rfl ((hc'.tighten htight).setMode false)
        hr ⟨hi.keep, hi.node, hi.only⟩ (fun a ha => ?_) fun _ hf => hf.elim
      rw [Set.mem_singleton_iff.mp ha]
      exact hnew.not_idle

end One

section Run

variable {others : Addr → ℕ} {s s' : TreeSys}

theorem exact_mem {m : Mem} (h : s.Exact others) (hmode : m.rimMemProcess = false)
    (hc : Counted m (s.holders others) ∅) (hidle : ∀ b, m.Idle b ↔ s.mem.Idle b) :
    Exact others { s with mem := m } ∧ s.IdleKept { s with mem := m } := by
  refine ⟨⟨h.trees, hmode, hc, h.apart, fun a ha => (hidle a).mpr (h.nodes a ha)⟩, fun a ha => ?_⟩
  exact IdleKept.refl s a ((hidle a).mp ha)

/-- A guarded statement keeps the counts exact. -/
theorem step_exact {stmt : TreeStmt} (h : s.Exact others) (hg : stmt.Guard others s)
    (hs : s.Step others stmt s') : s'.Exact others ∧ s.IdleKept s' := by
  obtain ⟨hlegal, hok⟩ := hs
  cases stmt with
  | newString p size =>
    obtain ⟨-, hfresh, hzero⟩ := hlegal
    unfold exec at hok
    cases hr : s.mem.rimMalloc (some p) size with
    | error e =>
      simp only [hr, bind, Except.bind] at hok
      cases hok
    | ok r =>
      simp only [hr, bind, Except.bind] at hok
      obtain rfl := Except.ok.inj hok
      obtain ⟨hc, hk, hi⟩ := h.counted.malloc hfresh hzero (Set.notMem_empty p) hr
      refine exact_mem h (hk.mode.trans h.mode) hc fun b => (hi b).trans ⟨?_, Or.inl⟩
      rintro (hb | ⟨-, hmode⟩)
      · exact hb
      · rw [h.mode] at hmode
        cases hmode
  | writeTree i key value fresh =>
    obtain ⟨hkey, hvalue, hfresh, hkf, hvf⟩ := hlegal
    obtain ⟨A, t, B, t', m', hi, htrees, hw, rfl⟩ := onTree_ok hok
    obtain ⟨m, trees⟩ := s
    obtain rfl : trees = A ++ t :: B := htrees
    exact writeTree_exact h hkey hvalue hfresh hkf hvf (hg.imp id fun hg => hg t hi) hw
  | readTree i query update =>
    obtain ⟨A, t, B, t', m', hi, htrees, hr, rfl⟩ := onTree_ok hok
    obtain ⟨m, trees⟩ := s
    obtain rfl : trees = A ++ t :: B := htrees
    exact readTree_exact h hlegal hr
  | deleteTree i key value fresh =>
    obtain ⟨A, t, B, t', m', hi, htrees, hd, rfl⟩ := onTree_ok hok
    obtain ⟨m, trees⟩ := s
    obtain rfl : trees = A ++ t :: B := htrees
    refine deleteTree_exact h hlegal (hg.imp id fun hg a d hcur hderef => ?_) hd
    have hheld := hg t a d hi hcur hderef
    rw [holders_focus] at hheld
    exact hheld
  | purgeTree i fresh =>
    obtain ⟨A, t, B, t', m', hi, htrees, hp, rfl⟩ := onTree_ok hok
    obtain ⟨m, trees⟩ := s
    obtain rfl : trees = A ++ t :: B := htrees
    refine purgeTree_exact h hlegal (fun d hd => ?_) hp
    have hheld := hg t hi d hd
    rw [holders_focus] at hheld
    exact hheld
  | endRequest =>
    obtain ⟨m', hdone, hc, hmode, hi⟩ := h.counted.done
    simp only [exec, hdone, bind, Except.bind] at hok
    obtain rfl := Except.ok.inj hok
    exact exact_mem h (hmode.trans h.mode) hc hi

/-- In every run of statements that meet the condition the counts are exact in every
state, and a block that nothing holds is a node's memory, was idle from the start,
or is ordinary. -/
theorem guarded_run_exact {stmts : List TreeStmt} (h : s.Exact others)
    (hrun : GuardedRun (Step others) (fun s stmt => stmt.Guard others s) s stmts s') :
    s'.Exact others ∧ ∀ a, s'.mem.Idle a → a ∈ s'.nodeAddrs ∨ (s.mem.Idle a ∧ a ∉ s.nodeAddrs) := by
  refine GuardedRun.invariant (P := fun u => u.Exact others ∧ s.IdleKept u) ?_ hrun ⟨h, .refl s⟩
  rintro u u' stmt ⟨hu, hkept⟩ hg hs
  obtain ⟨hu', hkept'⟩ := step_exact hu hg hs
  exact ⟨hu', hkept.trans hkept'⟩

end Run

/-! ## A request on one tree -/

instance (s : TreeSys) (a : Addr) : Decidable (s.IsString a) :=
  inferInstanceAs (Decidable (_ ∧ _))

instance (others : Addr → ℕ) (s : TreeSys) (a : Addr) : Decidable (s.IsFresh others a) :=
  inferInstanceAs (Decidable (_ ∧ _ ∧ _))

instance (others : Addr → ℕ) (s : TreeSys) (stmt : TreeStmt) : Decidable (stmt.Legal others s) :=
  match stmt with
  | .newString p _ => inferInstanceAs (Decidable (s.IsFresh others p))
  | .writeTree _ _ _ _ => inferInstanceAs (Decidable (_ ∧ _ ∧ _ ∧ _ ∧ _))
  | .readTree _ _ update => inferInstanceAs (Decidable (∀ u, update = some u → s.IsString u))
  | .deleteTree _ _ _ fresh => inferInstanceAs (Decidable (s.IsFresh others fresh))
  | .purgeTree _ fresh => inferInstanceAs (Decidable (s.IsFresh others fresh))
  | .endRequest => instDecidableTrue

def oneTree : TreeSys where
  mem := (Mem.inScope {} true [.calloc 1 1 40, .calloc 2 1 40]).toOption.getD {}
  trees := [rimTreeCreate .str false true 1 2]

theorem oneTree_exact : oneTree.Exact 0 := by
  have hscope : ∃ m, Mem.inScope {} true [.calloc 1 1 40, .calloc 2 1 40] = .ok m := ⟨_, rfl⟩
  obtain ⟨m, hm⟩ := hscope
  have hmem : oneTree.mem = m := by
    unfold oneTree
    rw [hm]
    rfl
  have hfresh : ∀ a, ({} : Mem).Fresh a := fun a r hr => absurd hr (Nat.not_lt_zero r)
  have hidle : ∀ a, ¬ ({} : Mem).Idle a := fun a => (hfresh a).not_idle
  -- the two nodes are what was allocated
  obtain ⟨m₃, hcalls, rfl⟩ := inScope_ok hm
  obtain ⟨m₁, hm₁, hcalls⟩ := runCalls_cons.mp hcalls
  obtain ⟨m₂, hm₂, hcalls⟩ := runCalls_cons.mp hcalls
  obtain rfl := Except.ok.inj hcalls
  obtain ⟨h₁, k₁, i₁⟩ := (counted_init.setMode true).calloc rfl (hfresh 1) rfl (Set.notMem_empty 1) hm₁
  have hfresh₂ : m₁.Fresh 2 := k₁.fresh 2 (by decide) (hfresh 2)
  obtain ⟨h₂, k₂, i₂⟩ := h₁.calloc k₁.mode hfresh₂ rfl (Set.notMem_empty 2) hm₂
  have htrees : oneTree.trees = [rimTreeCreate .str false true 1 2] := rfl
  refine ⟨?_, ?_, ?_, by decide, ?_⟩
  · intro t ht
    rw [htrees, List.mem_singleton] at ht
    rw [ht]
    exact ⟨create_inv .str false true 1 (by decide), rfl⟩
  · rw [hmem]
  · have hholders : oneTree.holders 0 = 0 := by
      rw [holders, htrees]
      rfl
    rw [hmem, hholders]
    exact h₂.setMode false
  · intro a ha
    have hcase : a = 2 ∨ a = 1 := by
      have haddrs : oneTree.nodeAddrs = [2, 1] := by decide
      simpa [haddrs] using ha
    rw [hmem]
    rcases hcase with rfl | rfl
    · exact (i₂ 2).mpr (Or.inr rfl)
    · exact (i₂ 1).mpr (Or.inl ((i₁ 1).mpr (Or.inr rfl)))

/-- A value is written and deleted again while nothing else holds it. -/
theorem guarded_run_exact_lastHolder : ∃ s : TreeSys,
    GuardedRun (Step 0) (fun s stmt => stmt.Guard 0 s) oneTree
      [.newString 5 8, .writeTree 0 ⟨100, [97]⟩ 5 3, .deleteTree 0 ⟨100, [97]⟩ false 4] s ∧
    s.Exact 0 := by
  have hrun : ∃ s : TreeSys, GuardedRun (Step 0) (fun s stmt => stmt.Guard 0 s) oneTree
      [.newString 5 8, .writeTree 0 ⟨100, [97]⟩ 5 3, .deleteTree 0 ⟨100, [97]⟩ false 4] s := by
    refine ⟨_, .cons trivial ⟨by decide, rfl⟩ (.cons (Or.inl (by decide)) ⟨by decide, rfl⟩
      (.cons (Or.inr ?_) ⟨by decide, rfl⟩ (.nil _)))⟩
    rintro t a d ht ha hd
    obtain rfl := Option.some.inj ht
    obtain rfl := Option.some.inj ha
    obtain rfl := Option.some.inj hd
    exact Or.inr (by decide)
  obtain ⟨s, hs⟩ := hrun
  exact ⟨s, hs, (guarded_run_exact oneTree_exact hs).1⟩

/-- Without the condition the counts go wrong: a value that two nodes hold is
deleted from one of them, and is then ordinary memory that the other still holds. -/
theorem run_not_exact :
    ¬ ∀ (s s' : TreeSys) (stmts : List TreeStmt), s.Exact 0 → Run (Step 0) s stmts s' →
      s'.Exact 0 := by
  intro h
  have hrun : ∃ s : TreeSys, Run (Step 0) oneTree
      [.newString 5 8, .writeTree 0 ⟨100, [97]⟩ 5 3, .writeTree 0 ⟨101, [98]⟩ 5 4,
        .deleteTree 0 ⟨102, [97]⟩ false 9] s ∧
      s.holders 0 5 = 1 ∧ (s.mem.vm 2).ptr = some 5 ∧ (s.mem.vm 2).status = {} ∧ 2 < s.mem.vmCurr :=
    ⟨_, .cons trivial ⟨by decide, rfl⟩ (.cons trivial ⟨by decide, rfl⟩ (.cons trivial ⟨by decide, rfl⟩
      (.cons trivial ⟨by decide, rfl⟩ (.nil _)))), by decide, by decide, by decide, by decide⟩
  obtain ⟨s, hs, hheld, hptr, hstatus, hcurr⟩ := hrun
  have hexact := h oneTree s _ oneTree_exact hs
  have hzero := hexact.counted.ordinary 5 {} (s.mem.vm 2).ref
    ⟨2, hcurr, hptr, hstatus, rfl, rfl⟩ rfl (Set.notMem_empty 5)
  omega

end TreeSys

end RimStone
