import RimStone.Laws.Tree.Counts

/-!
# Purging a tree

A round of `rim_tree_purge_f` drops the value of the least node, and then deletes
that node, which drops the value again. With the values of the tree loose the
counts survive every round (`purgeLoop_counted`), and the tree is empty when the
loop ends. It does end if the keys are in order (`rimTreePurgeF_returns`): each
round deletes a node.
-/

namespace RimStone

open TreeNode Mem RimStone.Lib

namespace RimTree

section Purge

variable {t t' t'' : RimTree} {m m' m'' : Mem} {holders : Addr → ℕ} {loose : Set Addr} {fresh : Addr}

theorem SameType.trans (h : SameType t t') (h' : SameType t' t'') : SameType t t'' := by
  obtain ⟨d, n, n', htop, htop'⟩ := h.top
  obtain ⟨d', k, k', htop₁, htop''⟩ := h'.top
  have hd : d' = d := (TreeNode.node.inj (htop₁.symm.trans htop')).1
  exact ⟨h'.keyType.trans h.keyType, h'.sorted.trans h.sorted, h'.process.trans h.process, d, n, k', htop, hd ▸ htop''⟩

theorem IdleNodes.trans {used : Addr → Prop} (h : t.IdleNodes t' m m' used)
    (h' : t'.IdleNodes t'' m' m'' used) (hr : t.Reuses t' {fresh}) (hfresh : ¬ m.Idle fresh) :
    t.IdleNodes t'' m m'' used := by
  refine ⟨fun b hb hbt hu => ?_, h'.node, fun b hb => ?_⟩
  · refine h'.keep b (h.keep b hb hbt hu) (fun hb' => ?_) hu
    rcases hr.sub b hb' with hbt' | rfl
    · exact hbt hbt'
    · exact hfresh hb
  · rcases h'.only b hb with hb | ⟨hb, hbt⟩
    · exact Or.inl hb
    · exact Or.inr ((h.only b hb).resolve_left hbt)

theorem Reuses.trans {new : Set Addr} (h : t.Reuses t' new) (h' : t'.Reuses t'' new)
    (hf : ∀ a ∈ new, a ∉ t'.addrs) : t.Reuses t'' new := by
  refine ⟨fun hnd hft => h'.nodup (h.nodup hnd hft) hf, fun b hb => ?_⟩
  rcases h'.sub b hb with hb | hb
  · exact h.sub b hb
  · exact Or.inr hb

/-- The nodes a deletion leaves hold what nodes held before. -/
theorem DeleteOutcome.exists_data {key : RimStr} {st : TreeSt}
    (h : DeleteOutcome t key fresh t' st) {d : NodeData} (hd : d ∈ t'.nodes) :
    ∃ d' ∈ t.nodes, d'.data = d.data := by
  cases h with
  | absent habs hroot hnodes hstatus hcalls => exact ⟨d, hnodes ▸ hd, rfl⟩
  | removed I e J K gone hroot hnodes hcmp hfound hrem hroot' hnodes' hstatus hres hcalls =>
    rw [hnodes'] at hd
    rw [hnodes]
    rcases List.mem_append.mp hd with hd | hd
    · exact ⟨d, List.mem_append_left _ hd, rfl⟩
    · obtain ⟨d', hd', -, hdata⟩ := hrem.exists_entry hd
      exact ⟨d', by simp [hd'], hdata⟩

theorem DeleteOutcome.refs_le {key : RimStr} {st : TreeSt} (h : DeleteOutcome t key fresh t' st)
    (a : Addr) : t'.refs a ≤ t.refs a := by
  cases h with
  | absent habs hroot hnodes hstatus hcalls =>
    unfold refs
    rw [hnodes]
  | removed I e J K gone hroot hnodes hcmp hfound hrem hroot' hnodes' hstatus hres hcalls =>
    rw [removed_refs hnodes hnodes' hrem]
    exact Nat.le_add_right ..

/-- One more reference to a loose block or to a constant is dropped. -/
theorem dropData_counted {a : Addr} (hc : Counted m holders loose) (ha : a ∈ loose ∨ m.rimMemGetId a = none) :
    Counted (m.rimMemDecProcess a) holders loose ∧ m.Keeps (m.rimMemDecProcess a) ∅ ∧
      ∀ b, (m.rimMemDecProcess a).Idle b ↔ m.Idle b := by
  rcases ha with ha | ha
  · exact hc.dropLoose ha ∅
  · rw [rimMemDecProcess_const ha]
    exact ⟨hc, .refl _ _, fun _ => Iff.rfl⟩

theorem purgeLoop_empty (h : t.TreeInv) (hnil : t.nodes = []) {fuel : Nat}
    {r : RimTree × List MemCall} (hloop : rimTreePurgeLoop fresh fuel t = some r) : r = (t, []) := by
  cases fuel with
  | zero => cases hloop
  | succ fuel =>
    unfold rimTreePurgeLoop at hloop
    rw [(h.ends {}).1, hnil] at hloop
    exact (Option.some.inj hloop).symm

/-- A round on a tree with nodes: the least node, and its deletion. -/
theorem purgeLoop_round (fresh : Addr) (h : t.TreeInv) (hnd : t.addrs.Nodup) {d : NodeData} {rest : List NodeData}
    (hnodes : t.nodes = d :: rest) (fuel : Nat) : ∃ lcurs : RimTreeCursor,
    rimTreePurgeLoop fresh (fuel + 1) t =
      (rimTreePurgeLoop fresh fuel (rimTreeDeleteF lcurs t d.key fresh).1).map fun r =>
        (r.1, .decProcess d.data :: ((rimTreeDeleteF lcurs t d.key fresh).2.calls ++ r.2)) := by
  have hd : d ∈ t.nodes := by simp [hnodes]
  refine ⟨RimTreeCursor.found {} (some d.addr), ?_⟩
  rw [rimTreePurgeLoop, (h.ends {}).1, hnodes]
  simp only [List.head?_cons, Option.map_some, RimTreeCursor.found, Option.bind_some,
    deref_eq hnd (h.mem_tree hd), ↓reduceIte]

/-- A purge of a tree whose values are loose, or constants, leaves it empty and the
counts right. -/
theorem purgeLoop_counted {fuel : Nat} {calls : List MemCall} (h : t.TreeInv)
    (hc : Counted m (holders + t.refs) loose) (hmode : m.rimMemProcess = true)
    (hnode : ∀ a ∈ t.addrs, m.Idle a) (hnd : t.addrs.Nodup) (hfresh : m.Fresh fresh)
    (hlim : fresh < addrLimit) (hzero : (holders + t.refs) fresh = 0) (hloose : fresh ∉ loose)
    (hdata : ∀ d ∈ t.nodes, d.data ∈ loose ∨ m.rimMemGetId d.data = none)
    (hloop : rimTreePurgeLoop fresh fuel t = some (t', calls))
    (hrun : m.runCalls calls = .ok m') :
    t'.TreeInv ∧ SameType t t' ∧ t'.nodes = [] ∧ Counted m' (holders + t'.refs) loose ∧
      m.Keeps m' {fresh} ∧ t.Reuses t' {fresh} ∧ t.IdleNodes t' m m' fun _ => False := by
  induction fuel generalizing t m calls with
  | zero => cases hloop
  | succ fuel ih =>
    cases hnodes : t.nodes with
    | nil =>
      obtain ⟨rfl, rfl⟩ := Prod.mk.inj (purgeLoop_empty h hnodes hloop)
      obtain rfl := Except.ok.inj hrun
      obtain ⟨d, n, htop⟩ := h.top
      refine ⟨h, ⟨rfl, rfl, rfl, d, n, n, htop, htop⟩, hnodes, hc, .refl _ _, .of_addrs rfl _,
        ⟨fun b hb _ _ => hb, hnode, fun b hb => ?_⟩⟩
      by_cases hbt : b ∈ t'.addrs
      · exact Or.inl hbt
      · exact Or.inr ⟨hb, hbt⟩
    | cons d rest =>
      have hd : d ∈ t.nodes := by simp [hnodes]
      obtain ⟨lcurs, hround⟩ := purgeLoop_round fresh h hnd hnodes fuel
      rw [hround] at hloop
      obtain ⟨⟨t₂, calls₂⟩, hrest, hr⟩ := Option.map_eq_some_iff.mp hloop
      obtain ⟨rfl, rfl⟩ := Prod.mk.inj hr
      rw [runCalls_decProcess, runCalls_append] at hrun
      obtain ⟨m₂, hdel, hrun⟩ := hrun
      -- the value once, and then the deletion
      obtain ⟨hc₁, hk₁, hi₁⟩ := dropData_counted hc (hdata d hd)
      obtain ⟨hinv₁, hsame₁, hout₁⟩ := rimTreeDeleteF_inv d.key h hlim lcurs
      obtain ⟨hr₂, -⟩ := hout₁.reuses hsame₁
      obtain ⟨hc₂, hk₂, hk₂', hi₂⟩ := delete_counted hout₁ hsame₁ hc₁ (hk₁.mode.trans hmode)
        (fun a ha => (hi₁ a).mpr (hnode a ha)) hnd (hk₁.fresh fresh (Set.notMem_empty _) hfresh)
        hzero hloose hdel
      have hi : t.IdleNodes (rimTreeDeleteF lcurs t d.key fresh).1 m m₂ fun _ => False :=
        ⟨fun b hb => hi₂.keep b ((hi₁ b).mpr hb), hi₂.node,
          fun b hb => (hi₂.only b hb).imp id fun hb => ⟨(hi₁ b).mp hb.1, hb.2⟩⟩
      have hk : m.Keeps m₂ {fresh} := (hk₁.mono (Set.empty_subset {fresh})).trans hk₂
      by_cases hnil : (rimTreeDeleteF lcurs t d.key fresh).1.nodes = []
      · -- that was the last node
        obtain ⟨rfl, rfl⟩ := Prod.mk.inj (purgeLoop_empty hinv₁ hnil hrest)
        obtain rfl := Except.ok.inj hrun
        exact ⟨hinv₁, hsame₁, hnil, hc₂, hk, hr₂, hi⟩
      · have hke := hk₁.trans (hk₂' hnil)
        have hfresh₂ : m₂.Fresh fresh := hke.fresh fresh (Set.notMem_empty _) hfresh
        have hdata₂ : ∀ e ∈ (rimTreeDeleteF lcurs t d.key fresh).1.nodes,
            e.data ∈ loose ∨ m₂.rimMemGetId e.data = none := by
          intro e he
          obtain ⟨e', he', hdat⟩ := hout₁.exists_data he
          rw [← hdat]
          exact (hdata e' he').imp id (hke.const e'.data (Set.notMem_empty _))
        have hzero₂ : (holders + (rimTreeDeleteF lcurs t d.key fresh).1.refs) fresh = 0 := by
          have hle := hout₁.refs_le fresh
          rw [Pi.add_apply] at hzero ⊢
          omega
        have hfnode : ∀ a ∈ ({fresh} : Set Addr), a ∉ (rimTreeDeleteF lcurs t d.key fresh).1.addrs := by
          intro a ha hf
          rw [Set.mem_singleton_iff.mp ha] at hf
          exact hfresh₂.not_idle (hi₂.node fresh hf)
        have hfold : ∀ a ∈ ({fresh} : Set Addr), a ∉ t.addrs := by
          intro a ha hf
          rw [Set.mem_singleton_iff.mp ha] at hf
          exact hfresh.not_idle (hnode fresh hf)
        obtain ⟨hinv₃, hsame₃, hnil₃, hc₃, hk₃, hr₃, hi₃⟩ := ih hinv₁ hc₂ (hk.mode.trans hmode)
          hi₂.node (hr₂.nodup hnd hfold) hfresh₂ hzero₂ hdata₂ hrest hrun
        exact ⟨hinv₃, hsame₁.trans hsame₃, hnil₃, hc₃, hk.trans hk₃, hr₂.trans hr₃ hfnode,
          hi.trans hi₃ hr₂ hfresh.not_idle⟩

/-- With its keys in order a tree is purged in as many rounds as it has nodes. -/
theorem purgeLoop_returns {fuel : Nat} (h : t.TreeInv) (ho : t.Ordered) (hnd : t.addrs.Nodup)
    (hlim : fresh < addrLimit) (hnot : fresh ∉ t.addrs) (hfuel : t.nodes.length < fuel) :
    ∃ r, rimTreePurgeLoop fresh fuel t = some r ∧ r.1.TreeInv ∧ SameType t r.1 ∧ r.1.nodes = [] := by
  induction fuel generalizing t with
  | zero => exact absurd hfuel (Nat.not_lt_zero _)
  | succ fuel ih =>
    cases hnodes : t.nodes with
    | nil =>
      unfold rimTreePurgeLoop
      rw [(h.ends {}).1, hnodes]
      obtain ⟨d, n, htop⟩ := h.top
      exact ⟨(t, []), rfl, h, ⟨rfl, rfl, rfl, d, n, n, htop, htop⟩, hnodes⟩
    | cons d rest =>
      have hd : d ∈ t.nodes := by simp [hnodes]
      have hok := ho.ok d hd
      obtain ⟨lcurs, hround⟩ := purgeLoop_round fresh h hnd hnodes fuel
      obtain ⟨hinv₁, hsame₁, hout₁⟩ := rimTreeDeleteF_inv d.key h hlim lcurs
      obtain ⟨hr₁, hsub₁⟩ := hout₁.reuses hsame₁
      have hlen : (rimTreeDeleteF lcurs t d.key fresh).1.nodes.length + 1 = t.nodes.length := by
        cases hout₁ with
        | absent habs hroot hnodes' hstatus hcalls => exact absurd rfl (habs hok ho d hd)
        | removed I e J K gone hroot hnodes₁ hcmp hfound hrem hroot' hnodes' hstatus hres hcalls =>
          rw [hnodes', hnodes₁]
          exact hrem.length.symm
      rw [hround]
      by_cases hnil : (rimTreeDeleteF lcurs t d.key fresh).1.nodes = []
      · have hfuel' : 0 < fuel := by
          rw [hnodes, List.length_cons] at hfuel
          rw [hnil, hnodes] at hlen
          simp only [List.length_nil, List.length_cons] at hlen
          omega
        obtain ⟨fuel, rfl⟩ := Nat.exists_eq_succ_of_ne_zero (Nat.pos_iff_ne_zero.mp hfuel')
        have hend : rimTreePurgeLoop fresh (fuel + 1) (rimTreeDeleteF lcurs t d.key fresh).1 =
            some ((rimTreeDeleteF lcurs t d.key fresh).1, []) := by
          rw [rimTreePurgeLoop, (hinv₁.ends {}).1, hnil]
          rfl
        rw [Nat.succ_eq_add_one, hend]
        exact ⟨_, rfl, hinv₁, hsame₁, hnil⟩
      · obtain ⟨r, hr, hinv, hsame, hnone⟩ := ih hinv₁ (hout₁.ordered ho hsame₁) (hr₁.nodup hnd (by
          rintro _ rfl
          exact hnot))
          (fun hf => hnot (hsub₁ hnil fresh hf)) (by omega)
        rw [hr]
        exact ⟨_, rfl, hinv, hsame₁.trans hsame, hnone⟩

end Purge

section Run

variable {keyType : KeyType} {sorted process : Bool} {tree root fresh : Addr} {ops : List TreeOp} {t : RimTree}

/-- After any run a purge comes to its end, and what it leaves is a new tree to every run that follows. -/
theorem run_purged (hroot : root < addrLimit) (hok : ∀ op ∈ ops, op.KeyOk keyType)
    (hrun : Run Step (rimTreeCreate keyType sorted process tree root) ops t) (hnd : t.addrs.Nodup)
    (hlim : fresh < addrLimit) (hnot : fresh ∉ t.addrs) :
    ∃ t' calls, t.rimTreePurgeF fresh = some (t', calls) ∧ ∀ (ops' : List TreeOp) (t'' : RimTree),
      (∀ op ∈ ops', op.KeyOk keyType) → Run Step t' ops' t'' → t''.IsOrderedMap (mapAfter ops') := by
  have hinv := create_inv keyType sorted process tree hroot
  obtain ⟨ho, hm⟩ := create_represents keyType sorted process tree root
  obtain ⟨ho, -⟩ := run_represents hrun hok hinv ho hm
  have htype : t.keyType = keyType := run_keyType hrun hinv
  obtain ⟨hinv, -⟩ := run_inv hrun hinv
  have hfuel : t.nodes.length < t.count.toNat + 1 := by
    rw [hinv.count, Int.toNat_natCast]
    exact Nat.lt_succ_self _
  obtain ⟨⟨t', calls⟩, hpurge, hinv', hsame, hnil⟩ := purgeLoop_returns hinv ho hnd hlim hnot hfuel
  refine ⟨t', calls, hpurge, fun ops' t'' hok' hrun' => ?_⟩
  obtain ⟨ho', hm'⟩ := represents_of_nil hnil
  rw [← htype, ← hsame.keyType] at hok'
  obtain ⟨ho'', hm''⟩ := run_represents hrun' hok' hinv' ho' hm'
  exact isOrderedMap (run_inv hrun' hinv').1 ho'' hm''

theorem run_purged_one : ∃ (t t' : RimTree) (calls : List MemCall), t.count = 1 ∧ t.rimTreePurgeF 4 = some (t', calls) ∧
    ∀ (ops' : List TreeOp) (t'' : RimTree), (∀ op ∈ ops', op.KeyOk .str) → Run Step t' ops' t'' →
      t''.IsOrderedMap (mapAfter ops') := by
  obtain ⟨t, hrun, hcount, hnd, hnot⟩ : ∃ t, Run Step (rimTreeCreate .str true false 1 2)
      [.insert {} ⟨11, [98]⟩ 12 3] t ∧ t.count = 1 ∧ t.addrs.Nodup ∧ 4 ∉ t.addrs :=
    ⟨_, .cons trivial ⟨by decide, rfl⟩ (.nil _), rfl, by decide, by decide⟩
  obtain ⟨t', calls, hpurge, hmap⟩ := run_purged (by decide) (by decide) hrun hnd (by decide) hnot
  exact ⟨t, t', calls, hcount, hpurge, hmap⟩

end Run

end RimTree

end RimStone
