import RimStone.Laws.Tree.Insert

/-!
# Deletion

`rim_tree_delete` takes one node out of a subtree. A node without a greater child
is unhooked. Any other node stays where it is and is given the key and the data
of its successor, the least node on its greater side, and that node is
unhooked instead (`rim_tree_find_leaf_del`). Either way one entry leaves the
in-order list, and the subtree is at most one lower.

`Removal` is that step on the in-order list, with what it does beside the nodes.
-/

namespace RimStone

open TreeNode

/-- What unhooking the node `d` itself does beside the nodes. -/
def nodeTaken (c : TreeCtx) (d : NodeData) (st : TreeSt) : TreeSt :=
  (if c.sorted then st.withList (·.unlink d.addr) else st).call
    (.decProcess d.data :: rimTreeNodeDelete d.key d.addr)

/-- What unhooking `leaf` in the place of `found` does beside the nodes. -/
def leafTaken (c : TreeCtx) (found leaf : NodeData) (st : TreeSt) : TreeSt :=
  ((if c.sorted then (st.withList (·.unlink found.addr)).withList (·.replace found.addr leaf.addr)
    else st).call [.decProcess found.data]).call (rimTreeNodeDelete found.key leaf.addr)

/-- The node `found` after it took over the key and the data of `leaf`. -/
def NodeData.takeOver (found leaf : NodeData) : NodeData :=
  { found with key := leaf.key, data := leaf.data }

/-- `t'` is `t` without its least node `leaf`. -/
structure LeastTaken (t : TreeNode) (leaf : NodeData) (t' : TreeNode) : Prop where
  inorder : t.inorder = leaf :: t'.inorder
  below : t'.CachedBelow
  balanced : t'.Balanced
  lower : t.depth ≤ t'.depth + 1
  upper : t'.depth ≤ t.depth

section FindLeaf

variable {c : TreeCtx} {d : NodeData} {h : Nat} {l g : TreeNode}

/-- A frame over a lesser child that lost its least node. -/
theorem LeastTaken.frame {l' t : TreeNode} {leaf : NodeData} (hl : LeastTaken l leaf l')
    (ht : Rebalanced l' g d t) (hlg : l.depth ≤ g.depth + 1) (hgl : g.depth ≤ l.depth + 1) :
    LeastTaken (node d h l g) leaf t := by
  have hlow := hl.lower
  have hup := hl.upper
  have htlow := ht.lower
  have htup := ht.upper
  have hlevel := ht.level
  refine ⟨?_, ht.below, ht.balanced, ?_, ?_⟩
  · rw [ht.inorder]
    simp only [TreeNode.inorder, hl.inorder, List.cons_append]
  · simp only [depth]
    omega
  · simp only [depth]
    omega

/-- The least node of a subtree is taken out, and its key and data handed to `found`. -/
theorem rimTreeFindLeafDel_spec {t : TreeNode} (hbelow : t.CachedBelow) (hbal : t.Balanced)
    (hne : t ≠ null) (hlim : t.depth < 2 ^ 7) (found : NodeData) (p : TreeNode) (dir : Dir)
    (st : TreeSt) (hp : p ≠ null) :
    ∃ leaf t', Hung p dir t' (rimTreeFindLeafDel c found p dir t st).1 ∧ LeastTaken t leaf t' ∧
      (rimTreeFindLeafDel c found p dir t st).2.1 = found.takeOver leaf ∧
      (rimTreeFindLeafDel c found p dir t st).2.2 = leafTaken c found leaf st := by
  induction t generalizing p dir with
  | null => exact absurd rfl hne
  | node d h l g ihl ihg =>
    obtain ⟨hl, hg⟩ := hbelow
    obtain ⟨hbl, hbg, hlg, hgl⟩ := hbal
    have hdepth : (node d h l g).depth = max l.depth g.depth + 1 := rfl
    unfold rimTreeFindLeafDel
    by_cases hnull : l = null
    · subst hnull
      refine ⟨d, g, hung_setChild .., ⟨rfl, hg.below, hbg, ?_, ?_⟩, rfl, rfl⟩
      all_goals
        simp only [depth] at hgl ⊢
        omega
    · simp only [isNull_false_iff.mpr hnull, Bool.false_eq_true, ↓reduceIte]
      obtain ⟨leaf, l', ⟨m, hm⟩, htaken, hfound, hst⟩ := ihl hl.below hbl hnull (by omega)
        (node d h l g) .lesser TreeNode.noConfusion
      have hlow := htaken.lower
      have hup := htaken.upper
      rw [hm, hfound, hst]
      obtain ⟨t, hung, hreb⟩ := frame_lesser (d := d) (h := m) dir hp htaken.below hg
        htaken.balanced hbg (by omega) (by omega) (by omega)
      exact ⟨leaf, t, hung, htaken.frame hreb hlg hgl, rfl, rfl⟩

end FindLeaf

/-- The end of a deletion that found the node `e`. -/
def deletionDone (e : NodeData) (st : TreeSt) : TreeSt :=
  { st with status := .okay, count := st.count - 1, res := some e.data }

/-- The entry `e` leaves an in-order list: `J` follows it before, `K` is there after. -/
inductive Removal (c : TreeCtx) (e : NodeData) (st : TreeSt) :
    List NodeData → List NodeData → TreeSt → Prop
  | node (J : List NodeData) : Removal c e st J J (nodeTaken c e st)
  | leaf (f : NodeData) (J : List NodeData) :
      Removal c e st (f :: J) (e.takeOver f :: J) (leafTaken c e f st)

theorem Removal.append {c : TreeCtx} {e : NodeData} {st st' : TreeSt} {J K : List NodeData}
    (h : Removal c e st J K st') (L : List NodeData) : Removal c e st (J ++ L) (K ++ L) st' := by
  cases h with
  | node J => exact .node (J ++ L)
  | leaf f J => exact .leaf f (J ++ L)

/-- `t'` is `t` without the entry that the key of the operation finds. -/
structure Deleted (c : TreeCtx) (t : TreeNode) (st : TreeSt) (t' : TreeNode) (st' : TreeSt) :
    Prop where
  place : ∃ I e J K st₁, t.inorder = I ++ e :: J ∧ t'.inorder = I ++ K ∧
    (rimTreeCompare c e.key = 0 ∧ rimTreeSearchLoop c t = some e.addr) ∧
    Removal c e st J K st₁ ∧ st' = deletionDone e st₁
  below : t'.CachedBelow
  balanced : t'.Balanced
  lower : t.depth ≤ t'.depth + 1
  upper : t'.depth ≤ t.depth

section Delete

variable {c : TreeCtx} {d : NodeData} {h : Nat} {l g : TreeNode}

/-- A frame over a lesser child that lost the key. -/
theorem Deleted.lesser {l' t : TreeNode} {st st' : TreeSt} (hl : Deleted c l st l' st')
    (ht : Rebalanced l' g d t) (hlt : rimTreeCompare c d.key < 0) (hlg : l.depth ≤ g.depth + 1) (hgl : g.depth ≤ l.depth + 1) :
    Deleted c (node d h l g) st t st' := by
  obtain ⟨I, e, J, K, st₁, hin, hin', ⟨hkey, hfound⟩, hrem, hst⟩ := hl.place
  have hlow := hl.lower
  have hup := hl.upper
  have htlow := ht.lower
  have htup := ht.upper
  have hlevel := ht.level
  refine ⟨⟨I, e, J ++ d :: g.inorder, K ++ d :: g.inorder, st₁, ?_, ?_,
    ⟨hkey, (rimTreeSearchLoop_lesser hlt).trans hfound⟩, hrem.append _, hst⟩,
    ht.below, ht.balanced, ?_, ?_⟩
  · simp only [inorder, hin, List.append_assoc, List.cons_append]
  · rw [ht.inorder, hin', List.append_assoc]
  all_goals
    simp only [depth]
    omega

theorem Deleted.greater {g' t : TreeNode} {st st' : TreeSt} (hg : Deleted c g st g' st')
    (ht : Rebalanced l g' d t) (hgt : rimTreeCompare c d.key > 0) (hlg : l.depth ≤ g.depth + 1) (hgl : g.depth ≤ l.depth + 1) :
    Deleted c (node d h l g) st t st' := by
  obtain ⟨I, e, J, K, st₁, hin, hin', ⟨hkey, hfound⟩, hrem, hst⟩ := hg.place
  have hlow := hg.lower
  have hup := hg.upper
  have htlow := ht.lower
  have htup := ht.upper
  have hlevel := ht.level
  refine ⟨⟨l.inorder ++ d :: I, e, J, K, st₁, ?_, ?_,
    ⟨hkey, (rimTreeSearchLoop_greater hgt).trans hfound⟩, hrem, hst⟩, ht.below, ht.balanced, ?_, ?_⟩
  · simp only [inorder, hin, List.append_assoc, List.cons_append]
  · rw [ht.inorder, hin', List.append_assoc, List.cons_append]
  all_goals
    simp only [depth]
    omega

/-- The key is at a node without a greater child. -/
theorem deleted_node {st : TreeSt} (ht : SubtreeInv (node d h l null)) (hkey : rimTreeCompare c d.key = 0) :
    Deleted c (node d h l null) st l (deletionDone d (nodeTaken c d st)) := by
  obtain ⟨⟨hl, hli⟩, -, -, hlg, -⟩ := ht.parts
  refine ⟨⟨l.inorder, d, [], [], nodeTaken c d st, rfl, by simp,
    ⟨hkey, rimTreeSearchLoop_here hkey⟩, .node [], rfl⟩, hl.below,
    hli.balanced, ?_, ?_⟩
  all_goals
    simp only [depth] at hlg ⊢
    omega

/-- The key is at a node that takes over its successor's. -/
theorem deleted_leaf {st : TreeSt} {leaf : NodeData} {g' t : TreeNode}
    (hg : LeastTaken g leaf g') (ht : Rebalanced l g' (d.takeOver leaf) t)
    (hkey : rimTreeCompare c d.key = 0) (hlg : l.depth ≤ g.depth + 1)
    (hgl : g.depth ≤ l.depth + 1) :
    Deleted c (node d h l g) st t (deletionDone d (leafTaken c d leaf st)) := by
  have hlow := hg.lower
  have hup := hg.upper
  have htlow := ht.lower
  have htup := ht.upper
  have hlevel := ht.level
  refine ⟨⟨l.inorder, d, leaf :: g'.inorder, d.takeOver leaf :: g'.inorder, leafTaken c d leaf st,
    ?_, ht.inorder, ⟨hkey, rimTreeSearchLoop_here hkey⟩, .leaf leaf g'.inorder, rfl⟩, ht.below, ht.balanced, ?_, ?_⟩
  · simp only [inorder, hg.inorder]
  all_goals
    simp only [depth]
    omega

/-- No node has the key, if the comparison is an order. -/
def Absent (c : TreeCtx) (l : List NodeData) : Prop :=
  c.Valid → KeysOrdered c.keyType l → ∀ e ∈ l, e.key.bytes ≠ c.key.bytes

theorem rank_ne {kt : KeyType} {r s : Bytes} (h : kt.rank r < kt.rank s) : r ≠ s := by
  rintro rfl
  exact lt_irrefl _ h

/-- A key below a node that is not in its lesser child is not there. -/
theorem Absent.lesser (hlt : rimTreeCompare c d.key < 0) (hl : Absent c l.inorder) :
    Absent c (node d h l g).inorder := by
  intro hc ho e he
  obtain ⟨hol, -, hok, -, hdg⟩ := ho.parts
  have hkd := (rimTreeCompare_neg hc hok).mp hlt
  rcases List.mem_append.mp he with he | he
  · exact hl hc hol e he
  · rcases List.mem_cons.mp he with rfl | he
    · exact (rank_ne hkd).symm
    · exact (rank_ne (lt_trans hkd (hdg e he))).symm

theorem Absent.greater (hgt : rimTreeCompare c d.key > 0) (hg : Absent c g.inorder) :
    Absent c (node d h l g).inorder := by
  intro hc ho e he
  obtain ⟨-, hog, hok, hld, -⟩ := ho.parts
  have hdk := (rimTreeCompare_pos hc hok).mp hgt
  rcases List.mem_append.mp he with he | he
  · exact rank_ne (lt_trans (hld e he) hdk)
  · rcases List.mem_cons.mp he with rfl | he
    · exact rank_ne hdk
    · exact hg hc hog e he

theorem absent_null : Absent c null.inorder := fun _ _ _ he => absurd he List.not_mem_nil

/-- Deletion below a subtree: the way down ends and nothing changes, or a node
leaves. -/
theorem rimTreeDelete_spec {t : TreeNode} (ht : SubtreeInv t)
    (hne : t ≠ null) (hlim : t.depth < 2 ^ 7) (p : TreeNode) (dir : Dir) (st : TreeSt)
    (hp : p ≠ null) (hpt : p.child dir = t) :
    ∃ t', Hung p dir t' (rimTreeDelete c p dir t st).1 ∧
      ((Absent c t.inorder ∧ Unchanged t t' ∧
          (rimTreeDelete c p dir t st).2 = { st with status := .errExist }) ∨
        Deleted c t st t' (rimTreeDelete c p dir t st).2) := by
  induction t generalizing p dir with
  | null => exact absurd rfl hne
  | node d h l g ihl ihg =>
    obtain ⟨⟨hl, hli⟩, ⟨hg, hgi⟩, hpres, hlg, hgl⟩ := ht.parts
    have hdepth : (node d h l g).depth = max l.depth g.depth + 1 := rfl
    unfold rimTreeDelete
    by_cases hzero : rimTreeCompare c d.key = 0
    · simp only [hzero, ↓reduceIte]
      by_cases hnull : g = null
      · subst hnull
        exact ⟨l, hung_setChild .., Or.inr (deleted_node ht hzero)⟩
      · simp only [isNull_false_iff.mpr hnull, Bool.false_eq_true, ↓reduceIte]
        obtain ⟨leaf, g', ⟨m, hm⟩, htaken, hfound, hst⟩ := rimTreeFindLeafDel_spec (c := c) hg.below
          hgi.balanced hnull (by omega) d (node d h l g) .greater st TreeNode.noConfusion
        have hlow := htaken.lower
        have hup := htaken.upper
        rw [hm, hfound, hst]
        obtain ⟨t, hung, hreb⟩ := frame_greater (d := d.takeOver leaf) (h := m) dir hp hl
          htaken.below hli.balanced htaken.balanced (by omega) (by omega) (by omega)
        exact ⟨t, hung, Or.inr (deleted_leaf htaken hreb hzero hlg hgl)⟩
    · by_cases hlt : rimTreeCompare c d.key < 0
      · have hngt : ¬ rimTreeCompare c d.key > 0 := by omega
        by_cases hnull : l = null
        · subst hnull
          simp only [hzero, hlt, hngt, isNull, Bool.true_eq_false, and_false, false_and, ↓reduceIte]
          exact ⟨node d h null g, hpt ▸ hung_self p dir, Or.inl ⟨absent_null.lesser hlt, ht.unchanged, trivial⟩⟩
        · simp only [hzero, hlt, isNull_false_iff.mpr hnull, and_self, ↓reduceIte]
          obtain ⟨l', ⟨m, hm⟩, hres⟩ := ihl hli hnull (by omega) (node d h l g) .lesser
            TreeNode.noConfusion rfl
          have hl' : l'.CachedBelow ∧ l'.Balanced ∧ l.depth ≤ l'.depth + 1 ∧
              l'.depth ≤ l.depth := by
            rcases hres with ⟨-, hu, -⟩ | hd
            · exact ⟨hu.below, hu.balanced, by have := hu.depth; omega, hu.depth.le⟩
            · exact ⟨hd.below, hd.balanced, hd.lower, hd.upper⟩
          obtain ⟨hbelow, hbal, hlow, hup⟩ := hl'
          rw [hm]
          obtain ⟨t, hung, hreb⟩ := frame_lesser (d := d) (h := m) dir hp hbelow hg hbal
            hgi.balanced (by omega) (by omega) (by omega)
          refine ⟨t, hung, ?_⟩
          rcases hres with ⟨habs, hu, hst⟩ | hd
          · exact Or.inl ⟨habs.lesser hlt, hu.lesser hreb hlg hgl, hst⟩
          · exact Or.inr (hd.lesser hreb hlt hlg hgl)
      · have hgt : rimTreeCompare c d.key > 0 := by omega
        by_cases hnull : g = null
        · subst hnull
          simp only [hzero, hlt, hgt, isNull, Bool.true_eq_false, and_false, false_and, ↓reduceIte]
          exact ⟨node d h l null, hpt ▸ hung_self p dir, Or.inl ⟨absent_null.greater hgt, ht.unchanged, trivial⟩⟩
        · simp only [hzero, hlt, hgt, isNull_false_iff.mpr hnull, false_and, and_self, ↓reduceIte]
          obtain ⟨g', ⟨m, hm⟩, hres⟩ := ihg hgi hnull (by omega) (node d h l g) .greater
            TreeNode.noConfusion rfl
          have hg' : g'.CachedBelow ∧ g'.Balanced ∧ g.depth ≤ g'.depth + 1 ∧
              g'.depth ≤ g.depth := by
            rcases hres with ⟨-, hu, -⟩ | hd
            · exact ⟨hu.below, hu.balanced, by have := hu.depth; omega, hu.depth.le⟩
            · exact ⟨hd.below, hd.balanced, hd.lower, hd.upper⟩
          obtain ⟨hbelow, hbal, hlow, hup⟩ := hg'
          rw [hm]
          obtain ⟨t, hung, hreb⟩ := frame_greater (d := d) (h := m) dir hp hl hbelow
            hli.balanced hbal (by omega) (by omega) (by omega)
          refine ⟨t, hung, ?_⟩
          rcases hres with ⟨habs, hu, hst⟩ | hd
          · exact Or.inl ⟨habs.greater hgt, hu.greater hreb hlg hgl, hst⟩
          · exact Or.inr (hd.greater hreb hgt hlg hgl)

end Delete

end RimStone
