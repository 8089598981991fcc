import RimStone.Laws.Tree.Balance
import RimStone.Laws.Tree.Order

/-!
# Insertion

`rim_tree_insert` either finds the key, and leaves the nodes as they were, or
puts a new leaf beside a node that is its neighbour in the order of keys. The
statement is about a subtree under any parent, and the induction is on the
subtree; each frame mends and balances by the frame lemmas of `Balance`.

The place of the leaf is its place in the order only when the comparison is an
order on the keys, which string keys that hold nulls would spoil. What the
insertion does to the nodes and beside them does not depend on it, so the order
is a conclusion of its own (`KeysOrdered`).
-/

namespace RimStone

open TreeNode

/-- The nodes of `l` stand in the order of their keys. -/
def KeysSorted (t : KeyType) (l : List NodeData) : Prop :=
  l.Pairwise fun a b => t.rank a.key.bytes < t.rank b.key.bytes

/-- They are all keys of the tree's type, so that this is the order of the
comparison. -/
structure KeysOrdered (kt : KeyType) (l : List NodeData) : Prop where
  ok : ∀ d ∈ l, kt.Ok d.key.bytes
  sorted : KeysSorted kt l

/-- A subtree between operations: its own height may be stale, those below are
right; it is balanced; its nodes hold keys. -/
structure SubtreeInv (t : TreeNode) : Prop where
  below : t.CachedBelow
  balanced : t.Balanced
  present : ∀ d ∈ t.inorder, d.keyPresent = true

section Parts

variable {kt : KeyType} {d : NodeData} {h : Nat} {l g : TreeNode}

/-- What the invariant of a node says of its parts. -/
theorem SubtreeInv.parts (ht : SubtreeInv (node d h l g)) :
    (l.Cached ∧ SubtreeInv l) ∧ (g.Cached ∧ SubtreeInv g) ∧ d.keyPresent = true ∧
      l.depth ≤ g.depth + 1 ∧ g.depth ≤ l.depth + 1 := by
  obtain ⟨⟨hl, hg⟩, ⟨hbl, hbg, hlg, hgl⟩, hpres⟩ := ht
  have hmem : ∀ e, e ∈ (node d h l g).inorder ↔ e ∈ l.inorder ∨ e = d ∨ e ∈ g.inorder := by
    intro e
    simp [inorder]
  refine ⟨⟨hl, hl.below, hbl, fun e he => ?_⟩, ⟨hg, hg.below, hbg, fun e he => ?_⟩, ?_, hlg, hgl⟩
  · exact hpres e ((hmem e).mpr (Or.inl he))
  · exact hpres e ((hmem e).mpr (Or.inr (Or.inr he)))
  · exact hpres d ((hmem d).mpr (Or.inr (Or.inl rfl)))

/-- What the order of a node's keys says of its parts. -/
theorem KeysOrdered.parts (ho : KeysOrdered kt (node d h l g).inorder) :
    KeysOrdered kt l.inorder ∧ KeysOrdered kt g.inorder ∧ kt.Ok d.key.bytes ∧
      (∀ e ∈ l.inorder, kt.rank e.key.bytes < kt.rank d.key.bytes) ∧
      (∀ e ∈ g.inorder, kt.rank d.key.bytes < kt.rank e.key.bytes) := by
  obtain ⟨hok, hsort⟩ := ho
  have hmem : ∀ e, e ∈ (node d h l g).inorder ↔ e ∈ l.inorder ∨ e = d ∨ e ∈ g.inorder := by
    intro e
    simp [inorder]
  obtain ⟨hsl, hsd, hld⟩ := List.pairwise_append.mp hsort
  obtain ⟨hdg, hsg⟩ := List.pairwise_cons.mp hsd
  refine ⟨⟨fun e he => ?_, hsl⟩, ⟨fun e he => ?_, hsg⟩, ?_,
    fun e he => hld e he d (List.mem_cons_self ..), hdg⟩
  · exact hok e ((hmem e).mpr (Or.inl he))
  · exact hok e ((hmem e).mpr (Or.inr (Or.inr he)))
  · exact hok d ((hmem d).mpr (Or.inr (Or.inl rfl)))

end Parts

section Path

variable {c : TreeCtx} {d : NodeData} {h : Nat} {l g : TreeNode}

theorem rimTreeSearchLoop_here (hzero : rimTreeCompare c d.key = 0) :
    rimTreeSearchLoop c (node d h l g) = some d.addr := by
  unfold rimTreeSearchLoop
  rw [if_pos hzero]

theorem rimTreeSearchLoop_lesser (hlt : rimTreeCompare c d.key < 0) :
    rimTreeSearchLoop c (node d h l g) = rimTreeSearchLoop c l := by
  rw [rimTreeSearchLoop]
  simp only [if_neg (Int.ne_of_lt hlt), hlt, ↓reduceIte]

theorem rimTreeSearchLoop_greater (hgt : rimTreeCompare c d.key > 0) :
    rimTreeSearchLoop c (node d h l g) = rimTreeSearchLoop c g := by
  rw [rimTreeSearchLoop]
  simp only [if_neg (Int.ne_of_gt hgt), Int.not_lt.mpr (Int.le_of_lt hgt), ↓reduceIte]

end Path

/-- The same nodes in the same order, as high as they were. -/
structure Unchanged (t t' : TreeNode) : Prop where
  below : t'.CachedBelow
  balanced : t'.Balanced
  inorder : t'.inorder = t.inorder
  depth : t'.depth = t.depth

variable {t : TreeNode} {I J : List NodeData}

theorem SubtreeInv.unchanged (ht : SubtreeInv t) : Unchanged t t :=
  ⟨ht.below, ht.balanced, rfl, rfl⟩

theorem Unchanged.ne_null {t' : TreeNode} (h : Unchanged t t') (hne : t ≠ null) : t' ≠ null :=
  ne_null_of_depth_pos (h.depth ▸ depth_pos hne)

theorem Unchanged.subtreeInv {t' : TreeNode} (h : Unchanged t t') (ht : SubtreeInv t) : SubtreeInv t' :=
  ⟨h.below, h.balanced, h.inorder ▸ ht.present⟩

/-- The node at `a` is the last of `I` or the first of `J`: the neighbour of what
comes between them, on the given side. -/
inductive Beside : List NodeData → List NodeData → Addr → Dir → Prop
  | before (I : List NodeData) (e : NodeData) (J : List NodeData) : Beside I (e :: J) e.addr .lesser
  | after (I : List NodeData) (e : NodeData) (J : List NodeData) :
      Beside (I ++ [e]) J e.addr .greater

theorem Beside.append_right {a : Addr} {side : Dir} (h : Beside I J a side) (K : List NodeData) :
    Beside I (J ++ K) a side := by
  cases h with
  | before I e J => exact .before I e (J ++ K)
  | after I e J => exact .after I e (J ++ K)

theorem Beside.append_left {a : Addr} {side : Dir} (h : Beside I J a side) (K : List NodeData) :
    Beside (K ++ I) J a side := by
  cases h with
  | before I e J => exact .before (K ++ I) e J
  | after I e J =>
    rw [← List.append_assoc]
    exact .after (K ++ I) e J

def newNode (c : TreeCtx) (fresh data : Addr) : NodeData where
  addr := fresh
  key := c.key
  data := data
  keyPresent := true

/-- The key of the operation belongs between `I` and `J`. -/
def Between (c : TreeCtx) (I J : List NodeData) : Prop :=
  (∀ e ∈ I, c.keyType.rank e.key.bytes < c.keyType.rank c.key.bytes) ∧
    ∀ e ∈ J, c.keyType.rank c.key.bytes < c.keyType.rank e.key.bytes

/-- `t'` is `t` with a new leaf, in its place in the order if there is one, and
`st'` is what threading it in beside its neighbour makes of `st`. -/
structure Inserted (c : TreeCtx) (fresh data : Addr) (t : TreeNode) (st : TreeSt)
    (t' : TreeNode) (st' : TreeSt) : Prop where
  place : ∃ I J a side, t.inorder = I ++ J ∧ t'.inorder = I ++ newNode c fresh data :: J ∧
    (c.Valid → KeysOrdered c.keyType t.inorder → Between c I J) ∧
    Beside I J a side ∧ st' = (rimTreeInsertLeaf c fresh data a side st).2
  below : t'.CachedBelow
  balanced : t'.Balanced
  lower : t.depth ≤ t'.depth
  upper : t'.depth ≤ t.depth + 1

section Insert

variable {c : TreeCtx} {fresh data : Addr} {d : NodeData} {h : Nat} {l g : TreeNode}

theorem leaf_cached (d : NodeData) : (node d 1 null null).Cached := ⟨rfl, trivial, trivial⟩

theorem leaf_balanced (d : NodeData) : (node d 1 null null).Balanced := by
  refine ⟨trivial, trivial, ?_, ?_⟩ <;> exact Nat.zero_le _

/-- A frame over a lesser child that was left alone leaves its node alone. -/
theorem Unchanged.lesser {l' : TreeNode} (hl : Unchanged l l') (ht : Rebalanced l' g d t) (hlg : l.depth ≤ g.depth + 1)
    (hgl : g.depth ≤ l.depth + 1) :
    Unchanged (node d h l g) t := by
  have hlevel := ht.level
  rw [hl.depth] at hlevel
  refine ⟨ht.below, ht.balanced, ?_, hlevel hlg hgl⟩
  rw [ht.inorder, hl.inorder]
  rfl

theorem Unchanged.greater {g' : TreeNode} (hg : Unchanged g g') (ht : Rebalanced l g' d t)
    (hlg : l.depth ≤ g.depth + 1) (hgl : g.depth ≤ l.depth + 1) :
    Unchanged (node d h l g) t := by
  have hlevel := ht.level
  rw [hg.depth] at hlevel
  refine ⟨ht.below, ht.balanced, ?_, hlevel hlg hgl⟩
  rw [ht.inorder, hg.inorder]
  rfl

/-- The order seen from a node: the key is below it and belongs in its lesser
child's order. -/
theorem Between.lesser (hlt : rimTreeCompare c d.key < 0)
    (hb : c.Valid → KeysOrdered c.keyType l.inorder → Between c I J) (hc : c.Valid)
      (ho : KeysOrdered c.keyType (node d h l g).inorder) : Between c I (J ++ d :: g.inorder) := by
  obtain ⟨hol, -, hok, -, hdg⟩ := ho.parts
  have hkd := (rimTreeCompare_neg hc hok).mp hlt
  obtain ⟨hI, hJ⟩ := hb hc hol
  refine ⟨hI, fun e he => ?_⟩
  rcases List.mem_append.mp he with he | he
  · exact hJ e he
  · rcases List.mem_cons.mp he with rfl | he
    · exact hkd
    · exact lt_trans hkd (hdg e he)

theorem Between.greater (hgt : rimTreeCompare c d.key > 0)
    (hb : c.Valid → KeysOrdered c.keyType g.inorder → Between c I J) (hc : c.Valid)
      (ho : KeysOrdered c.keyType (node d h l g).inorder) : Between c (l.inorder ++ d :: I) J := by
  obtain ⟨-, hog, hok, hld, -⟩ := ho.parts
  have hdk := (rimTreeCompare_pos hc hok).mp hgt
  obtain ⟨hI, hJ⟩ := hb hc hog
  refine ⟨fun e he => ?_, hJ⟩
  rcases List.mem_append.mp he with he | he
  · exact lt_trans (hld e he) hdk
  · rcases List.mem_cons.mp he with rfl | he
    · exact hdk
    · exact hI e he

theorem between_nil (_ : c.Valid) (_ : KeysOrdered c.keyType null.inorder) : Between c [] [] :=
  ⟨fun _ he => absurd he List.not_mem_nil, fun _ he => absurd he List.not_mem_nil⟩

variable {st : TreeSt}

/-- A frame over a lesser child that took the new leaf. -/
theorem Inserted.lesser {l' : TreeNode} {st' : TreeSt} (hl : Inserted c fresh data l st l' st')
    (ht : Rebalanced l' g d t) (hlt : rimTreeCompare c d.key < 0) (hlg : l.depth ≤ g.depth + 1)
      (hgl : g.depth ≤ l.depth + 1) :
    Inserted c fresh data (node d h l g) st t st' := by
  obtain ⟨I, J, a, side, hin, hin', hbetween, hb, hst⟩ := hl.place
  have hlow := hl.lower
  have hup := hl.upper
  have htlow := ht.lower
  have htup := ht.upper
  refine ⟨⟨I, J ++ d :: g.inorder, a, side, ?_, ?_, Between.lesser hlt hbetween,
    hb.append_right _, hst⟩, ht.below, ht.balanced, ?_, ?_⟩
  · simp only [inorder, hin, List.append_assoc]
  · rw [ht.inorder, hin']
    simp
  · have hlevel := ht.level
    simp only [depth]
    omega
  · simp only [depth]
    omega

theorem Inserted.greater {g' : TreeNode} {st' : TreeSt} (hg : Inserted c fresh data g st g' st')
    (ht : Rebalanced l g' d t) (hgt : rimTreeCompare c d.key > 0) (hlg : l.depth ≤ g.depth + 1)
      (hgl : g.depth ≤ l.depth + 1) :
    Inserted c fresh data (node d h l g) st t st' := by
  obtain ⟨I, J, a, side, hin, hin', hbetween, hb, hst⟩ := hg.place
  have hlow := hg.lower
  have hup := hg.upper
  have htlow := ht.lower
  have htup := ht.upper
  refine ⟨⟨l.inorder ++ d :: I, J, a, side, ?_, ?_, Between.greater hgt hbetween, ?_, hst⟩,
    ht.below, ht.balanced, ?_, ?_⟩
  · simp only [inorder, hin, List.append_assoc, List.cons_append]
  · rw [ht.inorder, hin']
    simp
  · have hsplit := hb.append_left (l.inorder ++ [d])
    rwa [List.append_assoc, List.singleton_append] at hsplit
  · have hlevel := ht.level
    simp only [depth]
    omega
  · simp only [depth]
    omega

/-- A new leaf directly below the node, on the lesser side. -/
theorem inserted_leaf_lesser (ht : SubtreeInv (node d h null g)) (hlt : rimTreeCompare c d.key < 0) :
    Inserted c fresh data (node d h null g) st (node d h (node (newNode c fresh data) 1 null null) g)
      (rimTreeInsertLeaf c fresh data d.addr .lesser st).2 := by
  obtain ⟨-, ⟨hg, hgi⟩, -, -, hgl⟩ := ht.parts
  refine ⟨⟨[], d :: g.inorder, d.addr, .lesser, rfl, rfl, Between.lesser hlt between_nil,
    .before [] d g.inorder, rfl⟩, ⟨leaf_cached _, hg⟩,
    ⟨leaf_balanced _, hgi.balanced, ?_, ?_⟩, ?_, ?_⟩
  all_goals
    simp only [depth] at hgl ⊢
    omega

theorem inserted_leaf_greater (ht : SubtreeInv (node d h l null)) (hgt : rimTreeCompare c d.key > 0) :
    Inserted c fresh data (node d h l null) st (node d h l (node (newNode c fresh data) 1 null null))
      (rimTreeInsertLeaf c fresh data d.addr .greater st).2 := by
  obtain ⟨⟨hl, hli⟩, -, -, hlg, -⟩ := ht.parts
  refine ⟨⟨l.inorder ++ [d], [], d.addr, .greater, by simp [inorder], by simp [inorder],
    Between.greater hgt between_nil, .after l.inorder d [], rfl⟩, ⟨hl, leaf_cached _⟩,
    ⟨hli.balanced, leaf_balanced _, ?_, ?_⟩, ?_, ?_⟩
  all_goals
    simp only [depth] at hlg ⊢
    omega

variable (fresh data) in
/-- Insertion below a subtree: the key is there already and nothing changes, or a
leaf takes its place. -/
theorem rimTreeInsert_spec (ht : SubtreeInv t) (hne : t ≠ null) (hlim : t.depth + 1 < 2 ^ 7) (p : TreeNode) (dir : Dir)
    (st : TreeSt) (hp : p ≠ null) (hpt : p.child dir = t) :
    ∃ t', Hung p dir t' (rimTreeInsert c fresh data p dir t st).1 ∧
      (((∃ e ∈ t.inorder, rimTreeCompare c e.key = 0 ∧ rimTreeSearchLoop c t = some e.addr) ∧
          Unchanged t t' ∧
          (rimTreeInsert c fresh data p dir t st).2 = { st with status := .errExist }) ∨
        Inserted c fresh data t st t' (rimTreeInsert c fresh data p dir t st).2) := by
  induction t generalizing p dir with
  | null => exact absurd rfl hne
  | node d h l g ihl ihg =>
    obtain ⟨⟨hl, hli⟩, ⟨hg, hgi⟩, hpres, hlg, hgl⟩ := ht.parts
    have hdepth : (node d h l g).depth = max l.depth g.depth + 1 := rfl
    unfold rimTreeInsert
    simp only [hpres, Bool.true_eq_false, ↓reduceIte]
    by_cases hlt : rimTreeCompare c d.key < 0
    · -- the key belongs on the lesser side
      simp only [hlt, ↓reduceIte]
      by_cases hnull : l = null
      · subst hnull
        exact ⟨_, hung_setChild .., Or.inr (inserted_leaf_lesser ht hlt)⟩
      · simp only [isNull_false_iff.mpr hnull, Bool.false_eq_true, ↓reduceIte]
        obtain ⟨l', ⟨m, hm⟩, hres⟩ := ihl hli hnull (by omega) (node d h l g) .lesser
          TreeNode.noConfusion rfl
        have hl' : l'.CachedBelow ∧ l'.Balanced ∧ l.depth ≤ l'.depth ∧ l'.depth ≤ l.depth + 1 := by
          rcases hres with ⟨-, hu, -⟩ | hi
          · exact ⟨hu.below, hu.balanced, hu.depth.ge, by have := hu.depth; omega⟩
          · exact ⟨hi.below, hi.balanced, hi.lower, hi.upper⟩
        obtain ⟨hbelow, hbal, hlow, hup⟩ := hl'
        have hfit : l'.depth ≤ g.depth + 2 ∧ g.depth ≤ l'.depth + 2 ∧
            max l'.depth g.depth + 1 < 2 ^ 7 := by
          clear hres
          omega
        obtain ⟨hlg', hgl', hlim'⟩ := hfit
        have hnull' : l' ≠ null := ne_null_of_depth_pos (lt_of_lt_of_le (depth_pos hnull) hlow)
        rw [hm]
        have hstep : rimTreeBalance (node d m l' g) .lesser = balanceChild (node d m l' g) .lesser :=
          (balanceChild_of_ne (node d m l' g) .lesser hnull').symm
        obtain ⟨t, hung, hreb⟩ := frame_lesser (d := d) (h := m) dir hp hbelow hg hbal
          hgi.balanced hlim' hlg' hgl'
        refine ⟨t, ?_, ?_⟩
        · exact hstep ▸ hung
        · rcases hres with ⟨⟨e, he, heq, hfound⟩, hu, hst⟩ | hi
          · exact Or.inl ⟨⟨e, by simp [inorder, he], heq,
              (rimTreeSearchLoop_lesser hlt).trans hfound⟩, hu.lesser hreb hlg hgl, hst⟩
          · exact Or.inr (hi.lesser hreb hlt hlg hgl)
    · by_cases hzero : rimTreeCompare c d.key = 0
      · -- the key is here
        simp only [hzero, lt_irrefl, ↓reduceIte]
        exact ⟨node d h l g, hpt ▸ hung_self p dir,
          Or.inl ⟨⟨d, by simp [inorder], hzero, rimTreeSearchLoop_here hzero⟩, ht.unchanged,
            trivial⟩⟩
      · have hgt : rimTreeCompare c d.key > 0 := by omega
        simp only [hlt, hzero, ↓reduceIte]
        by_cases hnull : g = null
        · subst hnull
          exact ⟨_, hung_setChild .., Or.inr (inserted_leaf_greater ht hgt)⟩
        · simp only [isNull_false_iff.mpr hnull, Bool.false_eq_true, ↓reduceIte]
          obtain ⟨g', ⟨m, hm⟩, hres⟩ := ihg hgi hnull (by omega) (node d h l g)
            .greater TreeNode.noConfusion rfl
          have hg' : g'.CachedBelow ∧ g'.Balanced ∧ g.depth ≤ g'.depth ∧
              g'.depth ≤ g.depth + 1 := by
            rcases hres with ⟨-, hu, -⟩ | hi
            · exact ⟨hu.below, hu.balanced, hu.depth.ge, by have := hu.depth; omega⟩
            · exact ⟨hi.below, hi.balanced, hi.lower, hi.upper⟩
          obtain ⟨hbelow, hbal, hlow, hup⟩ := hg'
          have hfit : l.depth ≤ g'.depth + 2 ∧ g'.depth ≤ l.depth + 2 ∧
              max l.depth g'.depth + 1 < 2 ^ 7 := by
            clear hres
            omega
          obtain ⟨hlg', hgl', hlim'⟩ := hfit
          have hnull' : g' ≠ null := ne_null_of_depth_pos (lt_of_lt_of_le (depth_pos hnull) hlow)
          rw [hm]
          have hstep : rimTreeBalance (node d m l g') .greater =
              balanceChild (node d m l g') .greater :=
            (balanceChild_of_ne (node d m l g') .greater hnull').symm
          obtain ⟨t, hung, hreb⟩ := frame_greater (d := d) (h := m) dir hp hl hbelow
            hli.balanced hbal hlim' hlg' hgl'
          refine ⟨t, ?_, ?_⟩
          · exact hstep ▸ hung
          · rcases hres with ⟨⟨e, he, heq, hfound⟩, hu, hst⟩ | hi
            · exact Or.inl ⟨⟨e, by simp [inorder, he], heq,
                (rimTreeSearchLoop_greater hgt).trans hfound⟩, hu.greater hreb hlg hgl, hst⟩
            · exact Or.inr (hi.greater hreb hgt hlg hgl)

end Insert

end RimStone
