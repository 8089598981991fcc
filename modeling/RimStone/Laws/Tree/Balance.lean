import RimStone.Tree.Tree
import Mathlib.Data.Nat.Fib.Basic
import Mathlib.Tactic.SplitIfs

/-!
# Heights and rotations

A rotation recomputes the height of the node it lowers and of the parent, not
of the node it raises, so the cached heights are not all right all the time.
What holds between the recursive calls is weaker: the heights below a subtree's
root are right (`CachedBelow`), its own may be stale. `rim_tree_balance` first
recomputes the height of the node it is given, so a stale root is mended by the
next call on it; that is what the two balancing steps of each frame are for
(`balanceChild_mend` and `rimTreeBalance_hung`).

A function that edits the tree below a parent gives back the parent with another
child and possibly another height: `Hung`.
-/

namespace RimStone

namespace TreeNode

def depth : TreeNode → Nat
  | null => 0
  | node _ _ l g => max l.depth g.depth + 1

def Cached : TreeNode → Prop
  | null => True
  | node d h l g => h = (node d h l g).depth ∧ l.Cached ∧ g.Cached

def CachedBelow : TreeNode → Prop
  | null => True
  | node _ _ l g => l.Cached ∧ g.Cached

/-- At every node the heights of the two children differ by at most one. -/
def Balanced : TreeNode → Prop
  | null => True
  | node _ _ l g => l.Balanced ∧ g.Balanced ∧ l.depth ≤ g.depth + 1 ∧ g.depth ≤ l.depth + 1

theorem Cached.below {t : TreeNode} (h : t.Cached) : t.CachedBelow := by
  cases t with
  | null => trivial
  | node d n l g => exact h.2

theorem Cached.height_eq {t : TreeNode} (h : t.Cached) : t.height = t.depth := by
  cases t with
  | null => rfl
  | node d n l g => exact h.1

@[simp] theorem isNull_iff {t : TreeNode} : t.isNull = true ↔ t = null := by
  cases t <;> simp [isNull]

theorem isNull_false_iff {t : TreeNode} : t.isNull = false ↔ t ≠ null := by
  cases t <;> simp [isNull]

theorem exists_node {t : TreeNode} (h : t ≠ null) : ∃ d n l g, t = node d n l g := by
  cases t with
  | null => exact absurd rfl h
  | node d n l g => exact ⟨d, n, l, g, rfl⟩

theorem depth_pos {t : TreeNode} (h : t ≠ null) : 0 < t.depth := by
  obtain ⟨d, n, l, g, rfl⟩ := exists_node h
  exact Nat.succ_pos _

theorem ne_null_of_depth_pos {t : TreeNode} (h : 0 < t.depth) : t ≠ null := by
  rintro rfl
  exact absurd h (Nat.lt_irrefl 0)

@[simp] theorem child_setChild {p t : TreeNode} (hp : p ≠ null) (dir : Dir) : (p.setChild dir t).child dir = t := by
  obtain ⟨d, n, l, g, rfl⟩ := exists_node hp
  cases dir <;> rfl

@[simp] theorem setChild_setChild (p t u : TreeNode) (dir : Dir) :
    (p.setChild dir t).setChild dir u = p.setChild dir u := by
  cases p <;> cases dir <;> rfl

@[simp] theorem setChild_setHeight (p t : TreeNode) (n : Nat) (dir : Dir) :
    (p.setChild dir t).setHeight n = (p.setHeight n).setChild dir t := by
  cases p <;> cases dir <;> rfl

@[simp] theorem setHeight_setHeight (p : TreeNode) (m n : Nat) : (p.setHeight m).setHeight n = p.setHeight n := by
  cases p <;> rfl

@[simp] theorem setHeight_height (p : TreeNode) : p.setHeight p.height = p := by
  cases p <;> rfl

theorem setHeight_ne_null {p : TreeNode} (hp : p ≠ null) (n : Nat) : p.setHeight n ≠ null := by
  obtain ⟨d, m, l, g, rfl⟩ := exists_node hp
  exact TreeNode.noConfusion

theorem setChild_ne_null {p : TreeNode} (hp : p ≠ null) (dir : Dir) (t : TreeNode) : p.setChild dir t ≠ null := by
  obtain ⟨d, m, l, g, rfl⟩ := exists_node hp
  cases dir <;> exact TreeNode.noConfusion

/-- `p'` is `p` with the child `t`, and possibly with another height. -/
def Hung (p : TreeNode) (dir : Dir) (t p' : TreeNode) : Prop :=
  ∃ n, p' = (p.setHeight n).setChild dir t

theorem hung_setChild (p : TreeNode) (dir : Dir) (t : TreeNode) : Hung p dir t (p.setChild dir t) :=
  ⟨p.height, by rw [setHeight_height]⟩

theorem Hung.trans {p p' p'' : TreeNode} {dir : Dir} {t u : TreeNode} (h : Hung p dir t p')
    (h' : Hung p' dir u p'') : Hung p dir u p'' := by
  obtain ⟨m, rfl⟩ := h
  obtain ⟨n, rfl⟩ := h'
  exact ⟨n, by simp⟩

/-- A parent that was left alone still has its child. -/
theorem hung_self (p : TreeNode) (dir : Dir) : Hung p dir (p.child dir) p :=
  ⟨p.height, by cases p <;> cases dir <;> rfl⟩

theorem Hung.child {p p' t : TreeNode} {dir : Dir} (h : Hung p dir t p') (hp : p ≠ null) : p'.child dir = t := by
  obtain ⟨n, rfl⟩ := h
  exact child_setChild (setHeight_ne_null hp n) dir

end TreeNode

open TreeNode

/-! ## One height -/

/-- Over right heights, the recomputed height is right and the factor is the
difference of the real heights. -/
theorem rimTreeHeight_cached {d : NodeData} {h : Nat} {l g : TreeNode} (hl : l.Cached)
    (hg : g.Cached) (hlim : max l.depth g.depth + 1 < 2 ^ 7) :
    rimTreeHeight (node d h l g) = (node d (max l.depth g.depth + 1) l g, (l.depth : Int) - g.depth) := by
  unfold rimTreeHeight
  simp only [hl.height_eq, hg.height_eq]
  have hmax : (if l.depth > g.depth then l.depth + 1 else g.depth + 1) =
      max l.depth g.depth + 1 := by
    split_ifs <;> omega
  rw [hmax, Nat.mod_eq_of_lt hlim]

/-- Recomputing the height of a parent leaves its child hanging. -/
theorem hung_rimTreeHeight (p : TreeNode) (dir : Dir) (t : TreeNode) :
    Hung p dir t (rimTreeHeight (p.setChild dir t)).1 := by
  cases p with
  | null => exact ⟨0, by cases dir <;> rfl⟩
  | node d h l g =>
    cases dir with
    | lesser => exact ⟨_, rfl⟩
    | greater => exact ⟨_, rfl⟩

/-! ## One rotation -/

section Rotate

variable {p : TreeNode} (dir : Dir) {d e : NodeData} {h n : Nat} {a b c : TreeNode}

/-- A right rotation under `p`, of a node whose lower parts have right heights:
the lowered node's height is right, the raised one's is stale. -/
theorem rimTreeRotateRight_hung (ht : p.child dir = node d h (node e n a b) c) (hb : b.Cached) (hc : c.Cached)
    (hlim : max b.depth c.depth + 1 < 2 ^ 7) :
    Hung p dir (node e n a (node d (max b.depth c.depth + 1) b c)) (rimTreeRotateRight p dir) := by
  unfold rimTreeRotateRight
  rw [ht]
  simp only [rimTreeHeight_cached hb hc hlim]
  exact hung_rimTreeHeight p dir _

theorem rimTreeRotateLeft_hung (ht : p.child dir = node d h a (node e n b c)) (ha : a.Cached) (hb : b.Cached)
    (hlim : max a.depth b.depth + 1 < 2 ^ 7) :
    Hung p dir (node e n (node d (max a.depth b.depth + 1) a b) c) (rimTreeRotateLeft p dir) := by
  unfold rimTreeRotateLeft
  rw [ht]
  simp only [rimTreeHeight_cached ha hb hlim]
  exact hung_rimTreeHeight p dir _

end Rotate

/-! ## Balancing -/

/-- What balancing a subtree gives: the same nodes in the same order, balanced,
with right heights below its root, and no higher than before. -/
structure Rebalanced (l g : TreeNode) (d : NodeData) (t : TreeNode) : Prop where
  below : t.CachedBelow
  balanced : t.Balanced
  inorder : t.inorder = l.inorder ++ d :: g.inorder
  ne_null : t ≠ null
  lower : max l.depth g.depth ≤ t.depth
  upper : t.depth ≤ max l.depth g.depth + 1
  level : l.depth ≤ g.depth + 1 → g.depth ≤ l.depth + 1 → t.depth = max l.depth g.depth + 1

section Balance

variable {p : TreeNode} {dir : Dir} {d : NodeData} {h : Nat} {l g : TreeNode}

/-- A node is raised above another one, whose height is recomputed once more. -/
theorem raised_right {a b c : TreeNode} {e : NodeData} {n : Nat} (hp : p ≠ null) (hb : b.Cached) (hc : c.Cached)
    (hlim : max b.depth c.depth + 1 < 2 ^ 7) {p' : TreeNode}
    (hp' : p' = rimTreeRotateRight (p.setChild dir (node d h (node e n a b) c)) dir) :
    Hung p dir (node e n a (node d (max b.depth c.depth + 1) b c))
      (p'.setChild dir ((p'.child dir).setChild .greater (rimTreeHeight ((p'.child dir).child .greater)).1)) := by
  have hung := (hung_setChild p dir (node d h (node e n a b) c)).trans
    (rimTreeRotateRight_hung dir (child_setChild hp dir) hb hc hlim)
  rw [← hp'] at hung
  rw [hung.child hp]
  simp only [child, setChild, rimTreeHeight_cached hb hc hlim]
  exact hung.trans (hung_setChild _ _ _)

theorem raised_left {a b c : TreeNode} {e : NodeData} {n : Nat} (hp : p ≠ null) (ha : a.Cached) (hb : b.Cached)
    (hlim : max a.depth b.depth + 1 < 2 ^ 7) {p' : TreeNode}
    (hp' : p' = rimTreeRotateLeft (p.setChild dir (node d h a (node e n b c))) dir) :
    Hung p dir (node e n (node d (max a.depth b.depth + 1) a b) c)
      (p'.setChild dir ((p'.child dir).setChild .lesser (rimTreeHeight ((p'.child dir).child .lesser)).1)) := by
  have hung := (hung_setChild p dir (node d h a (node e n b c))).trans
    (rimTreeRotateLeft_hung dir (child_setChild hp dir) ha hb hlim)
  rw [← hp'] at hung
  rw [hung.child hp]
  simp only [child, setChild, rimTreeHeight_cached ha hb hlim]
  exact hung.trans (hung_setChild _ _ _)

/-- A balanced node is given its height and nothing else. -/
theorem rimTreeBalance_level (ht : p.child dir = node d h l g) (hl : l.Cached) (hg : g.Cached)
    (hlim : max l.depth g.depth + 1 < 2 ^ 7) (hlg : l.depth ≤ g.depth + 1)
    (hgl : g.depth ≤ l.depth + 1) :
    rimTreeBalance p dir = p.setChild dir (node d (max l.depth g.depth + 1) l g) := by
  unfold rimTreeBalance
  rw [ht, rimTreeHeight_cached hl hg hlim]
  have h1 : ¬ ((l.depth : Int) - g.depth ≥ 2) := by omega
  have h2 : ¬ ((l.depth : Int) - g.depth ≤ -2) := by omega
  simp only [h1, h2, ↓reduceIte]

/-- A node whose lesser side is too high is rotated to the right, after a left
rotation of that side when its greater side is the higher one. -/
theorem rimTreeBalance_right (hp : p ≠ null) (ht : p.child dir = node d h l g) (hl : l.Cached)
    (hg : g.Cached) (hbl : l.Balanced) (hbg : g.Balanced)
    (hlim : max l.depth g.depth + 1 < 2 ^ 7) (hlg : l.depth = g.depth + 2) :
    ∃ t, Hung p dir t (rimTreeBalance p dir) ∧ Rebalanced l g d t := by
  have hfactor : (l.depth : Int) - g.depth ≥ 2 := by omega
  have hheight := rimTreeHeight_cached (d := d) (h := h) hl hg hlim
  have hne : l ≠ null := by
    rintro rfl
    simp [depth] at hlg
  obtain ⟨e, n, a, b, rfl⟩ := exists_node hne
  obtain ⟨-, ha, hb⟩ := hl
  obtain ⟨hba, hbb, hab₁, hab₂⟩ := hbl
  unfold rimTreeBalance
  rw [ht, hheight]
  simp only [hfactor, ↓reduceIte, child, setChild_setChild, hb.height_eq, ha.height_eq]
  simp only [depth] at hlim hlg
  by_cases hinner : b.depth > a.depth
  · -- the double rotation: the greater side of `l` is raised above both
    have hnb : b ≠ null := by
      rintro rfl
      simp [depth] at hinner
    obtain ⟨f, k, b₁, b₂, rfl⟩ := exists_node hnb
    obtain ⟨-, hb₁, hb₂⟩ := hb
    obtain ⟨hbb₁, hbb₂, hbb₃, hbb₄⟩ := hbb
    simp only [depth] at hlim hlg hinner hab₁ hab₂
    simp only [depth, hinner, ↓reduceIte]
    obtain ⟨m, hm⟩ := rimTreeRotateLeft_hung .lesser (p := node d
      (max (max a.depth (max b₁.depth b₂.depth + 1) + 1) g.depth + 1)
      (node e n a (node f k b₁ b₂)) g) rfl ha hb₁ (by omega)
    rw [hm]
    refine ⟨_, raised_right hp hb₂ hg (by omega) rfl, ?_⟩
    refine ⟨⟨⟨rfl, ha, hb₁⟩, ⟨rfl, hb₂, hg⟩⟩, ⟨⟨hba, hbb₁, ?_, ?_⟩, ⟨hbb₂, hbg, ?_, ?_⟩, ?_, ?_⟩,
      by simp [inorder], TreeNode.noConfusion, ?_, ?_, ?_⟩
    all_goals first | omega | (simp only [depth]; omega)
  · -- the single rotation: `l` is raised above the node
    simp only [hinner, ↓reduceIte]
    refine ⟨_, raised_right hp hb hg (by omega) rfl, ?_⟩
    refine ⟨⟨ha, ⟨rfl, hb, hg⟩⟩, ⟨hba, ⟨hbb, hbg, ?_, ?_⟩, ?_, ?_⟩, by simp [inorder],
      TreeNode.noConfusion, ?_, ?_, ?_⟩
    all_goals first | omega | (simp only [depth]; omega)

/-- The mirror image. -/
theorem rimTreeBalance_left (hp : p ≠ null) (ht : p.child dir = node d h l g) (hl : l.Cached)
    (hg : g.Cached) (hbl : l.Balanced) (hbg : g.Balanced)
    (hlim : max l.depth g.depth + 1 < 2 ^ 7) (hgl : g.depth = l.depth + 2) :
    ∃ t, Hung p dir t (rimTreeBalance p dir) ∧ Rebalanced l g d t := by
  have hfactor₁ : ¬ ((l.depth : Int) - g.depth ≥ 2) := by omega
  have hfactor₂ : (l.depth : Int) - g.depth ≤ -2 := by omega
  have hheight := rimTreeHeight_cached (d := d) (h := h) hl hg hlim
  have hne : g ≠ null := by
    rintro rfl
    simp [depth] at hgl
  obtain ⟨e, n, b, c, rfl⟩ := exists_node hne
  obtain ⟨-, hb, hc⟩ := hg
  obtain ⟨hbb, hbc, hbc₁, hbc₂⟩ := hbg
  unfold rimTreeBalance
  rw [ht, hheight]
  simp only [hfactor₁, hfactor₂, ↓reduceIte, child, setChild_setChild, hb.height_eq, hc.height_eq]
  simp only [depth] at hlim hgl
  by_cases hinner : b.depth > c.depth
  · -- the double rotation: the lesser side of `g` is raised above both
    have hnb : b ≠ null := by
      rintro rfl
      simp [depth] at hinner
    obtain ⟨f, k, b₁, b₂, rfl⟩ := exists_node hnb
    obtain ⟨-, hb₁, hb₂⟩ := hb
    obtain ⟨hbb₁, hbb₂, hbb₃, hbb₄⟩ := hbb
    simp only [depth] at hlim hgl hinner hbc₁ hbc₂
    simp only [depth, hinner, ↓reduceIte]
    obtain ⟨m, hm⟩ := rimTreeRotateRight_hung .greater (p := node d
      (max l.depth (max (max b₁.depth b₂.depth + 1) c.depth + 1) + 1)
      l (node e n (node f k b₁ b₂) c)) rfl hb₂ hc (by omega)
    rw [hm]
    refine ⟨_, raised_left hp hl hb₁ (by omega) rfl, ?_⟩
    refine ⟨⟨⟨rfl, hl, hb₁⟩, ⟨rfl, hb₂, hc⟩⟩, ⟨⟨hbl, hbb₁, ?_, ?_⟩, ⟨hbb₂, hbc, ?_, ?_⟩, ?_, ?_⟩,
      by simp [inorder], TreeNode.noConfusion, ?_, ?_, ?_⟩
    all_goals first | omega | (simp only [depth]; omega)
  · -- the single rotation: `g` is raised above the node
    simp only [hinner, ↓reduceIte]
    refine ⟨_, raised_left hp hl hb (by omega) rfl, ?_⟩
    refine ⟨⟨⟨rfl, hl, hb⟩, hc⟩, ⟨⟨hbl, hbb, ?_, ?_⟩, hbc, ?_, ?_⟩, by simp [inorder],
      TreeNode.noConfusion, ?_, ?_, ?_⟩
    all_goals first | omega | (simp only [depth]; omega)

/-- Balancing a node whose children differ by at most two. -/
theorem rimTreeBalance_hung (hp : p ≠ null) (ht : p.child dir = node d h l g) (hl : l.Cached)
    (hg : g.Cached) (hbl : l.Balanced) (hbg : g.Balanced)
    (hlim : max l.depth g.depth + 1 < 2 ^ 7) (hlg : l.depth ≤ g.depth + 2)
    (hgl : g.depth ≤ l.depth + 2) :
    ∃ t, Hung p dir t (rimTreeBalance p dir) ∧ Rebalanced l g d t := by
  by_cases hr : l.depth = g.depth + 2
  · exact rimTreeBalance_right hp ht hl hg hbl hbg hlim hr
  · by_cases hl' : g.depth = l.depth + 2
    · exact rimTreeBalance_left hp ht hl hg hbl hbg hlim hl'
    · have h₁ : l.depth ≤ g.depth + 1 := by omega
      have h₂ : g.depth ≤ l.depth + 1 := by omega
      rw [rimTreeBalance_level ht hl hg hlim h₁ h₂]
      refine ⟨_, hung_setChild .., ⟨hl, hg⟩, ⟨hbl, hbg, h₁, h₂⟩, rfl, TreeNode.noConfusion, ?_, ?_, fun _ _ => rfl⟩
      all_goals
        simp only [depth]
        omega

/-- With the child still there, the first step is unconditional. -/
theorem balanceChild_of_ne (t : TreeNode) (side : Dir) (h : t.child side ≠ null) :
    balanceChild t side = rimTreeBalance t side := by
  unfold balanceChild
  rw [isNull_false_iff.mpr h]
  exact if_neg Bool.false_ne_true

/-- Balancing a child that is balanced, if it is still there, mends its height, and only that. -/
theorem balanceChild_mend {t : TreeNode} (side : Dir) (hb : (t.child side).CachedBelow)
    (hbal : (t.child side).Balanced) (hlim : (t.child side).depth < 2 ^ 7) :
    ∃ u, balanceChild t side = t.setChild side u ∧ u.Cached ∧ u.Balanced ∧
      u.inorder = (t.child side).inorder ∧ u.depth = (t.child side).depth := by
  by_cases hne : t.child side = null
  · refine ⟨null, ?_, trivial, trivial, by rw [hne], by rw [hne]⟩
    unfold balanceChild
    rw [if_pos (isNull_iff.mpr hne)]
    cases t <;> cases side <;> cases hne <;> rfl
  · rw [balanceChild_of_ne t side hne]
    obtain ⟨d, n, l, g, ht⟩ := exists_node hne
    rw [ht] at hb hbal hlim ⊢
    obtain ⟨hbl, hbg, hlg, hgl⟩ := hbal
    exact ⟨_, rimTreeBalance_level ht hb.1 hb.2 hlim hlg hgl, ⟨rfl, hb.1, hb.2⟩, ⟨hbl, hbg, hlg, hgl⟩, rfl, rfl⟩

/-- The two balancing steps of a frame whose lesser child was edited: the child is
mended, if it is still there, and then the node is balanced under its parent. -/
theorem frame_lesser (dir : Dir) (hp : p ≠ null) (hl : l.CachedBelow) (hg : g.Cached) (hbl : l.Balanced)
    (hbg : g.Balanced) (hlim : max l.depth g.depth + 1 < 2 ^ 7) (hlg : l.depth ≤ g.depth + 2)
    (hgl : g.depth ≤ l.depth + 2) :
    ∃ t, Hung p dir t (rimTreeBalance (p.setChild dir (balanceChild (node d h l g) .lesser)) dir) ∧
      Rebalanced l g d t := by
  obtain ⟨l', hmend, hl', hbl', hin, hdep⟩ :=
    balanceChild_mend (t := node d h l g) .lesser hl hbl (show l.depth < 2 ^ 7 by omega)
  have hin : l'.inorder = l.inorder := hin
  have hdep : l'.depth = l.depth := hdep
  rw [hmend]
  rw [← hdep] at hlim hlg hgl
  obtain ⟨t, hung, hreb⟩ := rimTreeBalance_hung (h := h) (setChild_ne_null hp dir _) (child_setChild hp dir) hl' hg
    hbl' hbg hlim hlg hgl
  exact ⟨t, (hung_setChild ..).trans hung, hreb.below, hreb.balanced, hin ▸ hreb.inorder,
    hreb.ne_null, hdep ▸ hreb.lower, hdep ▸ hreb.upper, hdep ▸ hreb.level⟩

/-- The mirror image. -/
theorem frame_greater (dir : Dir) (hp : p ≠ null) (hl : l.Cached) (hg : g.CachedBelow) (hbl : l.Balanced)
    (hbg : g.Balanced) (hlim : max l.depth g.depth + 1 < 2 ^ 7) (hlg : l.depth ≤ g.depth + 2)
    (hgl : g.depth ≤ l.depth + 2) :
    ∃ t, Hung p dir t (rimTreeBalance (p.setChild dir (balanceChild (node d h l g) .greater)) dir) ∧
      Rebalanced l g d t := by
  obtain ⟨g', hmend, hg', hbg', hin, hdep⟩ :=
    balanceChild_mend (t := node d h l g) .greater hg hbg (show g.depth < 2 ^ 7 by omega)
  have hin : g'.inorder = g.inorder := hin
  have hdep : g'.depth = g.depth := hdep
  rw [hmend]
  rw [← hdep] at hlim hlg hgl
  obtain ⟨t, hung, hreb⟩ := rimTreeBalance_hung (h := h) (setChild_ne_null hp dir _) (child_setChild hp dir) hl hg'
    hbl hbg' hlim hlg hgl
  exact ⟨t, (hung_setChild ..).trans hung, hreb.below, hreb.balanced, hin ▸ hreb.inorder,
    hreb.ne_null, hdep ▸ hreb.lower, hdep ▸ hreb.upper, hdep ▸ hreb.level⟩

end Balance

/-! ## How high a balanced tree is -/

/-- A balanced tree has at least as many nodes as the Fibonacci number of its height and two more, less one. -/
theorem TreeNode.Balanced.fib_le {t : TreeNode} (h : t.Balanced) : Nat.fib (t.depth + 2) ≤ t.inorder.length + 1 := by
  induction t with
  | null => simp [depth]
  | node d n l g ihl ihg =>
    obtain ⟨hl, hg, hlg, hgl⟩ := h
    have hsize : (node d n l g).inorder.length = l.inorder.length + g.inorder.length + 1 := by
      simp [inorder, Nat.add_assoc]
    -- the higher side, and a side that is lower by one at most
    have hsides : ∀ {u w : Nat}, u ≤ w + 1 → Nat.fib (u + 1 + 2) ≤ Nat.fib (w + 2) + Nat.fib (u + 2) := by
      intro u w huw
      rw [Nat.fib_add_two]
      exact Nat.add_le_add_right (Nat.fib_mono (by omega)) _
    have hfl := ihl hl
    have hfg := ihg hg
    rw [hsize, depth]
    rcases le_total l.depth g.depth with hle | hle
    · rw [max_eq_right hle]
      have hsum := hsides hgl
      omega
    · rw [max_eq_left hle]
      have hsum := hsides hlg
      omega

end RimStone
