import RimStone.Laws.Tree.Counts

/-!
# The keys of a tree go up

`rim_tree_compare` is no total order of keys with null bytes in them, since it takes a key and its extension by a null
for equal. But `below` is always transitive, and where a key goes down a tree is all that decides its place. So the keys
of a tree go up as the tree compares them, whatever keys were written to it (`Made.cursorTree`).

The place of a new key is said without the balancing, which moves no node in the order (`rimTreeBalance_inorder`).
-/

namespace RimStone

open TreeNode

/-! ## The comparison -/

theorem memcmp_swap (n : Nat) (r s : Bytes) : memcmp n s r = -memcmp n r s := by
  induction n generalizing r s with
  | zero => rfl
  | succ n ih =>
    cases r with
    | nil => cases s <;> rfl
    | cons a r =>
      cases s with
      | nil => rfl
      | cons b s =>
        rw [memcmp, memcmp]
        by_cases hab : a < b
        · rw [if_pos hab, if_neg (UInt8.lt_asymm hab), if_pos hab]
          rfl
        · by_cases hba : b < a
          · rw [if_pos hba, if_neg hab, if_pos hba]
          · rw [if_neg hba, if_neg hab, if_neg hab, if_neg hba, ih]

theorem memcmp_cons_neg {n : Nat} {a b : UInt8} {r s : Bytes} :
    memcmp (n + 1) (a :: r) (b :: s) < 0 ↔ a < b ∨ a = b ∧ memcmp n r s < 0 := by
  rw [memcmp]
  by_cases hab : a < b
  · rw [if_pos hab]
    exact iff_of_true (by decide) (Or.inl hab)
  · rw [if_neg hab]
    by_cases hba : b < a
    · rw [if_pos hba]
      refine iff_of_false (by decide) ?_
      rintro (h | ⟨rfl, -⟩)
      · exact hab h
      · exact hab hba
    · rw [if_neg hba]
      obtain rfl := UInt8.le_antisymm (UInt8.not_lt.mp hba) (UInt8.not_lt.mp hab)
      exact ⟨fun h => Or.inr ⟨rfl, h⟩, fun h => (h.resolve_left hab).2⟩

/-- The first differences of two comparisons give that of the third. -/
theorem memcmp_trans {n m k : Nat} {r s u : Bytes} (hrs : memcmp n r s < 0) (hsu : memcmp m s u < 0)
    (hk : min n m ≤ k) : memcmp k r u < 0 := by
  induction k generalizing n m r s u with
  | zero =>
    obtain hn | hm : n = 0 ∨ m = 0 := by omega
    · rw [hn] at hrs
      exact absurd hrs (lt_irrefl 0)
    · rw [hm] at hsu
      exact absurd hsu (lt_irrefl 0)
  | succ k ih =>
    obtain _ | n := n
    · exact absurd hrs (lt_irrefl 0)
    obtain _ | m := m
    · exact absurd hsu (lt_irrefl 0)
    obtain _ | ⟨a, r⟩ := r
    · exact absurd hrs (by cases s <;> exact lt_irrefl 0)
    obtain _ | ⟨b, s⟩ := s
    · exact absurd hrs (lt_irrefl 0)
    obtain _ | ⟨c, u⟩ := u
    · exact absurd hsu (lt_irrefl 0)
    rw [memcmp_cons_neg] at hrs hsu ⊢
    obtain hab | ⟨rfl, hrs⟩ := hrs
    · obtain hbc | ⟨rfl, -⟩ := hsu
      · exact Or.inl (UInt8.lt_trans hab hbc)
      · exact Or.inl hab
    · obtain hbc | ⟨rfl, hsu⟩ := hsu
      · exact Or.inl hbc
      · exact Or.inr ⟨rfl, ih hrs hsu (by omega)⟩

namespace RimTree

variable {t t' : RimTree} {a b c : RimStr}

/-- The two ways to compare two keys agree. -/
theorem compare_swap (t : RimTree) (a b : RimStr) :
    rimTreeCompare (t.ctx b (-1)) a = -rimTreeCompare (t.ctx a (-1)) b := by
  unfold rimTreeCompare ctx
  dsimp only
  rw [if_pos rfl, if_pos rfl]
  cases t.keyType with
  | num =>
    obtain hlt | heq | hgt := Nat.lt_trichotomy (rimMemGetLen a) (rimMemGetLen b)
    · simp only
      rw [if_neg (Nat.lt_asymm hlt), if_pos hlt, if_pos hlt]
      rfl
    · simp only [heq, lt_irrefl, if_false]
      exact memcmp_swap _ _ _
    · simp only
      rw [if_pos hgt, if_neg (Nat.lt_asymm hgt), if_pos hgt]
  | str =>
    simp only
    rw [Nat.min_comm]
    exact memcmp_swap _ _ _

theorem compare_self (t : RimTree) (a : RimStr) : rimTreeCompare (t.ctx a (-1)) a = 0 := by
  have hswap := t.compare_swap a a
  omega

/-- One key is below another, as the tree compares them. -/
def KeyBelow (t : RimTree) (a b : RimStr) : Prop := rimTreeCompare (t.ctx a (-1)) b < 0

theorem KeyBelow.trans (hab : t.KeyBelow a b) (hbc : t.KeyBelow b c) : t.KeyBelow a c := by
  unfold KeyBelow rimTreeCompare ctx at hab hbc ⊢
  dsimp only at hab hbc ⊢
  rw [if_pos rfl] at hab hbc ⊢
  cases hkt : t.keyType with
  | num =>
    rw [hkt] at hab hbc
    simp only at hab hbc ⊢
    split_ifs at hab hbc ⊢ with h₁ h₂ h₃ h₄ h₅ h₆ h₇
    all_goals first | omega | exact memcmp_trans hab hbc (by omega)
  | str =>
    rw [hkt] at hab hbc
    exact memcmp_trans hab hbc (by omega)

theorem keyBelow_iff_pos : t.KeyBelow b a ↔ rimTreeCompare (t.ctx a (-1)) b > 0 := by
  unfold KeyBelow
  rw [t.compare_swap a b]
  omega

end RimTree

/-! ## The order of the nodes under the balancing -/

namespace TreeNode

/-- Another child with the same nodes in the same order. -/
theorem inorder_setChild (p : TreeNode) (dir : Dir) {x : TreeNode} (h : x.inorder = (p.child dir).inorder) :
    (p.setChild dir x).inorder = p.inorder := by
  cases p with
  | null => rfl
  | node d n l g =>
    cases dir with
    | lesser => exact congrArg (· ++ d :: g.inorder) h
    | greater => exact congrArg (fun e => l.inorder ++ d :: e) h

theorem inorder_setChild_congr (p : TreeNode) (dir : Dir) {x y : TreeNode} (h : x.inorder = y.inorder) :
    (p.setChild dir x).inorder = (p.setChild dir y).inorder := by
  cases p with
  | null => rfl
  | node d n l g =>
    cases dir with
    | lesser => exact congrArg (· ++ d :: g.inorder) h
    | greater => exact congrArg (fun e => l.inorder ++ d :: e) h

end TreeNode

theorem rimTreeHeight_inorder (n : TreeNode) : (rimTreeHeight n).1.inorder = n.inorder := by
  cases n <;> rfl

theorem rimTreeRotateRight_inorder (p : TreeNode) (dir : Dir) : (rimTreeRotateRight p dir).inorder = p.inorder := by
  unfold rimTreeRotateRight
  split
  next d h ld lh ll lg g hchild =>
    rw [rimTreeHeight_inorder]
    refine inorder_setChild p dir ?_
    rw [hchild]
    show ll.inorder ++ ld :: (lg.inorder ++ d :: g.inorder) = (ll.inorder ++ ld :: lg.inorder) ++ d :: g.inorder
    rw [List.append_assoc, List.cons_append]
  next => rfl

theorem rimTreeRotateLeft_inorder (p : TreeNode) (dir : Dir) : (rimTreeRotateLeft p dir).inorder = p.inorder := by
  unfold rimTreeRotateLeft
  split
  next d h l gd gh gl gg hchild =>
    rw [rimTreeHeight_inorder]
    refine inorder_setChild p dir ?_
    rw [hchild]
    show (l.inorder ++ d :: gl.inorder) ++ gd :: gg.inorder = l.inorder ++ d :: (gl.inorder ++ gd :: gg.inorder)
    rw [List.append_assoc, List.cons_append]
  next => rfl

/-- Balancing leaves every node in its place in the order, whatever the heights say. -/
theorem rimTreeBalance_inorder (p : TreeNode) (dir : Dir) : (rimTreeBalance p dir).inorder = p.inorder := by
  have hheight : (rimTreeHeight (p.child dir)).1.inorder = (p.child dir).inorder := rimTreeHeight_inorder _
  have htop : ∀ (q : TreeNode) (side : Dir),
      (q.setChild dir ((q.child dir).setChild side (rimTreeHeight ((q.child dir).child side)).1)).inorder = q.inorder :=
    fun q side => inorder_setChild q dir (inorder_setChild _ side (rimTreeHeight_inorder _))
  unfold rimTreeBalance
  dsimp only
  split_ifs
  · rw [htop, rimTreeRotateRight_inorder, setChild_setChild]
    exact inorder_setChild p dir ((rimTreeRotateLeft_inorder _ _).trans hheight)
  · rw [htop, rimTreeRotateRight_inorder, setChild_setChild]
    exact inorder_setChild p dir hheight
  · rw [htop, rimTreeRotateLeft_inorder, setChild_setChild]
    exact inorder_setChild p dir ((rimTreeRotateRight_inorder _ _).trans hheight)
  · rw [htop, rimTreeRotateLeft_inorder, setChild_setChild]
    exact inorder_setChild p dir hheight
  · exact inorder_setChild p dir hheight

/-! ## The place of a new key -/

/-- The nodes with a new one where the way down for its key ends. -/
def TreeNode.placed (c : TreeCtx) (new : NodeData) : TreeNode → List NodeData
  | null => [new]
  | node d _ l g =>
    if rimTreeCompare c d.key < 0 then placed c new l ++ d :: g.inorder
    else if rimTreeCompare c d.key = 0 then l.inorder ++ d :: g.inorder
    else l.inorder ++ d :: placed c new g

/-- An insertion puts the new node where the way down ends. -/
theorem rimTreeInsert_inorder (c : TreeCtx) (fresh data : Addr) {n : TreeNode}
    (hpres : ∀ d ∈ n.inorder, d.keyPresent = true)
    (hne : n ≠ null) (p : TreeNode) (dir : Dir) (hp : p.child dir = n) (st : TreeSt) :
    ∃ x, x.inorder = n.placed c (newNode c fresh data) ∧
      (rimTreeInsert c fresh data p dir n st).1.inorder = (p.setChild dir x).inorder := by
  induction n generalizing p dir with
  | null => exact absurd rfl hne
  | node d h l g ihl ihg =>
    have hd : d.keyPresent = true := hpres d (by simp [inorder])
    have hl : ∀ e ∈ l.inorder, e.keyPresent = true := fun e he => hpres e (by simp [inorder, he])
    have hg : ∀ e ∈ g.inorder, e.keyPresent = true := fun e he => hpres e (by simp [inorder, he])
    have hnew : ¬ d.keyPresent = false := by
      rw [hd]
      exact Bool.noConfusion
    rw [rimTreeInsert, placed]
    dsimp only
    rw [if_neg hnew]
    by_cases hlt : rimTreeCompare c d.key < 0
    · rw [if_pos hlt, if_pos hlt]
      by_cases hnull : l = null
      · subst hnull
        exact ⟨_, rfl, rfl⟩
      · rw [if_neg (by rw [isNull_iff]; exact hnull)]
        obtain ⟨x, hx, hrun⟩ := ihl hl hnull (node d h l g) .lesser rfl
        refine ⟨node d h x g, congrArg (· ++ d :: g.inorder) hx, ?_⟩
        rw [rimTreeBalance_inorder]
        refine inorder_setChild_congr p dir ?_
        rw [rimTreeBalance_inorder]
        exact hrun
    · rw [if_neg hlt, if_neg hlt]
      by_cases hzero : rimTreeCompare c d.key = 0
      · rw [if_pos hzero, if_pos hzero]
        refine ⟨node d h l g, rfl, (inorder_setChild p dir ?_).symm⟩
        rw [hp]
      · rw [if_neg hzero, if_neg hzero]
        by_cases hnull : g = null
        · subst hnull
          exact ⟨_, rfl, rfl⟩
        · rw [if_neg (by rw [isNull_iff]; exact hnull)]
          obtain ⟨x, hx, hrun⟩ := ihg hg hnull (node d h l g) .greater rfl
          refine ⟨node d h l x, congrArg (fun e => l.inorder ++ d :: e) hx, ?_⟩
          rw [rimTreeBalance_inorder]
          refine inorder_setChild_congr p dir ?_
          rw [rimTreeBalance_inorder]
          exact hrun

namespace RimTree

variable {t t' : RimTree} {key : RimStr} {data fresh : Addr}

def Increasing (t : RimTree) : Prop := t.nodes.Pairwise fun d e => t.KeyBelow d.key e.key

/-- The comparison depends on the type of the keys only. -/
theorem keyBelow_congr (h : t'.keyType = t.keyType) (a b : RimStr) : t'.KeyBelow a b ↔ t.KeyBelow a b := by
  unfold KeyBelow rimTreeCompare ctx
  rw [h]

theorem increasing_congr (h : t'.keyType = t.keyType) :
    t'.Increasing ↔ t'.nodes.Pairwise fun d e => t.KeyBelow d.key e.key := by
  unfold Increasing
  simp only [keyBelow_congr h]

theorem mem_placed {c : TreeCtx} {new e : NodeData} {n : TreeNode} (he : e ∈ n.placed c new) :
    e = new ∨ e ∈ n.inorder := by
  induction n with
  | null => exact Or.inl (List.mem_singleton.mp he)
  | node d h l g ihl ihg =>
    rw [placed] at he
    rw [inorder, List.mem_append, List.mem_cons]
    split_ifs at he
    · obtain he | he := List.mem_append.mp he
      · exact (ihl he).imp id Or.inl
      · exact Or.inr (Or.inr (List.mem_cons.mp he))
    · obtain he | he := List.mem_append.mp he
      · exact Or.inr (Or.inl he)
      · exact Or.inr (Or.inr (List.mem_cons.mp he))
    · obtain he | he := List.mem_append.mp he
      · exact Or.inr (Or.inl he)
      · obtain rfl | he := List.mem_cons.mp he
        · exact Or.inr (Or.inr (Or.inl rfl))
        · exact (ihg he).imp id fun h => Or.inr (Or.inr h)

/-- Where the way down ends, the key is above all before and below all after. -/
theorem placed_pairwise {n : TreeNode} (hn : n.inorder.Pairwise fun d e => t.KeyBelow d.key e.key) :
    (n.placed (t.ctx key (-1)) (newNode (t.ctx key (-1)) fresh data)).Pairwise fun d e => t.KeyBelow d.key e.key := by
  induction n with
  | null => exact List.pairwise_singleton _ _
  | node d h l g ihl ihg =>
    obtain ⟨hl, hdg, hlg⟩ := List.pairwise_append.mp hn
    obtain ⟨hd, hg⟩ := List.pairwise_cons.mp hdg
    rw [placed]
    split_ifs with hlt hzero
    · refine List.pairwise_append.mpr ⟨ihl hl, hdg, fun e he f hf => ?_⟩
      obtain rfl | he := mem_placed he
      · have hbelow : t.KeyBelow key d.key := hlt
        obtain rfl | hf := List.mem_cons.mp hf
        · exact hbelow
        · exact hbelow.trans (hd f hf)
      · exact hlg e he f hf
    · exact hn
    · have hbelow : t.KeyBelow d.key key := keyBelow_iff_pos.mpr (by omega)
      refine List.pairwise_append.mpr ⟨hl, List.pairwise_cons.mpr ⟨fun f hf => ?_, ihg hg⟩, fun e he f hf => ?_⟩
      · obtain rfl | hf := mem_placed hf
        · exact hbelow
        · exact hd f hf
      · obtain rfl | hf := List.mem_cons.mp hf
        · exact hlg e he f (List.mem_cons_self ..)
        · obtain rfl | hf := mem_placed hf
          · exact (hlg e he d (List.mem_cons_self ..)).trans hbelow
          · exact hlg e he f (List.mem_cons_of_mem _ hf)

theorem rimTreeInsertF_placed (key : RimStr) (data : Addr) (h : t.TreeInv) (hne : t.rootNode ≠ null)
    (hsub : SubtreeInv t.rootNode)
    (hfresh : t.Fresh fresh) (lcurs : RimTreeCursor) :
    (rimTreeInsertF lcurs t key (-1) data fresh).1.rootNode.inorder =
      t.rootNode.placed (t.ctx key (-1)) (newNode (t.ctx key (-1)) fresh data) := by
  obtain ⟨-, hsame, -⟩ := rimTreeInsertF_inv key data h hfresh lcurs
  obtain ⟨d, n, n', htop, htop'⟩ := hsame.top
  obtain ⟨x, hx, hrun⟩ := rimTreeInsert_inorder (t.ctx key (-1)) fresh data hsub.present hne
    t.tree .lesser rfl ((t.start lcurs).call [.addRef key.addr])
  have htree : (rimTreeInsertF lcurs t key (-1) data fresh).1.tree.inorder = (t.tree.setChild .lesser x).inorder := hrun
  rw [htop', htop] at htree
  rw [← hx]
  exact List.append_cancel_right htree

theorem rimTreeInsertF_increasing (h : t.TreeInv) (hi : t.Increasing) (hfresh : t.Fresh fresh) (lcurs : RimTreeCursor) :
    (rimTreeInsertF lcurs t key (-1) data fresh).1.Increasing := by
  obtain ⟨hinv, hsame, hout⟩ := rimTreeInsertF_inv key data h hfresh lcurs
  rw [increasing_congr hsame.keyType]
  obtain ⟨hnil, -⟩ | ⟨hne, hsub, hnodes, -⟩ := h.cases_nodes
  · cases hout with
    | exist e he hkey hfound hroot hnodes hstatus hcalls =>
      rw [hnodes]
      exact hi
    | first d hroot hnodes hroot' hnodes' hstatus hcalls =>
      rw [hnodes']
      exact List.pairwise_singleton _ _
    | leaf I J hroot hnodes hroot' hnodes' hbetween hstatus hcalls =>
      obtain ⟨rfl, rfl⟩ := List.append_eq_nil_iff.mp (hnodes.symm.trans hnil)
      rw [hnodes']
      exact List.pairwise_singleton _ _
  · have hplaced := rimTreeInsertF_placed key data h hne hsub hfresh lcurs
    unfold nodes
    split_ifs
    · rw [hplaced]
      refine placed_pairwise ?_
      rw [← hnodes]
      exact hi
    · exact List.Pairwise.nil

theorem rimTreeDeleteF_increasing (h : t.TreeInv) (hi : t.Increasing) (hfresh : fresh < addrLimit)
    (lcurs : RimTreeCursor) : (rimTreeDeleteF lcurs t key fresh).1.Increasing := by
  obtain ⟨-, hsame, hout⟩ := rimTreeDeleteF_inv key h hfresh lcurs
  rw [increasing_congr hsame.keyType]
  cases hout with
  | absent habs hroot hnodes hstatus hcalls =>
    rw [hnodes]
    exact hi
  | removed I e J K gone hroot hnodes hkey hfound hrem hroot' hnodes' hstatus hres hcalls =>
    rw [hnodes']
    unfold Increasing at hi
    rw [hnodes] at hi
    exact hrem.pairwise hi

theorem withData_key (a : Addr) (d : NodeData) : (withData a data d).key = d.key := by
  unfold withData
  split_ifs <;> rfl

theorem setData_increasing (hi : t.Increasing) (a data : Addr) : (t.setData a data).Increasing := by
  have hkeys : (t.setData a data).keyType = t.keyType := rfl
  rw [increasing_congr hkeys, setData_nodes, List.pairwise_map]
  simp only [withData_key]
  exact hi

structure CursorTree (t : RimTree) : Prop where
  inv : t.TreeInv
  increasing : t.Increasing

/-- The trees that statements make: new ones, and what insertions, deletions and updates make of them. -/
inductive Made : RimTree → Prop
  | create (keyType : KeyType) (sorted process : Bool) (tree : Addr) {root : Addr} (hroot : root < addrLimit) :
      Made (rimTreeCreate keyType sorted process tree root)
  | step {t t' : RimTree} (op : TreeOp) (ht : Made t) (hstep : t.Step op t') : Made t'
  | update {t : RimTree} (ht : Made t) (a data : Addr) : Made (t.setData a data)

theorem Made.cursorTree (h : t.Made) : t.CursorTree := by
  induction h with
  | create keyType sorted process tree hroot => exact ⟨create_inv keyType sorted process tree hroot, .nil⟩
  | step op ht hstep ih =>
    refine ⟨(step_inv ih.inv hstep).1, ?_⟩
    obtain ⟨hlegal, rfl⟩ := hstep
    cases op with
    | insert lcurs key data fresh => exact rimTreeInsertF_increasing ih.inv ih.increasing hlegal lcurs
    | delete lcurs key fresh => exact rimTreeDeleteF_increasing ih.inv ih.increasing hlegal.1 lcurs
  | update ht a data ih => exact ⟨setData_inv ih.inv, setData_increasing ih.increasing a data⟩

end RimTree

end RimStone
