import RimStone.Laws.Tree.Threads
import Mathlib.Data.List.Perm.Subperm

/-!
# The invariant of a tree

`TreeInv` is what holds of a whole tree between operations. An empty tree has a
root that holds no key; any other tree has a balanced root and a key in every
node. In both the count is the number of nodes that hold keys, and in a sorted
tree the links thread them. None of this depends on the keys; that they are in
order (`Ordered`) is kept apart, since it needs keys of the tree's type.

Each operation has one theorem: what it makes of the nodes, of the status and of
the calls on the memory, and that it keeps the invariant. The bound on addresses
is what keeps a cached height within its seven bits: a tree of that height has
more nodes than there are addresses.
-/

namespace RimStone

open TreeNode RimStone.Lib

/-- Addresses `calloc` can answer are below this on any platform. -/
def addrLimit : Nat := 2 ^ 62

namespace RimTree

def nodes (t : RimTree) : List NodeData :=
  if keyPresentAt t.rootNode then t.rootNode.inorder else []

/-- An address for a new node: none of the tree's is there. -/
def Fresh (t : RimTree) (a : Addr) : Prop :=
  a < addrLimit ∧ ∀ d ∈ t.rootNode.inorder, d.addr ≠ a

instance (t : RimTree) (a : Addr) : Decidable (t.Fresh a) :=
  inferInstanceAs (Decidable (_ ∧ _))

structure TreeInv (t : RimTree) : Prop where
  top : ∃ d h, t.tree = node d h t.rootNode null
  shape : (∃ d h, t.rootNode = node d h null null ∧ d.keyPresent = false ∧ t.dlist d.addr = {}) ∨
    (t.rootNode ≠ null ∧ SubtreeInv t.rootNode)
  count : t.count = t.nodes.length
  addrs : (t.rootNode.inorder.map (·.addr)).Nodup
  bound : ∀ d ∈ t.rootNode.inorder, d.addr < addrLimit
  threaded : t.sorted = true → Threaded t.toTreeList (t.nodes.map (·.addr))

/-- The keys are of the tree's type and in order. -/
def Ordered (t : RimTree) : Prop := KeysOrdered t.keyType t.nodes

section Inv

variable {t : RimTree}

theorem nodes_of_filled (hne : t.rootNode ≠ null) (ht : SubtreeInv t.rootNode) : t.nodes = t.rootNode.inorder := by
  obtain ⟨d, h, l, g, hroot⟩ := exists_node hne
  have hpres : d.keyPresent = true := ht.present d (by simp [hroot, inorder])
  simp only [nodes, hroot, keyPresentAt, hpres, ↓reduceIte]

theorem nodes_of_empty {d : NodeData} {h : Nat} (hroot : t.rootNode = node d h null null)
    (hpres : d.keyPresent = false) : t.nodes = [] := by
  simp only [nodes, hroot, keyPresentAt, hpres, Bool.false_eq_true, ↓reduceIte]

/-- There are not enough addresses for a tree higher than a cached height can say. -/
theorem TreeInv.depth_lt (h : t.TreeInv) (hbal : t.rootNode.Balanced) : t.rootNode.depth + 1 < 2 ^ 7 := by
  have hlen : t.rootNode.inorder.length ≤ addrLimit := by
    have hsub : t.rootNode.inorder.map (·.addr) ⊆ List.range addrLimit := by
      intro a ha
      obtain ⟨d, hd, rfl⟩ := List.mem_map.mp ha
      exact List.mem_range.mpr (h.bound d hd)
    have hle := (List.subperm_of_subset h.addrs hsub).length_le
    rwa [List.length_map, List.length_range] at hle
  have hfib := hbal.fib_le
  by_contra hge
  have hmono : Nat.fib 128 ≤ Nat.fib (t.rootNode.depth + 2) := Nat.fib_mono (by omega)
  have hlim : addrLimit + 1 < Nat.fib 128 := by decide
  omega

theorem ctx_valid {key : RimStr} (hok : t.keyType.Ok key.bytes) : (t.ctx key (-1)).Valid :=
  ⟨rfl, hok⟩

end Inv

/-- Everything about a tree that no operation changes. -/
structure SameType (t t' : RimTree) : Prop where
  keyType : t'.keyType = t.keyType
  sorted : t'.sorted = t.sorted
  process : t'.process = t.process
  top : ∃ d h h', t.tree = node d h t.rootNode null ∧ t'.tree = node d h' t'.rootNode null

/-- The tree a function leaves under the top node. -/
theorem finish_same {t : RimTree} {d : NodeData} {h : Nat} (htop : t.tree = node d h t.rootNode null)
    {root p : TreeNode} (hung : Hung t.tree .lesser root p) (st : TreeSt) :
    (t.finish p st).rootNode = root ∧ SameType t (t.finish p st) := by
  obtain ⟨n, rfl⟩ := hung
  have hp : (t.tree.setHeight n).setChild .lesser root = node d n root null := by
    rw [htop]
    rfl
  have hroot : (t.finish ((t.tree.setHeight n).setChild .lesser root) st).rootNode = root := by
    unfold rootNode finish
    rw [hp]
    rfl
  refine ⟨hroot, rfl, rfl, rfl, d, h, n, htop, ?_⟩
  rw [hroot]
  exact hp

/-- A tree whose root an operation left filled. -/
theorem finish_filled {t : RimTree} {d : NodeData} {h : Nat} (htop : t.tree = node d h t.rootNode null)
    {root p : TreeNode} (hung : Hung t.tree .lesser root p) (st : TreeSt) (hne : root ≠ null)
    (hsub : SubtreeInv root) (hcount : st.count = root.inorder.length)
    (haddrs : (root.inorder.map (·.addr)).Nodup) (hbound : ∀ d ∈ root.inorder, d.addr < addrLimit)
    (hthread : t.sorted = true → Threaded st.toTreeList (root.inorder.map (·.addr))) :
    (t.finish p st).TreeInv ∧ SameType t (t.finish p st) ∧ (t.finish p st).rootNode = root ∧
      (t.finish p st).nodes = root.inorder := by
  obtain ⟨hroot, hsame⟩ := finish_same htop hung st
  have hne' : (t.finish p st).rootNode ≠ null := hroot ▸ hne
  have hsub' : SubtreeInv (t.finish p st).rootNode := by
    rw [hroot]
    exact hsub
  have hnodes : (t.finish p st).nodes = root.inorder := by
    rw [nodes_of_filled hne' hsub', hroot]
  obtain ⟨d', _, h', -, htop'⟩ := hsame.top
  refine ⟨⟨⟨d', h', htop'⟩, Or.inr ⟨hne', hsub'⟩, ?_, ?_, ?_, fun hs => ?_⟩, hsame, hroot, hnodes⟩
  · rw [hnodes]
    exact hcount
  · rw [hroot]
    exact haddrs
  · rw [hroot]
    exact hbound
  · rw [hnodes]
    exact hthread hs

/-! ## Insertion -/

section Insert

variable {t : RimTree} {key : RimStr} {data fresh : Addr}

/-- What an insertion did: nothing, since the key is there; or it filled the empty
root; or it added a leaf, between the keys below and the keys above if these are
in order. -/
inductive InsertOutcome (t : RimTree) (key : RimStr) (data fresh : Addr) (t' : RimTree)
    (st : TreeSt) : Prop
  | exist (e : NodeData) (he : e ∈ t.nodes) (hkey : rimTreeCompare (t.ctx key (-1)) e.key = 0)
      (hfound : rimTreeSearchLoop (t.ctx key (-1)) t.rootNode = some e.addr)
      (hroot : t'.rootNode.inorder = t.rootNode.inorder) (hnodes : t'.nodes = t.nodes)
      (hstatus : st.status = .errExist) (hcalls : st.calls = [.addRef key.addr])
  | first (d : NodeData) (hroot : t.rootNode.inorder = [d]) (hnodes : t.nodes = [])
      (hroot' : t'.rootNode.inorder = [⟨d.addr, key, data, true⟩])
      (hnodes' : t'.nodes = [⟨d.addr, key, data, true⟩]) (hstatus : st.status = .okay)
      (hcalls : st.calls = [.addRef key.addr, .addRef data])
  | leaf (I J : List NodeData) (hroot : t.rootNode.inorder = I ++ J) (hnodes : t.nodes = I ++ J)
      (hroot' : t'.rootNode.inorder = I ++ ⟨fresh, key, data, true⟩ :: J)
      (hnodes' : t'.nodes = I ++ ⟨fresh, key, data, true⟩ :: J)
      (hbetween : t.keyType.Ok key.bytes → t.Ordered → Between (t.ctx key (-1)) I J)
      (hstatus : st.status = .okay)
      (hcalls : st.calls =
        [.addRef key.addr, .calloc fresh 1 (sizeofTreeNode t.sorted), .addRef data])

/-- The part of the state a new key changes. -/
theorem rimTreeInsertHere_list (c : TreeCtx) (d : NodeData) (l g : TreeNode) (st : TreeSt) :
    (rimTreeInsertHere c data d l g st).2.toTreeList =
      { (if c.sorted then st.toTreeList.setEnds d.addr else st.toTreeList) with
        count := st.count + 1 } := by
  cases hs : c.sorted <;> simp [rimTreeInsertHere, TreeSt.withList, TreeSt.call, hs]

theorem rimTreeInsertHere_calls (c : TreeCtx) (d : NodeData) (l g : TreeNode) (st : TreeSt) :
    (rimTreeInsertHere c data d l g st).2.calls = st.calls ++ [.addRef data] := by
  cases hs : c.sorted <;> simp [rimTreeInsertHere, TreeSt.withList, TreeSt.call, hs]

/-- The part of the state a new leaf changes. -/
theorem rimTreeInsertLeaf_list (c : TreeCtx) (a : Addr) (side : Dir) (st : TreeSt) :
    (rimTreeInsertLeaf c fresh data a side st).2.toTreeList =
      { (if c.sorted then
          (match side with
            | .lesser => (st.toTreeList.clear fresh).linkBefore a fresh
            | .greater => (st.toTreeList.clear fresh).linkAfter a fresh).setEnds fresh
        else st.toTreeList.clear fresh) with count := st.count + 1 } := by
  cases hs : c.sorted <;> cases side <;>
    simp [rimTreeInsertLeaf, rimTreeInsertHere, rimTreeNodeCreate, TreeSt.withList, TreeSt.call, hs, NodeData.zero]

theorem rimTreeInsertLeaf_cursor (c : TreeCtx) (a : Addr) (side : Dir) (st : TreeSt) :
    (rimTreeInsertLeaf c fresh data a side st).2.status = .okay ∧
    (rimTreeInsertLeaf c fresh data a side st).2.calls =
      st.calls ++ [.calloc fresh 1 (sizeofTreeNode c.sorted), .addRef data] := by
  cases hs : c.sorted <;> cases side <;>
    simp [rimTreeInsertLeaf, rimTreeInsertHere, rimTreeNodeCreate, TreeSt.withList, TreeSt.call, hs]

/-- Changing the count does not change the threads. -/
theorem Threaded.withCount {l : TreeList} {as : List Addr} (h : Threaded l as) (n : Int) :
    Threaded { l with count := n } as := h

/-- A leaf threaded in beside its neighbour. -/
theorem rimTreeInsertLeaf_threaded {c : TreeCtx} {a : Addr} {side : Dir} {st : TreeSt}
    {I J : List NodeData} (hs : c.sorted = true)
    (h : Threaded st.toTreeList ((I ++ J).map (·.addr))) (hb : Beside I J a side)
    (hfresh : fresh ∉ (I ++ J).map (·.addr)) :
    Threaded (rimTreeInsertLeaf c fresh data a side st).2.toTreeList
      ((I ++ newNode c fresh data :: J).map (·.addr)) := by
  rw [rimTreeInsertLeaf_list, hs, if_pos rfl]
  refine Threaded.withCount ?_ _
  cases hb with
  | before I e J =>
    simp only [List.map_append, List.map_cons] at h hfresh ⊢
    exact linkBefore_threaded h hfresh
  | after I e J =>
    simp only [List.map_append, List.map_cons, List.append_assoc, List.cons_append,
      List.nil_append] at h hfresh ⊢
    exact linkAfter_threaded h hfresh

/-- The nodes' order, with a new key between the lesser and the greater ones. -/
theorem keysSorted_insert {kt : KeyType} {I J : List NodeData} {e : NodeData}
    (h : KeysSorted kt (I ++ J)) (hI : ∀ d ∈ I, kt.rank d.key.bytes < kt.rank e.key.bytes)
    (hJ : ∀ d ∈ J, kt.rank e.key.bytes < kt.rank d.key.bytes) : KeysSorted kt (I ++ e :: J) := by
  obtain ⟨hsI, hsJ, hIJ⟩ := List.pairwise_append.mp h
  refine List.pairwise_append.mpr ⟨hsI, List.pairwise_cons.mpr ⟨hJ, hsJ⟩, fun d hd d' hd' => ?_⟩
  rcases List.mem_cons.mp hd' with rfl | hd'
  · exact hI d hd
  · exact hIJ d hd d' hd'

/-- A fresh address joins distinct ones. -/
theorem nodup_insert {I J : List NodeData} {e : NodeData}
    (h : ((I ++ J).map (·.addr)).Nodup) (he : ∀ d ∈ I ++ J, d.addr ≠ e.addr) :
    ((I ++ e :: J).map (·.addr)).Nodup := by
  have hperm : (I ++ e :: J).map (·.addr) |>.Perm ((e :: (I ++ J)).map (·.addr)) :=
    (List.perm_middle).map _
  rw [hperm.nodup_iff, List.map_cons, List.nodup_cons]
  refine ⟨fun hm => ?_, h⟩
  obtain ⟨d, hd, hde⟩ := List.mem_map.mp hm
  exact he d hd hde

/-- `rim_tree_insert_f` keeps the invariant. -/
theorem rimTreeInsertF_inv (key : RimStr) (data : Addr) (h : t.TreeInv) (hfresh : t.Fresh fresh)
    (lcurs : RimTreeCursor) :
    (rimTreeInsertF lcurs t key (-1) data fresh).1.TreeInv ∧
    SameType t (rimTreeInsertF lcurs t key (-1) data fresh).1 ∧
    InsertOutcome t key data fresh (rimTreeInsertF lcurs t key (-1) data fresh).1
      (rimTreeInsertF lcurs t key (-1) data fresh).2 := by
  obtain ⟨dt, ht, htop⟩ := h.top
  have hpt : t.tree.child .lesser = t.rootNode := rfl
  have hp : t.tree ≠ null := by
    rw [htop]
    exact TreeNode.noConfusion
  let c := t.ctx key (-1)
  let st₀ : TreeSt := (t.start lcurs).call [.addRef key.addr]
  have hcalls₀ : st₀.calls = [.addRef key.addr] := rfl
  have hlist₀ : st₀.toTreeList = t.toTreeList := rfl
  rcases h.shape with ⟨d, n, hroot, hpres, hlinks⟩ | ⟨hne, hsub⟩
  · -- the empty root is filled
    have hnodes := nodes_of_empty hroot hpres
    let e : NodeData := ⟨d.addr, key, data, true⟩
    let st : TreeSt := (rimTreeInsertHere c data d null null st₀).2
    have hrun : rimTreeInsertF lcurs t key (-1) data fresh =
        (t.finish (t.tree.setChild .lesser (node e 1 null null)) st, st) := by
      simp only [rimTreeInsertF, hroot, rimTreeInsert, hpres, ↓reduceIte]
      rfl
    have hlist : st.toTreeList =
        { (if t.sorted then t.toTreeList.setEnds d.addr else t.toTreeList) with
          count := t.count + 1 } :=
      rimTreeInsertHere_list c d null null st₀
    have hcount : st.count = 1 := by
      have hc : st.count = t.count + 1 := congrArg TreeList.count hlist
      rw [hc, h.count, hnodes]
      rfl
    have hbound : d.addr < addrLimit := h.bound d (by simp [hroot, inorder])
    have hthread : t.sorted = true → Threaded st.toTreeList [d.addr] := by
      intro hs
      rw [hlist, hs, if_pos rfl]
      exact Threaded.withCount (setEnds_threaded hlinks) _
    obtain ⟨hinv, hsame, hroot', hnodes'⟩ := finish_filled htop
      (hung_setChild t.tree .lesser (node e 1 null null)) st TreeNode.noConfusion
      ⟨⟨trivial, trivial⟩, leaf_balanced e, by simp [inorder, e]⟩ hcount (by simp [inorder]) (by simp [inorder, e, hbound])
      hthread
    rw [hrun]
    refine ⟨hinv, hsame, .first d (by rw [hroot]; rfl) hnodes (by rw [hroot']; rfl)
      (by rw [hnodes']; rfl) rfl ?_⟩
    exact rimTreeInsertHere_calls c d null null st₀
  · have hnodes := nodes_of_filled hne hsub
    obtain ⟨root, hung, hres⟩ := rimTreeInsert_spec (c := c) fresh data hsub hne
      (h.depth_lt hsub.balanced) t.tree .lesser st₀ hp hpt
    have hcount := h.count
    rw [hnodes] at hcount
    rcases hres with ⟨⟨e, he, hkey, hfound⟩, hu, hst⟩ | hi
    · -- the key is there
      have hst' : (rimTreeInsert c fresh data t.tree .lesser t.rootNode st₀).2.toTreeList =
          t.toTreeList := by
        rw [hst]
        rfl
      obtain ⟨hinv, hsame, hroot', hnodes'⟩ := finish_filled htop hung
        (rimTreeInsert c fresh data t.tree .lesser t.rootNode st₀).2 (hu.ne_null hne)
        (hu.subtreeInv hsub) (by rw [hst', hu.inorder]; exact hcount)
        (by rw [hu.inorder]; exact h.addrs) (by rw [hu.inorder]; exact h.bound)
        (fun hs => by rw [hst', hu.inorder, ← hnodes]; exact h.threaded hs)
      refine ⟨hinv, hsame, .exist e (hnodes ▸ he) hkey hfound ?_ ?_ ?_ ?_⟩
      · exact (congrArg inorder hroot').trans hu.inorder
      · exact hnodes'.trans (hu.inorder.trans hnodes.symm)
      · exact congrArg (·.status) hst
      · exact congrArg (·.calls) hst
    · -- a leaf joins
      obtain ⟨I, J, a, side, hin, hin', hbetween, hbeside, hst⟩ := hi.place
      let e : NodeData := ⟨fresh, key, data, true⟩
      have hmem : ∀ d, d ∈ root.inorder ↔ d = e ∨ d ∈ I ++ J := by
        intro d
        rw [hin']
        exact List.perm_middle.mem_iff.trans List.mem_cons
      have hfresh' : ∀ d ∈ I ++ J, d.addr ≠ fresh := hin ▸ hfresh.2
      have hroot : SubtreeInv root := by
        refine ⟨hi.below, hi.balanced, fun d hd => ?_⟩
        rcases (hmem d).mp hd with rfl | hd
        · rfl
        · exact hsub.present d (hin ▸ hd)
      have hlen : root.inorder.length = t.rootNode.inorder.length + 1 := by
        rw [hin, hin']
        simp [Nat.add_assoc]
      have hcount' : (rimTreeInsert c fresh data t.tree .lesser t.rootNode st₀).2.count =
          t.count + 1 := by
        rw [hst]
        exact congrArg TreeList.count (rimTreeInsertLeaf_list c a side st₀)
      obtain ⟨hinv, hsame, hroot', hnodes'⟩ := finish_filled htop hung
        (rimTreeInsert c fresh data t.tree .lesser t.rootNode st₀).2
        (ne_null_of_depth_pos (lt_of_lt_of_le (depth_pos hne) hi.lower)) hroot
        (by rw [hcount', hcount, hlen]; rfl)
        (by rw [hin']; exact nodup_insert (hin ▸ h.addrs) hfresh')
        (fun d hd => by
          rcases (hmem d).mp hd with rfl | hd
          · exact hfresh.1
          · exact h.bound d (hin ▸ hd))
        (fun hs => by
          rw [hst, hin']
          refine rimTreeInsertLeaf_threaded hs ?_ hbeside fun hm => ?_
          · rw [← hin, ← hnodes]
            exact h.threaded hs
          · obtain ⟨d, hd, hde⟩ := List.mem_map.mp hm
            exact hfresh' d hd hde)
      obtain ⟨hstatus, hcalls⟩ := rimTreeInsertLeaf_cursor c a side st₀
      refine ⟨hinv, hsame, .leaf I J hin (hnodes.trans hin) ?_ (hnodes'.trans hin')
        (fun hok ho => hbetween (ctx_valid hok) (hnodes ▸ ho)) ?_ ?_⟩
      · exact (congrArg inorder hroot').trans hin'
      · exact (congrArg (·.status) hst).trans hstatus
      · exact (congrArg (·.calls) hst).trans hcalls

end Insert

/-! ## Deletion -/

section Delete

variable {t : RimTree} {key : RimStr} {fresh : Addr}

/-- What leaves a list of nodes when `e` is deleted: `J` becomes `K`, with the same
keys and data, and the node at `gone` is the one unhooked. -/
structure Removes (e : NodeData) (J K : List NodeData) (gone : Addr) : Prop where
  entries : K.map (fun d => (d.key, d.data)) = J.map fun d => (d.key, d.data)
  addrs : ((e :: J).map (·.addr)).Perm (gone :: K.map (·.addr))
  present : (∀ d ∈ e :: J, d.keyPresent = true) → ∀ d ∈ K, d.keyPresent = true

/-- What a removal does to the list of nodes, to the state, and to the threads. -/
theorem removal_removes {c : TreeCtx} {e : NodeData} {st st' : TreeSt} {J K : List NodeData}
    (h : Removal c e st J K st') :
    ∃ gone, Removes e J K gone ∧
      st'.calls = st.calls ++ [.decProcess e.data, .decProcess e.key.addr, .decProcess gone] ∧
      st'.count = st.count ∧
      ∀ I, c.sorted = true → Threaded st.toTreeList ((I ++ e :: J).map (·.addr)) →
        Threaded st'.toTreeList ((I ++ K).map (·.addr)) := by
  cases h with
  | node J =>
    refine ⟨e.addr, ⟨rfl, .refl _, fun hp d hd => hp d (List.mem_cons_of_mem _ hd)⟩, ?_, ?_,
      fun I hs hthread => ?_⟩
    · cases hs : c.sorted <;> simp [nodeTaken, rimTreeNodeDelete, TreeSt.call, TreeSt.withList, hs]
    · cases hs : c.sorted <;> simp [nodeTaken, TreeSt.call, TreeSt.withList, hs]
    · have hlist : (nodeTaken c e st).toTreeList = st.toTreeList.unlink e.addr := by
        simp [nodeTaken, TreeSt.call, TreeSt.withList, hs]
      rw [hlist]
      simp only [List.map_append, List.map_cons] at hthread ⊢
      exact unlink_threaded hthread
  | leaf f J =>
    refine ⟨f.addr, ⟨rfl, .swap .., fun hp d hd => ?_⟩, ?_, ?_, fun I hs hthread => ?_⟩
    · rcases List.mem_cons.mp hd with rfl | hd
      · exact hp e (List.mem_cons_self ..)
      · exact hp d (List.mem_cons_of_mem _ (List.mem_cons_of_mem _ hd))
    · cases hs : c.sorted <;>
        simp [leafTaken, rimTreeNodeDelete, TreeSt.call, TreeSt.withList, hs]
    · cases hs : c.sorted <;> simp [leafTaken, TreeSt.call, TreeSt.withList, hs]
    · have hlist : (leafTaken c e f st).toTreeList =
          (st.toTreeList.unlink e.addr).replace e.addr f.addr := by
        simp [leafTaken, TreeSt.call, TreeSt.withList, hs]
      have hnd := DList.nodup hthread
      rw [hlist]
      simp only [List.map_append, List.map_cons] at hthread hnd ⊢
      refine replace_threaded (unlink_threaded hthread) fun hm => ?_
      obtain ⟨-, hndJ, hcross⟩ := List.nodup_append.mp hnd
      rcases List.mem_append.mp hm with hm | hm
      · exact hcross _ hm _ (List.mem_cons_self ..) rfl
      · exact (List.nodup_cons.mp hndJ).1 hm

section Removes

variable {e : NodeData} {I J K : List NodeData} {gone : Addr}

theorem Removes.length (h : Removes e J K gone) : (I ++ e :: J).length = (I ++ K).length + 1 := by
  have hlen := congrArg List.length h.entries
  simp only [List.length_map] at hlen
  simp only [List.length_append, List.length_cons, hlen]
  omega

/-- What holds between the keys in their order, holds between those left. -/
theorem Removes.pairwise {r : RimStr → RimStr → Prop} (h : Removes e J K gone)
    (hs : (I ++ e :: J).Pairwise fun a b => r a.key b.key) : (I ++ K).Pairwise fun a b => r a.key b.key := by
  have hsub : (I ++ J).Sublist (I ++ e :: J) := (List.sublist_cons_self e J).append_left I
  have hkeys : (I ++ K).map (·.key) = (I ++ J).map (·.key) := by
    have hmap := congrArg (List.map Prod.fst) h.entries
    simp only [List.map_map] at hmap
    rw [List.map_append, List.map_append]
    exact congrArg (I.map (·.key) ++ ·) hmap
  have hJ : ((I ++ J).map (·.key)).Pairwise r := List.pairwise_map.mpr (List.Pairwise.sublist hsub hs)
  rw [← hkeys, List.pairwise_map] at hJ
  exact hJ

theorem Removes.keysSorted {kt : KeyType} (h : Removes e J K gone)
    (hs : KeysSorted kt (I ++ e :: J)) : KeysSorted kt (I ++ K) :=
  h.pairwise (r := fun a b => kt.rank a.bytes < kt.rank b.bytes) hs

/-- Every node left has the key and the data of one that was there. -/
theorem Removes.exists_entry (h : Removes e J K gone) {d : NodeData} (hd : d ∈ K) :
    ∃ d' ∈ J, d'.key = d.key ∧ d'.data = d.data := by
  have hm : (d.key, d.data) ∈ K.map fun d => (d.key, d.data) := List.mem_map.mpr ⟨d, hd, rfl⟩
  rw [h.entries] at hm
  obtain ⟨d', hd', he⟩ := List.mem_map.mp hm
  exact ⟨d', hd', congrArg Prod.fst he, congrArg Prod.snd he⟩

theorem Removes.addrs_append (h : Removes e J K gone) :
    ((I ++ e :: J).map (·.addr)).Perm (gone :: (I ++ K).map (·.addr)) := by
  simp only [List.map_append]
  exact (h.addrs.append_left _).trans List.perm_middle

theorem Removes.nodup (h : Removes e J K gone) (hnd : ((I ++ e :: J).map (·.addr)).Nodup) :
    ((I ++ K).map (·.addr)).Nodup :=
  (List.nodup_cons.mp (h.addrs_append.nodup_iff.mp hnd)).2

/-- Every node left stands where one stood. -/
theorem Removes.mem_addr (h : Removes e J K gone) {d : NodeData} (hd : d ∈ I ++ K) :
    ∃ d' ∈ I ++ e :: J, d'.addr = d.addr := by
  have hm : d.addr ∈ gone :: (I ++ K).map (·.addr) := List.mem_cons_of_mem _ (List.mem_map.mpr ⟨d, hd, rfl⟩)
  obtain ⟨d', hd', he⟩ := List.mem_map.mp (h.addrs_append.mem_iff.mpr hm)
  exact ⟨d', hd', he⟩

end Removes

/-- What a deletion did: nothing, since the way down ended; or one entry left, and a
tree that is then empty was given a new root. -/
inductive DeleteOutcome (t : RimTree) (key : RimStr) (fresh : Addr) (t' : RimTree)
    (st : TreeSt) : Prop
  | absent (habs : t.keyType.Ok key.bytes → t.Ordered → ∀ e ∈ t.nodes, e.key.bytes ≠ key.bytes)
      (hroot : t'.rootNode.inorder = t.rootNode.inorder) (hnodes : t'.nodes = t.nodes)
      (hstatus : st.status = .errExist) (hcalls : st.calls = [])
  | removed (I : List NodeData) (e : NodeData) (J K : List NodeData) (gone : Addr)
      (hroot : t.rootNode.inorder = I ++ e :: J) (hnodes : t.nodes = I ++ e :: J)
      (hkey : rimTreeCompare (t.ctx key (-1)) e.key = 0)
      (hfound : rimTreeSearchLoop (t.ctx key (-1)) t.rootNode = some e.addr)
      (hrem : Removes e J K gone)
      (hroot' : t'.rootNode.inorder = if I ++ K = [] then [.zero fresh] else I ++ K)
      (hnodes' : t'.nodes = I ++ K) (hstatus : st.status = .okay) (hres : st.res = some e.data)
      (hcalls : st.calls =
        [.decProcess e.data, .decProcess e.key.addr, .decProcess gone] ++
          if I ++ K = [] then [.calloc fresh 1 (sizeofTreeNode t.sorted)] else [])

/-- A tree an operation left empty is given a root without a key. -/
theorem finish_empty {t : RimTree} {d : NodeData} {h : Nat} (htop : t.tree = node d h t.rootNode null)
    {p : TreeNode} (hung : Hung t.tree .lesser null p) (st : TreeSt) (hfresh : fresh < addrLimit)
    (hcount : st.count = 0) (hthread : t.sorted = true → Threaded st.toTreeList []) :
    let r := rimTreeCreateRoot t.sorted fresh p st
    (t.finish r.1 r.2).TreeInv ∧ SameType t (t.finish r.1 r.2) ∧
      (t.finish r.1 r.2).rootNode.inorder = [.zero fresh] ∧ (t.finish r.1 r.2).nodes = [] := by
  intro r
  have hung' : Hung t.tree .lesser (node (.zero fresh) 0 null null) r.1 := hung.trans (hung_setChild ..)
  obtain ⟨hroot, hsame⟩ := finish_same htop hung' r.2
  have hnodes : (t.finish r.1 r.2).nodes = [] := nodes_of_empty hroot rfl
  have hlinks : (t.finish r.1 r.2).dlist fresh = {} := by
    simp [r, rimTreeCreateRoot, rimTreeNodeCreate, TreeSt.withList, TreeSt.call, finish, TreeList.clear]
  obtain ⟨d', _, h', -, htop'⟩ := hsame.top
  refine ⟨⟨⟨d', h', htop'⟩, Or.inl ⟨.zero fresh, 0, hroot, rfl, hlinks⟩, ?_, ?_, ?_, fun hs => ?_⟩,
    hsame, by rw [hroot]; rfl, hnodes⟩
  · rw [hnodes]
    exact hcount
  · rw [hroot]
    simp [inorder]
  · rw [hroot]
    intro e he
    obtain rfl := List.mem_singleton.mp he
    exact hfresh
  · rw [hnodes]
    have hnil := hthread hs
    have hmin : st.min = none := DList.first_eq hnil
    have hmax : st.max = none := DList.last_eq hnil
    refine ⟨?_, ?_⟩
    · rw [show (t.finish r.1 r.2).min = none from hmin]
      exact .nil
    · rw [show (t.finish r.1 r.2).max = none from hmax]
      exact .nil

/-- `rim_tree_delete_f` keeps the invariant. -/
theorem rimTreeDeleteF_inv (key : RimStr) (h : t.TreeInv) (hfresh : fresh < addrLimit) (lcurs : RimTreeCursor) :
    (rimTreeDeleteF lcurs t key fresh).1.TreeInv ∧
    SameType t (rimTreeDeleteF lcurs t key fresh).1 ∧
    DeleteOutcome t key fresh (rimTreeDeleteF lcurs t key fresh).1 (rimTreeDeleteF lcurs t key fresh).2 := by
  obtain ⟨dt, ht, htop⟩ := h.top
  have hpt : t.tree.child .lesser = t.rootNode := rfl
  have hp : t.tree ≠ null := by
    rw [htop]
    exact TreeNode.noConfusion
  let c := t.ctx key (-1)
  rcases h.shape with ⟨d, n, hroot, hpres, hlinks⟩ | ⟨hne, hsub⟩
  · -- the empty tree
    have hnodes := nodes_of_empty hroot hpres
    have hkp : keyPresentAt t.rootNode = false := by rw [hroot]; exact hpres
    have hrun : rimTreeDeleteF lcurs t key fresh =
        (t, { t.start lcurs with status := .errExist }) := by
      simp only [rimTreeDeleteF, hkp, Bool.false_eq_true, ↓reduceIte]
    rw [hrun]
    exact ⟨h, ⟨rfl, rfl, rfl, dt, ht, ht, htop, htop⟩,
      .absent (fun _ _ e he => by rw [hnodes] at he; cases he) rfl rfl rfl rfl⟩
  · have hnodes := nodes_of_filled hne hsub
    have hkp : keyPresentAt t.rootNode = true := by
      obtain ⟨d, m, l, g, hroot⟩ := exists_node hne
      rw [hroot]
      exact hsub.present d (by simp [hroot, inorder])
    have hdepth := h.depth_lt hsub.balanced
    obtain ⟨root, hung, hres⟩ := rimTreeDelete_spec (c := c) hsub hne (by omega) t.tree .lesser
      (t.start lcurs) hp hpt
    have hchild : (rimTreeDelete c t.tree .lesser t.rootNode (t.start lcurs)).1.child .lesser = root := hung.child hp
    have hcount := h.count
    rw [hnodes] at hcount
    rcases hres with ⟨habs, hu, hst⟩ | hd
    · -- the key is not there
      have hrun : rimTreeDeleteF lcurs t key fresh =
          (t.finish (rimTreeDelete c t.tree .lesser t.rootNode (t.start lcurs)).1
            { t.start lcurs with status := .errExist }, { t.start lcurs with status := .errExist }) := by
        simp only [rimTreeDeleteF, hkp, ↓reduceIte]
        rw [hchild, isNull_false_iff.mpr (hu.ne_null hne), hst]
        rfl
      obtain ⟨hinv, hsame, hroot', hnodes'⟩ := finish_filled htop hung
        { t.start lcurs with status := .errExist } (hu.ne_null hne) (hu.subtreeInv hsub)
        (by rw [hu.inorder]; exact hcount) (by rw [hu.inorder]; exact h.addrs)
        (by rw [hu.inorder]; exact h.bound)
        (fun hs => by rw [hu.inorder, ← hnodes]; exact h.threaded hs)
      rw [hrun]
      refine ⟨hinv, hsame, .absent ?_ ?_ ?_ rfl rfl⟩
      · exact fun hok ho e he => habs (ctx_valid hok) (hnodes ▸ ho) e (hnodes ▸ he)
      · exact (congrArg inorder hroot').trans hu.inorder
      · exact hnodes'.trans (hu.inorder.trans hnodes.symm)
    · -- an entry leaves
      obtain ⟨I, e, J, K, st₁, hin, hin', ⟨hkey, hfound⟩, hrem, hst⟩ := hd.place
      obtain ⟨gone, hremoves, hcalls, hcount₁, hthread⟩ := removal_removes hrem
      have hcount' : (deletionDone e st₁).count = root.inorder.length := by
        have hlen := hremoves.length (I := I)
        rw [hin'] 
        rw [hin, hlen] at hcount
        have hone : (deletionDone e st₁).count = t.count - 1 := by
          rw [← show st₁.count = t.count from hcount₁]
          rfl
        omega
      have hthread' : t.sorted = true →
          Threaded (deletionDone e st₁).toTreeList (root.inorder.map (·.addr)) := by
        intro hs
        rw [hin']
        refine Threaded.withCount (hthread I hs ?_) _
        rw [← hin, ← hnodes]
        exact h.threaded hs
      by_cases hnull : root = null
      · have hnil : I ++ K = [] := by rw [← hin', hnull]; rfl
        subst hnull
        have hrun : rimTreeDeleteF lcurs t key fresh =
            (t.finish (rimTreeCreateRoot t.sorted fresh
                (rimTreeDelete c t.tree .lesser t.rootNode (t.start lcurs)).1 (deletionDone e st₁)).1
              (rimTreeCreateRoot t.sorted fresh
                (rimTreeDelete c t.tree .lesser t.rootNode (t.start lcurs)).1 (deletionDone e st₁)).2,
              (rimTreeCreateRoot t.sorted fresh
                (rimTreeDelete c t.tree .lesser t.rootNode (t.start lcurs)).1 (deletionDone e st₁)).2) := by
          simp only [rimTreeDeleteF, hkp, ↓reduceIte]
          rw [hchild, hst]
          rfl
        obtain ⟨hinv, hsame, hroot', hnodes'⟩ := finish_empty htop hung (deletionDone e st₁) hfresh
          hcount' hthread'
        rw [hrun]
        refine ⟨hinv, hsame, .removed I e J K gone hin (hnodes.trans hin) hkey hfound hremoves ?_ ?_ rfl rfl ?_⟩
        · rw [if_pos hnil]
          exact hroot'
        · rw [hnil]
          exact hnodes'
        · rw [if_pos hnil]
          exact congrArg (· ++ [.calloc fresh 1 (sizeofTreeNode t.sorted)]) hcalls
      · have hnil : I ++ K ≠ [] := by
          obtain ⟨d, m, l, g, rfl⟩ := exists_node hnull
          rw [← hin']
          simp [inorder]
        have hrun : rimTreeDeleteF lcurs t key fresh =
            (t.finish (rimTreeDelete c t.tree .lesser t.rootNode (t.start lcurs)).1
              (deletionDone e st₁), deletionDone e st₁) := by
          simp only [rimTreeDeleteF, hkp, ↓reduceIte]
          rw [hchild, isNull_false_iff.mpr hnull, hst]
          rfl
        have hroot : SubtreeInv root := by
          refine ⟨hd.below, hd.balanced, fun d hd => ?_⟩
          rw [hin'] at hd
          have hold : ∀ d ∈ I ++ e :: J, d.keyPresent = true := fun d hd => hsub.present d (hin ▸ hd)
          rcases List.mem_append.mp hd with hd | hd
          · exact hold d (List.mem_append_left _ hd)
          · exact hremoves.present (fun d hd => hold d (List.mem_append_right _ hd)) d hd
        obtain ⟨hinv, hsame, hroot', hnodes'⟩ := finish_filled htop hung (deletionDone e st₁) hnull
          hroot hcount' (by rw [hin']; exact hremoves.nodup (hin ▸ h.addrs))
          (fun d hd => by
            rw [hin'] at hd
            obtain ⟨d', hd', ha⟩ := hremoves.mem_addr hd
            rw [← ha]
            exact h.bound d' (hin ▸ hd')) hthread'
        rw [hrun]
        refine ⟨hinv, hsame, .removed I e J K gone hin (hnodes.trans hin) hkey hfound hremoves ?_ ?_ rfl rfl ?_⟩
        · rw [if_neg hnil]
          exact (congrArg inorder hroot').trans hin'
        · exact hnodes'.trans hin'
        · rw [if_neg hnil, List.append_nil]
          exact hcalls

end Delete

end RimTree

end RimStone
