import RimStone.Tree.Cursor
import RimStone.Laws.Tree.Increasing
import RimStone.Lib.Zipper

/-!
# A cursor walks a tree in the order of its keys

What a cursor is for is said of the list of the keys and values: a place in it, from where one goes back and forward
(`walk`). The links of a sorted tree and the searches of the other kind come to the same, since a search for the key of
a node turns at that node. So both kinds answer as the list does.

Where the cursor could not be created, its pointer is what the stack held, and is followed if it is not null. And
`current` repeats the status of the step before, with the current node unchanged if there was none to go to. Runs
without these two answer as `walk` does (`run_walks`).
-/

namespace RimStone

open TreeNode RimStone.Lib

/-! ## Searches from a node -/

section Search

variable {c : TreeCtx}

/-- The search for a lesser key ends at the last node that the key is greater than. -/
theorem lesserLoop_last {n : TreeNode}
    (hmono : n.inorder.Pairwise fun d e => rimTreeCompare c e.key > 0 → rimTreeCompare c d.key > 0)
    (prev : Option Addr) : rimTreeSearchLesserEqualLoop c false n prev =
      (((n.inorder.filter fun d => rimTreeCompare c d.key > 0).getLast?).map (·.addr)).or prev := by
  induction n generalizing prev with
  | null => rfl
  | node d h l g ihl ihg =>
    obtain ⟨hl, hdg, hlg⟩ := List.pairwise_append.mp hmono
    obtain ⟨hd, hg⟩ := List.pairwise_cons.mp hdg
    rw [rimTreeSearchLesserEqualLoop, inorder, List.filter_append]
    dsimp only
    rw [if_neg (fun h => Bool.false_ne_true h.2)]
    by_cases hpos : rimTreeCompare c d.key > 0
    · -- all nodes before are below the key too
      rw [if_neg (by omega : ¬ rimTreeCompare c d.key = 0), if_neg (by omega), ihg hg,
        List.filter_cons_of_pos (by simpa using hpos),
        List.getLast?_append_cons]
      cases hlast : (g.inorder.filter fun d => rimTreeCompare c d.key > 0).getLast? with
      | none =>
        rw [List.getLast?_eq_none_iff.mp hlast]
        rfl
      | some e =>
        rw [List.getLast?_cons, hlast]
        rfl
    · -- no node behind is
      have hnone : (d :: g.inorder).filter (fun d => rimTreeCompare c d.key > 0) = [] := by
        rw [List.filter_eq_nil_iff]
        intro e he hpe
        obtain rfl | he := List.mem_cons.mp he
        · exact hpos (by simpa using hpe)
        · exact hpos (hd e he (by simpa using hpe))
      rw [hnone, List.append_nil]
      split
      next => rw [if_pos (by omega), ihl hl]
      next => rw [if_pos (by omega), ihl hl]

/-- The search for a greater key ends at the first node that the key is lesser than. -/
theorem greaterLoop_first {n : TreeNode}
    (hmono : n.inorder.Pairwise fun d e => rimTreeCompare c d.key < 0 → rimTreeCompare c e.key < 0)
    (prev : Option Addr) : rimTreeSearchGreaterEqualLoop c false n prev =
      (((n.inorder.filter fun d => rimTreeCompare c d.key < 0).head?).map (·.addr)).or prev := by
  induction n generalizing prev with
  | null => rfl
  | node d h l g ihl ihg =>
    obtain ⟨hl, hdg, hlg⟩ := List.pairwise_append.mp hmono
    obtain ⟨hd, hg⟩ := List.pairwise_cons.mp hdg
    rw [rimTreeSearchGreaterEqualLoop, inorder, List.filter_append]
    dsimp only
    rw [if_neg (fun h => Bool.false_ne_true h.2)]
    by_cases hneg : rimTreeCompare c d.key < 0
    · rw [if_neg (by omega : ¬ rimTreeCompare c d.key = 0), if_pos hneg, ihl hl,
      List.filter_cons_of_pos (by simpa using hneg)]
      cases hfirst : (l.inorder.filter fun d => rimTreeCompare c d.key < 0) with
      | nil => rfl
      | cons e rest => rfl
    · have hnone : l.inorder.filter (fun d => rimTreeCompare c d.key < 0) = [] := by
        rw [List.filter_eq_nil_iff]
        intro e he hne
        exact hneg (hlg e he d (List.mem_cons_self ..) (by simpa using hne))
      rw [hnone, List.nil_append, List.filter_cons_of_neg (by simpa using hneg)]
      split
      next => exact ihg hg prev
      next => exact ihg hg prev

end Search

namespace RimTree

variable {t : RimTree} {I J : List NodeData} {d : NodeData}

/-! ## The neighbours of a node -/

/-- The key of a node is greater than those before it and lesser than those after it. -/
theorem Increasing.sides (h : t.Increasing) (hn : t.nodes = I ++ d :: J) :
    (∀ e ∈ I, rimTreeCompare (t.ctx d.key (-1)) e.key > 0) ∧ ∀ e ∈ J, rimTreeCompare (t.ctx d.key (-1)) e.key < 0 := by
  unfold Increasing at h
  rw [hn] at h
  obtain ⟨-, hdJ, hI⟩ := List.pairwise_append.mp h
  obtain ⟨hd, -⟩ := List.pairwise_cons.mp hdJ
  exact ⟨fun e he => keyBelow_iff_pos.mp (hI e he d (List.mem_cons_self ..)), hd⟩

theorem Increasing.filter_lesser (h : t.Increasing) (hn : t.nodes = I ++ d :: J) :
    t.nodes.filter (fun e => rimTreeCompare (t.ctx d.key (-1)) e.key > 0) = I := by
  obtain ⟨hI, hJ⟩ := h.sides hn
  have hself := t.compare_self d.key
  have hkeep : I.filter (fun e => rimTreeCompare (t.ctx d.key (-1)) e.key > 0) = I :=
    List.filter_eq_self.mpr fun e he => decide_eq_true (hI e he)
  have hdrop : J.filter (fun e => rimTreeCompare (t.ctx d.key (-1)) e.key > 0) = [] := by
    refine List.filter_eq_nil_iff.mpr fun e he hpos => ?_
    have hneg := hJ e he
    have hpos := of_decide_eq_true hpos
    omega
  rw [hn, List.filter_append, List.filter_cons_of_neg (by simp [hself]), hkeep, hdrop, List.append_nil]

theorem Increasing.filter_greater (h : t.Increasing) (hn : t.nodes = I ++ d :: J) :
    t.nodes.filter (fun e => rimTreeCompare (t.ctx d.key (-1)) e.key < 0) = J := by
  obtain ⟨hI, hJ⟩ := h.sides hn
  have hself := t.compare_self d.key
  have hkeep : J.filter (fun e => rimTreeCompare (t.ctx d.key (-1)) e.key < 0) = J :=
    List.filter_eq_self.mpr fun e he => decide_eq_true (hJ e he)
  have hdrop : I.filter (fun e => rimTreeCompare (t.ctx d.key (-1)) e.key < 0) = [] := by
    refine List.filter_eq_nil_iff.mpr fun e he hneg => ?_
    have hpos := hI e he
    have hneg := of_decide_eq_true hneg
    omega
  rw [hn, List.filter_append, List.filter_cons_of_neg (by simp [hself]), hkeep, hdrop, List.nil_append]

/-- The search for a lesser key than that of a node finds the node before. -/
theorem CursorTree.search_lesser (h : t.CursorTree) (hn : t.nodes = I ++ d :: J) (lcurs : RimTreeCursor) :
    t.rimTreeSearchLesserEqualF lcurs false d.key (-1) = lcurs.found (I.getLast?.map (·.addr)) := by
  unfold rimTreeSearchLesserEqualF rimTreeSearchLesserEqual
  obtain ⟨hnil, -⟩ | ⟨-, -, hroot, hpres⟩ := h.inv.cases_nodes
  · rw [hn] at hnil
    exact absurd hnil (by simp)
  · have hmono : t.rootNode.inorder.Pairwise fun e f =>
        rimTreeCompare (t.ctx d.key (-1)) f.key > 0 → rimTreeCompare (t.ctx d.key (-1)) e.key > 0 := by
      rw [← hroot]
      exact h.increasing.imp fun hef hf => keyBelow_iff_pos.mp (hef.trans (keyBelow_iff_pos.mpr hf))
    rw [hpres, if_pos rfl, lesserLoop_last hmono, ← hroot, h.increasing.filter_lesser hn, Option.or_none]

theorem CursorTree.search_greater (h : t.CursorTree) (hn : t.nodes = I ++ d :: J) (lcurs : RimTreeCursor) :
    t.rimTreeSearchGreaterEqualF lcurs false d.key (-1) = lcurs.found (J.head?.map (·.addr)) := by
  unfold rimTreeSearchGreaterEqualF rimTreeSearchGreaterEqual
  obtain ⟨hnil, -⟩ | ⟨-, -, hroot, hpres⟩ := h.inv.cases_nodes
  · rw [hn] at hnil
    exact absurd hnil (by simp)
  · have hmono : t.rootNode.inorder.Pairwise fun e f =>
        rimTreeCompare (t.ctx d.key (-1)) e.key < 0 → rimTreeCompare (t.ctx d.key (-1)) f.key < 0 := by
      rw [← hroot]
      exact h.increasing.imp fun hef he => KeyBelow.trans (t := t) he hef
    rw [hpres, if_pos rfl, greaterLoop_first hmono, ← hroot, h.increasing.filter_greater hn, Option.or_none]

/-- The links of a node in a sorted tree. -/
theorem CursorTree.links (h : t.CursorTree) (hs : t.sorted = true) (hn : t.nodes = I ++ d :: J) :
    t.lesserOf d.addr = I.getLast?.map (·.addr) ∧ t.greaterOf d.addr = J.head?.map (·.addr) := by
  have hlist := h.inv.threaded hs
  rw [hn, List.map_append, List.map_cons] at hlist
  refine ⟨?_, ?_⟩
  · rw [DList.prev_eq hlist, List.getLast?_map]
  · rw [DList.next_eq hlist, List.head?_map]

end RimTree

theorem follow_eq (lcurs : RimTreeCursor) (o : Option Addr) : CursorState.follow lcurs o = lcurs.found o := by
  cases o <;> rfl

/-! ## The walk -/

def CursorMove.walk {α : Type} : CursorMove → Zipper α → Option (Zipper α)
  | .current, z => some z
  | .getLesser, z => z.back
  | .getGreater, z => z.forward

theorem CursorMove.walk_map {α β : Type} (move : CursorMove) (f : α → β) (z : Zipper α) :
    move.walk (z.map f) = (move.walk z).map (Zipper.map f) := by
  cases move with
  | current => rfl
  | getLesser => exact Zipper.back_map f z
  | getGreater => exact Zipper.forward_map f z

theorem CursorMove.toList_walk {α : Type} {move : CursorMove} {z z' : Zipper α} (h : move.walk z = some z') :
    z'.toList = z.toList := by
  cases move with
  | current =>
    obtain rfl := Option.some.inj h
    rfl
  | getLesser => exact Zipper.toList_back h
  | getGreater => exact Zipper.toList_forward h

def CursorStmt.absent (stmt : CursorStmt) : CursorAnswer :=
  { status := .errExist, read := none, reports := !stmt.withStatus }

/-- What `update-value` makes of a key and its value. -/
def CursorStmt.written (stmt : CursorStmt) (e : RimStr × Addr) : RimStr × Addr := (e.1, stmt.update.getD e.2)

/-- What a cursor is for: a place in the list of the keys and values, or none if it could not be created. -/
def walk (place : Option (Zipper (RimStr × Addr))) (stmt : CursorStmt) :
    Option (Zipper (RimStr × Addr)) × Option CursorAnswer :=
  match place with
  | none => (none, some stmt.absent)
  | some z =>
    match stmt.move.walk z with
    | none => (some z, some stmt.absent)
    | some z' => (some (z'.modify stmt.written), some { status := .okay, read := some z'.here, reports := false })

def NodeData.entry (d : NodeData) : RimStr × Addr := (d.key, d.data)

namespace CursorState

variable {s s' : CursorState} {t : RimTree} {I J : List NodeData} {d : NodeData}

/-- One statement and its answer. Where a pointer to no node is followed there is no answer. -/
def Step (s : CursorState) (ev : CursorStmt × Option CursorAnswer) (s' : CursorState) : Prop :=
  ev.2 = (s.useCursor ev.1).map (·.2) ∧ s' = ((s.useCursor ev.1).map (·.1)).getD s

/-- Where a cursor that was created is moved. -/
theorem moved_at (h : t.CursorTree) (hn : t.nodes = I ++ d :: J) {lcurs : RimTreeCursor}
    (hcur : lcurs.current = some d.addr)
    {move : CursorMove} (hguard : move = .current → lcurs.status = .okay) :
    moved t lcurs move = some (lcurs.found ((move.walk (.split I d J)).map (·.here.addr))) := by
  have hderef : t.deref d.addr = some d := h.inv.deref_node (by rw [hn]; simp)
  cases move with
  | current =>
    have hstatus := hguard rfl
    obtain ⟨current, status, res⟩ := lcurs
    obtain rfl : current = some d.addr := hcur
    obtain rfl : status = .okay := hstatus
    rfl
  | getLesser =>
    have hback : ((Zipper.split I d J).back).map (·.here.addr) = I.getLast?.map (·.addr) := by
      obtain rfl | ⟨I, e, rfl⟩ := I.eq_nil_or_concat
      · rfl
      · rw [List.concat_eq_append, Zipper.back_split_concat, List.getLast?_concat]
        rfl
    unfold moved
    rw [hcur]
    dsimp only [CursorMove.walk]
    rw [hderef, hback]
    refine congrArg some ?_
    split_ifs with hs
    · rw [follow_eq, (h.links hs hn).1]
    · exact h.search_lesser hn lcurs
  | getGreater =>
    have hforward : ((Zipper.split I d J).forward).map (·.here.addr) = J.head?.map (·.addr) := by
      cases J <;> rfl
    unfold moved
    rw [hcur]
    dsimp only [CursorMove.walk]
    rw [hderef, hforward]
    refine congrArg some ?_
    split_ifs with hs
    · rw [follow_eq, (h.links hs hn).2]
    · exact h.search_greater hn lcurs

/-- Where a cursor is in the list of the keys and values. One that could not be created is nowhere. -/
inductive At (t : RimTree) (s : CursorState) : Option (Zipper (RimStr × Addr)) → Prop
  | nowhere (htree : s.tree = t) (hstatus : s.lcurs.status = .errExist) : At t s none
  | place (I : List NodeData) (d : NodeData) (J : List NodeData) (htree : s.tree.CursorTree)
      (hnodes : s.tree.nodes = I ++ d :: J) (hcurrent : s.lcurs.current = some d.addr) :
      At t s (some ((Zipper.split I d J).map NodeData.entry))

/-- When a statement does what it is for. `made` says whether the cursor could be created. -/
def Guard (made : Prop) (s : CursorState) (ev : CursorStmt × Option CursorAnswer) : Prop :=
  (made → ev.1.move = .current → s.lcurs.status = .okay) ∧
    (¬ made → ev.1.move ≠ .current → s.lcurs.current = none)

/-- A cursor that could not be created answers that there is no node, while its pointer is null. -/
theorem useCursor_nowhere (stmt : CursorStmt) (hstatus : s.lcurs.status = .errExist)
    (hguard : stmt.move ≠ .current → s.lcurs.current = none) :
    s.useCursor stmt = some (s, stmt.absent) := by
  have hmoved : moved s.tree s.lcurs stmt.move = some s.lcurs := by
    cases hmove : stmt.move with
    | current => rfl
    | getLesser =>
      unfold moved
      rw [hguard (by rw [hmove]; exact CursorMove.noConfusion)]
    | getGreater =>
      unfold moved
      rw [hguard (by rw [hmove]; exact CursorMove.noConfusion)]
  have herr : ¬ s.lcurs.status = .okay := by
    rw [hstatus]
    exact RimStatus.noConfusion
  unfold useCursor CursorStmt.absent
  rw [hmoved, Option.bind_eq_bind, Option.bind_some, if_neg herr, hstatus]

/-- A cursor at a place goes where the walk goes, and answers as it does. -/
theorem useCursor_place (h : s.tree.CursorTree) (hn : s.tree.nodes = I ++ d :: J)
    (hcur : s.lcurs.current = some d.addr) (stmt : CursorStmt)
    (hguard : stmt.move = .current → s.lcurs.status = .okay) :
    ∃ s' answer, s.useCursor stmt = some (s', answer) ∧
      At t s' (walk (some ((Zipper.split I d J).map NodeData.entry)) stmt).1 ∧
      some answer = (walk (some ((Zipper.split I d J).map NodeData.entry)) stmt).2 := by
  have hmoved := moved_at h hn hcur hguard
  unfold useCursor walk
  rw [hmoved, Option.bind_eq_bind, Option.bind_some]
  dsimp only
  rw [CursorMove.walk_map]
  cases hwalk : stmt.move.walk (Zipper.split I d J) with
  | none =>
    have herr : ¬ (s.lcurs.found none).status = .okay := RimStatus.noConfusion
    rw [Option.map_none, if_neg herr]
    exact ⟨_, _, rfl, .place I d J h hn hcur, rfl⟩
  | some z =>
    obtain ⟨I', J', hz⟩ := z.exists_split
    have hn' : s.tree.nodes = I' ++ z.here :: J' := by
      rw [hn, ← Zipper.toList_split, ← CursorMove.toList_walk hwalk, hz, Zipper.toList_split]
      rw [← hz]
    have hderef : s.tree.deref z.here.addr = some z.here := h.inv.deref_node (by rw [hn']; simp)
    have hok : (s.lcurs.found (some z.here.addr)).status = .okay := rfl
    have hcurrent : (s.lcurs.found (some z.here.addr)).current = some z.here.addr := rfl
    rw [Option.map_some, Option.map_some, if_pos hok, hcurrent, Option.bind_eq_bind, Option.bind_some, hderef,
      Option.bind_eq_bind, Option.bind_some]
    refine ⟨_, _, rfl, ?_, rfl⟩
    dsimp only
    rw [hz]
    cases hupd : stmt.update with
    | none =>
      have hwritten : stmt.written = id := by
        ext e : 1
        unfold CursorStmt.written
        rw [hupd]
        rfl
      rw [hwritten]
      exact .place I' z.here J' h hn' hcurrent
    | some upd =>
      have hplace : (((Zipper.split I' z.here J').map NodeData.entry).modify stmt.written) =
          (Zipper.split I' { z.here with data := upd } J').map NodeData.entry := by
        unfold CursorStmt.written
        rw [hupd]
        rfl
      rw [hplace]
      refine .place I' _ J' ⟨RimTree.setData_inv h.inv, RimTree.setData_increasing h.increasing _ _⟩ ?_ hcurrent
      exact RimTree.setData_nodes_at h.inv hn'

/-- One statement, where its condition is met, answers as the walk does. -/
theorem step_walks {made : Prop} {ev : CursorStmt × Option CursorAnswer} {place : Option (Zipper (RimStr × Addr))}
    (hat : At t s place) (hmade : place.isSome ↔ made) (hguard : Guard made s ev) (hstep : s.Step ev s') :
    ev.2 = (walk place ev.1).2 ∧ At t s' (walk place ev.1).1 ∧ ((walk place ev.1).1.isSome ↔ made) := by
  obtain ⟨stmt, answer⟩ := ev
  obtain ⟨hanswer, hnext⟩ := hstep
  cases hat with
  | nowhere htree hstatus =>
    have hnot : ¬ made := fun h => Bool.false_ne_true (hmade.mpr h)
    have hrun := useCursor_nowhere stmt hstatus (hguard.2 hnot)
    dsimp only at hanswer hnext
    rw [hrun] at hanswer hnext
    obtain rfl : s' = s := hnext
    exact ⟨hanswer, .nowhere htree hstatus, hmade⟩
  | place I d J htree hnodes hcurrent =>
    obtain ⟨s₁, answer₁, hrun, hat, hwalk⟩ :=
      useCursor_place (t := t) htree hnodes hcurrent stmt (hguard.1 (hmade.mp rfl))
    dsimp only at hanswer hnext
    rw [hrun] at hanswer hnext
    obtain rfl : s' = s₁ := hnext
    refine ⟨hanswer.trans hwalk, hat, iff_of_true ?_ (hmade.mp rfl)⟩
    unfold walk
    dsimp only
    split <;> rfl

end CursorState

/-! ## How a cursor is created -/

namespace RimTree

variable {t t' : RimTree} {garbage lcurs : RimTreeCursor} {key : RimStr} {data fresh : Addr}

/-- What a clause finds does not depend on what was in the cursor before. -/
theorem fill_eq (h : t.TreeInv) (q : TreeQuery) (garbage : RimTreeCursor) :
    ∃ o, q.run t = RimTreeCursor.found {} o ∧ q.fill t garbage = garbage.found o := by
  cases q with
  | equal key => exact ⟨_, rfl, rfl⟩
  | lesser orEqual key => exact ⟨_, rfl, rfl⟩
  | greater orEqual key => exact ⟨_, rfl, rfl⟩
  | minKey => exact ⟨_, (h.ends {}).1, (h.ends garbage).1⟩
  | maxKey => exact ⟨_, (h.ends {}).2, (h.ends garbage).2⟩

/-- A cursor from `read-tree` points to a node, if the status says so. -/
theorem fill_node (h : t.TreeInv) (q : TreeQuery) (garbage : RimTreeCursor) :
    (∃ d ∈ t.nodes, q.fill t garbage = garbage.found (some d.addr)) ∨ q.fill t garbage = garbage.found none := by
  obtain ⟨o, hrun, hfill⟩ := fill_eq h q garbage
  cases o with
  | none => exact Or.inr hfill
  | some a =>
    obtain ⟨d, hd, hcur⟩ := query_node h q (by rw [hrun]; rfl)
    rw [hrun] at hcur
    obtain rfl := Option.some.inj hcur
    exact Or.inl ⟨d, hd, hfill⟩

/-- A leaf that was added is the current node. -/
theorem rimTreeInsertLeaf_current (c : TreeCtx) (a : Addr) (side : Dir) (st : TreeSt) :
    (rimTreeInsertLeaf c fresh data a side st).2.current = some fresh := by
  cases hs : c.sorted <;> cases side <;>
    simp [rimTreeInsertLeaf, rimTreeInsertHere, rimTreeNodeCreate, TreeSt.withList, TreeSt.call, hs, NodeData.zero]

/-- A cursor from `write-tree` points to the new node, if the status says so. -/
theorem rimTreeInsertF_node (h : t.TreeInv) (hfresh : t.Fresh fresh) (garbage : RimTreeCursor)
    (hok : (rimTreeInsertF garbage t key (-1) data fresh).2.status = .okay) :
    ∃ d ∈ (rimTreeInsertF garbage t key (-1) data fresh).1.nodes,
      (rimTreeInsertF garbage t key (-1) data fresh).2.current = some d.addr := by
  obtain ⟨-, -, hout⟩ := rimTreeInsertF_inv key data h hfresh garbage
  obtain ⟨d, n, hroot, hpres, -⟩ | ⟨hne, hsub⟩ := h.shape
  · -- the root is filled
    have hcur : (rimTreeInsertF garbage t key (-1) data fresh).2.current = some d.addr := by
      simp only [rimTreeInsertF, hroot, rimTreeInsert, hpres, ↓reduceIte]
      rfl
    have hone : t.rootNode.inorder = [d] := by
      rw [hroot]
      rfl
    cases hout with
    | exist e he hkey hfound hroot₁ hnodes hstatus hcalls =>
      rw [hstatus] at hok
      cases hok
    | first d₁ hroot₁ hnodes hroot' hnodes' hstatus hcalls =>
      obtain rfl : d = d₁ := List.singleton_injective (hone.symm.trans hroot₁)
      refine ⟨⟨d.addr, key, data, true⟩, ?_, hcur⟩
      rw [hnodes']
      exact List.mem_singleton_self _
    | leaf I J hroot₁ hnodes hroot' hnodes' hbetween hstatus hcalls =>
      rw [nodes_of_empty hroot hpres] at hnodes
      rw [hone, ← hnodes] at hroot₁
      cases hroot₁
  · -- a leaf joins
    have hp : t.tree ≠ null := by
      obtain ⟨top, k, htop⟩ := h.top
      rw [htop]
      exact TreeNode.noConfusion
    have hcur : (rimTreeInsertF garbage t key (-1) data fresh).2.current = some fresh := by
      obtain ⟨root, -, ⟨-, -, hst⟩ | hi⟩ := rimTreeInsert_spec (c := t.ctx key (-1)) fresh data hsub hne
        (h.depth_lt hsub.balanced) t.tree .lesser ((t.start garbage).call [.addRef key.addr]) hp rfl
      · have hstatus := congrArg (·.status) hst
        exact absurd (hstatus.symm.trans hok) RimStatus.noConfusion
      · obtain ⟨I, J, a, side, -, -, -, -, hst⟩ := hi.place
        exact (congrArg (·.current) hst).trans (rimTreeInsertLeaf_current _ a side _)
    cases hout with
    | exist e he hkey hfound hroot₁ hnodes hstatus hcalls =>
      rw [hstatus] at hok
      cases hok
    | first d₁ hroot₁ hnodes hroot' hnodes' hstatus hcalls =>
      rw [nodes_of_filled hne hsub, hroot₁] at hnodes
      cases hnodes
    | leaf I J hroot₁ hnodes hroot' hnodes' hbetween hstatus hcalls =>
      refine ⟨⟨fresh, key, data, true⟩, ?_, hcur⟩
      rw [hnodes']
      exact List.mem_append_right _ (List.mem_cons_self ..)

/-- An insertion either finds the key or adds it. -/
theorem rimTreeInsertF_status (key : RimStr) (data : Addr) (h : t.TreeInv) (hfresh : t.Fresh fresh)
    (garbage : RimTreeCursor) :
    (rimTreeInsertF garbage t key (-1) data fresh).2.status = .okay ∨
      (rimTreeInsertF garbage t key (-1) data fresh).2.status = .errExist := by
  obtain ⟨-, -, hout⟩ := rimTreeInsertF_inv key data h hfresh garbage
  cases hout with
  | exist e he hkey hfound hroot hnodes hstatus hcalls => exact Or.inr hstatus
  | first d hroot hnodes hroot' hnodes' hstatus hcalls => exact Or.inl hstatus
  | leaf I J hroot hnodes hroot' hnodes' hbetween hstatus hcalls => exact Or.inl hstatus

/-- A cursor that `read-tree` or `write-tree` made on a tree, from what was in its memory: the cursor, and the tree
after the statement. -/
inductive Cursor (t : RimTree) (garbage : RimTreeCursor) : RimTreeCursor → RimTree → Prop
  | read (q : TreeQuery) : Cursor t garbage (q.fill t garbage) t
  | readUpdate (q : TreeQuery) {a : Addr} (hok : (q.fill t garbage).status = .okay)
      (hcurrent : (q.fill t garbage).current = some a) (upd : Addr) :
        Cursor t garbage (q.fill t garbage) (t.setData a upd)
  | write (key : RimStr) (data : Addr) {fresh : Addr} (hfresh : t.Fresh fresh) :
      Cursor t garbage (rimTreeInsertF garbage t key (-1) data fresh).2.toRimTreeCursor
        (rimTreeInsertF garbage t key (-1) data fresh).1

/-- A cursor is in a place if the statement that made it succeeded, and else nowhere. -/
theorem Cursor.at (hc : t.Cursor garbage lcurs t') (h : t.CursorTree) :
    ∃ place, CursorState.At t' { tree := t', lcurs } place ∧ (place.isSome ↔ lcurs.status = .okay) := by
  -- at a node of the tree
  have hplace : t'.CursorTree → ∀ d ∈ t'.nodes, lcurs.status = .okay → lcurs.current = some d.addr →
      ∃ place, CursorState.At t' { tree := t', lcurs } place ∧ (place.isSome ↔ lcurs.status = .okay) := by
    intro h' d hd hok hcur
    obtain ⟨I, J, hn⟩ := List.append_of_mem hd
    exact ⟨_, .place I d J h' hn hcur, iff_of_true rfl hok⟩
  have hnowhere : lcurs.status = .errExist →
      ∃ place, CursorState.At t' { tree := t', lcurs } place ∧ (place.isSome ↔ lcurs.status = .okay) := by
    intro herr
    refine ⟨none, .nowhere rfl herr, iff_of_false Bool.false_ne_true ?_⟩
    rw [herr]
    exact RimStatus.noConfusion
  cases hc with
  | read q =>
    obtain ⟨d, hd, hfill⟩ | hfill := fill_node h.inv q garbage
    · rw [hfill] at hplace ⊢
      exact hplace h d hd rfl rfl
    · rw [hfill] at hnowhere ⊢
      exact hnowhere rfl
  | readUpdate q hok hcurrent upd =>
    obtain ⟨d, hd, hfill⟩ | hfill := fill_node h.inv q garbage
    · rw [hfill] at hcurrent
      obtain rfl := Option.some.inj hcurrent
      refine hplace ⟨setData_inv h.inv, setData_increasing h.increasing _ _⟩ (withData d.addr upd d) ?_ hok ?_
      · rw [setData_nodes]
        exact List.mem_map_of_mem hd
      · rw [withData_addr, hfill]
        rfl
    · rw [hfill] at hok
      cases hok
  | write key data hfresh =>
    have h' : (rimTreeInsertF garbage t key (-1) data _).1.CursorTree :=
      ⟨(rimTreeInsertF_inv key data h.inv hfresh garbage).1, rimTreeInsertF_increasing h.inv h.increasing hfresh garbage⟩
    obtain hok | herr := rimTreeInsertF_status key data h.inv hfresh garbage
    · obtain ⟨d, hd, hcur⟩ := rimTreeInsertF_node h.inv hfresh garbage hok
      exact hplace h' d hd hok hcur
    · exact hnowhere herr

end RimTree

/-! ## What the key and the value of a place look like -/

/-- The bytes of a key, with its value or without. -/
def seen (values : Bool) (e : RimStr × Addr) : Bytes × Option Addr := (e.1.bytes, if values then some e.2 else none)

def CursorAnswer.seen (values : Bool) (a : CursorAnswer) : RimStatus × Option (Bytes × Option Addr) × Bool :=
  (a.status, a.read.map (RimStone.seen values), a.reports)

theorem seen_written {values : Bool} {e e' : RimStr × Addr} (h : seen values e = seen values e') (stmt : CursorStmt) :
    seen values (stmt.written e) = seen values (stmt.written e') := by
  obtain ⟨hkey, hvalue⟩ := Prod.mk.inj h
  unfold seen CursorStmt.written
  refine Prod.ext hkey ?_
  cases values with
  | false => rfl
  | true =>
    obtain hvalue := Option.some.inj hvalue
    dsimp only
    rw [hvalue]

/-- Walks over lists that look alike, from the same place, look alike. -/
theorem walk_seen {values : Bool} {place place' : Option (Zipper (RimStr × Addr))} {stmt : CursorStmt}
    (h : place.map (Zipper.map (seen values)) = place'.map (Zipper.map (seen values))) :
    ((walk place stmt).2.map (CursorAnswer.seen values) = (walk place' stmt).2.map (CursorAnswer.seen values)) ∧
      (walk place stmt).1.map (Zipper.map (seen values)) = (walk place' stmt).1.map (Zipper.map (seen values)) := by
  cases place with
  | none =>
    obtain rfl := Option.map_eq_none_iff.mp h.symm
    exact ⟨rfl, rfl⟩
  | some z =>
    obtain ⟨z', rfl, hz⟩ := Option.map_eq_some_iff.mp h.symm
    have hwalk : (stmt.move.walk z').map (Zipper.map (seen values)) =
      (stmt.move.walk z).map (Zipper.map (seen values)) := by
      rw [← CursorMove.walk_map, ← CursorMove.walk_map, hz]
    unfold walk
    dsimp only
    cases hnext : stmt.move.walk z with
    | none =>
      rw [hnext] at hwalk
      rw [Option.map_eq_none_iff.mp hwalk]
      exact ⟨rfl, h⟩
    | some y =>
      rw [hnext] at hwalk
      obtain ⟨y', hy', hy⟩ := Option.map_eq_some_iff.mp hwalk
      rw [hy']
      have hhere : seen values y'.here = seen values y.here := congrArg Zipper.here hy
      have hbefore : y'.before.map (seen values) = y.before.map (seen values) := congrArg Zipper.before hy
      have hafter : y'.after.map (seen values) = y.after.map (seen values) := congrArg Zipper.after hy
      refine ⟨?_, ?_⟩
      · unfold CursorAnswer.seen
        dsimp only [Option.map_some]
        rw [hhere]
      · dsimp only [Option.map_some, Zipper.map, Zipper.modify]
        rw [hbefore, hafter, seen_written hhere]

/-! ## Over runs -/

namespace CursorState

variable {t t' : RimTree} {garbage lcurs : RimTreeCursor} {s : CursorState}
  {evs : List (CursorStmt × Option CursorAnswer)}

abbrev GoodRun (t : RimTree) (lcurs : RimTreeCursor) (evs : List (CursorStmt × Option CursorAnswer)) (s : CursorState) :
    Prop :=
  GuardedRun Step (Guard (lcurs.status = .okay)) { tree := t, lcurs } evs s

/-- A run from a place answers as the walk does. -/
theorem GoodRun.answers {place : Option (Zipper (RimStr × Addr))} (hrun : GoodRun t' lcurs evs s)
    (hat : At t' { tree := t', lcurs } place) (hmade : place.isSome ↔ lcurs.status = .okay) :
    ∃ place', Lib.Answers walk place evs place' ∧ At t' s place' := by
  obtain ⟨place', hanswers, hlast, -⟩ := GuardedRun.answers
    (R := fun s place => At t' s place ∧ (place.isSome ↔ lcurs.status = .okay))
    (fun hR hguard hstep => step_walks hR.1 hR.2 hguard hstep) hrun ⟨hat, hmade⟩
  exact ⟨place', hanswers, hlast⟩

/-- A cursor on any tree walks the keys in their order: the statements answer as a place in the list of the keys and values
does, and change the tree as they change that list. A cursor on another tree, sorted or not, at the same place of the same
keys, gives the same answers. -/
theorem run_walks (ht : t.Made) (hc : t.Cursor garbage lcurs t') (hrun : GoodRun t' lcurs evs s) :
    ∃ place, At t' { tree := t', lcurs } place ∧ (place.isSome ↔ lcurs.status = .okay) ∧
      (∃ place', Lib.Answers walk place evs place' ∧ At t' s place') ∧
      ∀ (values : Bool) (u : RimTree) (lcurs' : RimTreeCursor) (s' : CursorState)
        (evs' : List (CursorStmt × Option CursorAnswer)) (other : Option (Zipper (RimStr × Addr))),
        At u { tree := u, lcurs := lcurs' } other → (other.isSome ↔ lcurs'.status = .okay) →
        place.map (Zipper.map (seen values)) = other.map (Zipper.map (seen values)) →
        GoodRun u lcurs' evs' s' → evs'.map (·.1) = evs.map (·.1) →
        evs'.map (fun ev => ev.2.map (CursorAnswer.seen values)) =
          evs.map (fun ev => ev.2.map (CursorAnswer.seen values)) := by
  obtain ⟨place, hat, hmade⟩ := hc.at ht.cursorTree
  obtain ⟨place', hanswers, hlast⟩ := hrun.answers hat hmade
  refine ⟨place, hat, hmade, ⟨place', hanswers, hlast⟩, ?_⟩
  intro values u lcurs' s' evs' other hat' hmade' hseen hrun' hsame
  obtain ⟨other', hanswers', -⟩ := hrun'.answers hat' hmade'
  exact hanswers.alike (fun g h => g.map (Zipper.map (seen values)) = h.map (Zipper.map (seen values)))
    (fun h => walk_seen h) hanswers' hseen hsame

def oneKey (sorted : Bool) : RimTree :=
  (RimTree.rimTreeInsertF {} (RimTree.rimTreeCreate .str sorted false 1 2) ⟨11, [97]⟩ (-1) 12 3).1

def twoKeys (sorted : Bool) : RimTree := (RimTree.rimTreeInsertF {} (oneKey sorted) ⟨13, [98]⟩ (-1) 14 4).1

theorem oneKey_made (sorted : Bool) : (oneKey sorted).Made :=
  .step (.insert {} ⟨11, [97]⟩ 12 3) (.create .str sorted false 1 (by decide))
    ⟨by cases sorted <;> decide, rfl⟩

theorem twoKeys_made (sorted : Bool) : (twoKeys sorted).Made :=
  .step (.insert {} ⟨13, [98]⟩ 14 4) (oneKey_made sorted) ⟨by cases sorted <;> decide, rfl⟩

/-- From the first of two keys to the second, which is given another value. -/
theorem run_walks_twoKeys : ∃ place place' evs,
    evs.map (·.1) = [{ move := .getGreater }, { move := .current, update := some 20 }] ∧
      Lib.Answers walk place evs place' := by
  have hrun : ∃ evs s, GoodRun (twoKeys true) (TreeQuery.minKey.fill (twoKeys true) { current := some 99 }) evs s ∧
      evs.map (·.1) = [{ move := .getGreater }, { move := .current, update := some 20 }] := by
    refine ⟨[({ move := .getGreater }, some ⟨.okay, some (⟨13, [98]⟩, 14), false⟩),
        ({ move := .current, update := some 20 }, some ⟨.okay, some (⟨13, [98]⟩, 14), false⟩)], _,
      .cons ⟨fun _ h => ?_, fun h _ => absurd rfl h⟩ ⟨rfl, rfl⟩
        (.cons ⟨fun _ _ => rfl, fun h _ => absurd rfl h⟩ ⟨rfl, rfl⟩ (.nil _)), rfl⟩
    cases h
  obtain ⟨evs, s, hrun, hstmts⟩ := hrun
  obtain ⟨place, -, -, ⟨place', hanswers, -⟩, -⟩ := run_walks (twoKeys_made true) (.read .minKey) hrun
  exact ⟨place, place', evs, hstmts, hanswers⟩

/-- The only node, the one before it that is not there, and the current one: that is not there either. -/
theorem not_run_walks_current : ¬ ∀ (t t' : RimTree) (garbage lcurs : RimTreeCursor)
    (evs : List (CursorStmt × Option CursorAnswer)) (s : CursorState), t.Made → t.Cursor garbage lcurs t' →
    Run Step { tree := t', lcurs } evs s →
    ∃ place, At t' { tree := t', lcurs } place ∧ (place.isSome ↔ lcurs.status = .okay) ∧
      ∃ place', Lib.Answers walk place evs place' := by
  intro h
  have hrun : ∃ s, Run Step { tree := oneKey true, lcurs := TreeQuery.minKey.fill (oneKey true) {} }
      [({ move := .getLesser }, some ⟨.errExist, none, false⟩),
        ({ move := .current }, some ⟨.errExist, none, false⟩)] s :=
    ⟨_, .cons trivial ⟨rfl, rfl⟩ (.cons trivial ⟨rfl, rfl⟩ (.nil _))⟩
  obtain ⟨s, hrun⟩ := hrun
  obtain ⟨place, -, hmade, place', hfirst, hsecond, -⟩ := h _ _ _ _ _ s (oneKey_made true) (.read .minKey) hrun
  obtain ⟨z, rfl⟩ := Option.isSome_iff_exists.mp (hmade.mpr rfl)
  -- the walk is still at a node
  have hstay : (walk (some z) { move := .getLesser }).1.isSome := by
    unfold walk
    dsimp only
    split <;> rfl
  obtain ⟨z', hz'⟩ := Option.isSome_iff_exists.mp hstay
  rw [hz'] at hsecond
  cases hsecond

end CursorState

end RimStone
