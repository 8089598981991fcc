import RimStone.Laws.Tree.Map

/-!
# What a tree is for

A tree is a balanced ordered map (`IsOrderedMap`), and a sorted tree is also a
list of its nodes in order (`ListAgrees`). Both follow from the invariant of a
state, the first also from the order of its keys, so both hold of every state a run
reaches.

A query is said on the map alone: it has candidates among the keys, and the answer
is the candidate no other one is better than (`Answers`). How many keys it compares
follows from the balance alone (`Logarithmic`).
-/

namespace RimStone

open TreeNode RimStone.Lib

namespace RimTree

/-- `r` is below `s` as `rim_tree_compare` has it. -/
def Below (t : RimTree) (r s : Bytes) : Prop := rimTreeCompare (t.ctx ⟨0, r⟩ (-1)) ⟨0, s⟩ < 0

/-- The answer `r` to a query with these candidates: the node of the one that every
other is `worse` than, with the data the map has for it; or that there is none. -/
inductive Answers (t : RimTree) (m : KeyMap) (cand : Bytes → Prop) (worse : Bytes → Bytes → Prop)
    (lcurs : RimTreeCursor) (r : RimTreeCursor) : Prop
  | found (d : NodeData) (hd : d ∈ t.nodes) (hcand : cand d.key.bytes)
      (hdata : m d.key.bytes = some d.data)
      (hbest : ∀ k, m k ≠ none → cand k → k = d.key.bytes ∨ worse k d.key.bytes)
      (hr : r = { lcurs with status := .okay, current := some d.addr })
  | absent (hnone : ∀ k, m k ≠ none → ¬ cand k) (hr : r = { lcurs with status := .errExist })

/-- A tree as a balanced ordered map. -/
structure IsOrderedMap (t : RimTree) (m : KeyMap) : Prop where
  represents : t.Represents m
  increasing : t.nodes.Pairwise fun d e => rimTreeCompare (t.ctx d.key (-1)) e.key < 0
  balanced : t.rootNode.Balanced
  count : ∃ ks : List Bytes, ks.Nodup ∧ (∀ k, k ∈ ks ↔ m k ≠ none) ∧ t.count = ks.length
  insert : ∀ lcurs key data fresh, t.keyType.Ok key.bytes → t.Fresh fresh →
    (rimTreeInsertF lcurs t key (-1) data fresh).2.status =
      if m key.bytes = none then .okay else .errExist
  delete : ∀ lcurs key fresh, t.keyType.Ok key.bytes → t.Fresh fresh →
    (rimTreeDeleteF lcurs t key fresh).2.status =
      if m key.bytes = none then .errExist else .okay
  search : ∀ lcurs key, t.keyType.Ok key.bytes →
    t.Answers m (· = key.bytes) t.Below lcurs (rimTreeSearchF lcurs t key (-1))
  lesserEqual : ∀ lcurs equal key, t.keyType.Ok key.bytes →
    t.Answers m (fun k => t.Below k key.bytes ∨ (equal = true ∧ k = key.bytes)) t.Below lcurs
      (rimTreeSearchLesserEqualF lcurs t equal key (-1))
  greaterEqual : ∀ lcurs equal key, t.keyType.Ok key.bytes →
    t.Answers m (fun k => t.Below key.bytes k ∨ (equal = true ∧ k = key.bytes))
      (fun k l => t.Below l k) lcurs (rimTreeSearchGreaterEqualF lcurs t equal key (-1))
  min : ∀ lcurs, t.Answers m (fun _ => True) (fun k l => t.Below l k) lcurs (rimTreeMinF lcurs t)
  max : ∀ lcurs, t.Answers m (fun _ => True) t.Below lcurs (rimTreeMaxF lcurs t)

/-- The list of a sorted tree is its nodes in order, both ways, from end to end. -/
structure ListAgrees (t : RimTree) : Prop where
  forward : Chain (fun a => some (t.greaterOf a)) t.min (t.nodes.map (·.addr))
  backward : Chain (fun a => some (t.lesserOf a)) t.max (t.nodes.map (·.addr)).reverse
  first : t.min = (t.nodes.map (·.addr)).head?
  last : t.max = (t.nodes.map (·.addr)).getLast?
  firstLink : ∀ a, t.min = some a → t.lesserOf a = none
  lastLink : ∀ a, t.max = some a → t.greaterOf a = none
  min_none : t.min = none ↔ t.nodes = []
  max_none : t.max = none ↔ t.nodes = []

section State

variable {t : RimTree} {m : KeyMap}

/-- Among the keys of a tree the comparison is the order of the ranks. -/
theorem below_iff {r s : Bytes} (hr : t.keyType.Ok r) (hs : t.keyType.Ok s) :
    t.Below r s ↔ t.keyType.rank r < t.keyType.rank s :=
  rimTreeCompare_neg (c := t.ctx ⟨0, r⟩ (-1)) (ctx_valid hr) (k := ⟨0, s⟩) hs

theorem Ordered.increasing (h : t.Ordered) :
    t.nodes.Pairwise fun d e => rimTreeCompare (t.ctx d.key (-1)) e.key < 0 := by
  refine List.Pairwise.imp_of_mem ?_ h.sorted
  intro d e hd he hlt
  exact (rimTreeCompare_neg (ctx_valid (h.ok d hd)) (h.ok e he)).mpr hlt

/-- The nodes of a tree are those a search goes through. -/
theorem TreeInv.cases_nodes (h : t.TreeInv) :
    (t.nodes = [] ∧ keyPresentAt t.rootNode = false) ∨
      (t.rootNode ≠ null ∧ SubtreeInv t.rootNode ∧ t.nodes = t.rootNode.inorder ∧ keyPresentAt t.rootNode = true) := by
  rcases h.shape with ⟨d, n, hroot, hpres, -⟩ | ⟨hne, hsub⟩
  · refine Or.inl ⟨nodes_of_empty hroot hpres, ?_⟩
    rw [hroot]
    exact hpres
  · refine Or.inr ⟨hne, hsub, nodes_of_filled hne hsub, ?_⟩
    obtain ⟨d, n, l, g, hroot⟩ := exists_node hne
    rw [hroot] at hsub ⊢
    exact hsub.present d (by simp [inorder])

theorem TreeInv.balanced (h : t.TreeInv) : t.rootNode.Balanced := by
  rcases h.shape with ⟨d, n, hroot, -, -⟩ | ⟨-, hsub⟩
  · rw [hroot]
    simp [TreeNode.Balanced]
  · exact hsub.balanced

theorem Represents.mem_iff (hm : t.Represents m) {k : Bytes} : m k ≠ none ↔ ∃ d ∈ t.nodes, d.key.bytes = k := by
  rw [Ne, hm.none_iff]
  push Not
  rfl

theorem Represents.count (hm : t.Represents m) (h : t.TreeInv) (ho : t.Ordered) :
    ∃ ks : List Bytes, ks.Nodup ∧ (∀ k, k ∈ ks ↔ m k ≠ none) ∧ t.count = ks.length := by
  refine ⟨t.nodes.map (·.key.bytes), ?_, fun k => ?_, ?_⟩
  · exact List.pairwise_map.mpr (ho.sorted.imp rank_ne)
  · rw [hm.mem_iff]
    exact List.mem_map
  · rw [List.length_map]
    exact h.count

/-- An answer is right if it is right among the nodes. -/
theorem Represents.found (hm : t.Represents m) {cand : Bytes → Prop} {worse : Bytes → Bytes → Prop}
    {lcurs : RimTreeCursor} {d : NodeData} (hd : d ∈ t.nodes) (hcand : cand d.key.bytes)
    (hbest : ∀ e ∈ t.nodes, cand e.key.bytes → e.key.bytes = d.key.bytes ∨ worse e.key.bytes d.key.bytes) :
    t.Answers m cand worse lcurs (lcurs.found (some d.addr)) := by
  refine .found d hd hcand ((hm _ _).mpr ⟨d, hd, rfl, rfl⟩) (fun k hk hck => ?_) rfl
  obtain ⟨e, he, rfl⟩ := hm.mem_iff.mp hk
  exact hbest e he hck

theorem Represents.absent (hm : t.Represents m) {cand : Bytes → Prop}
    {worse : Bytes → Bytes → Prop} {lcurs : RimTreeCursor}
    (hnone : ∀ e ∈ t.nodes, ¬ cand e.key.bytes) :
    t.Answers m cand worse lcurs (lcurs.found none) := by
  refine .absent (fun k hk => ?_) rfl
  obtain ⟨e, he, rfl⟩ := hm.mem_iff.mp hk
  exact hnone e he

/-- The last of some nodes in order is above the others. -/
theorem Ordered.below_of_split (h : t.Ordered) {I J : List NodeData} {d e : NodeData}
    (hin : t.nodes = I ++ d :: J) : (e ∈ I → t.Below e.key.bytes d.key.bytes) ∧
      (e ∈ J → t.Below d.key.bytes e.key.bytes) := by
  have hsort := h.increasing
  rw [hin] at hsort
  obtain ⟨-, hJ, hIJ⟩ := List.pairwise_append.mp hsort
  exact ⟨fun he => hIJ e he d (List.mem_cons_self ..), fun he => (List.pairwise_cons.mp hJ).1 e he⟩

theorem search_answers (h : t.TreeInv) (ho : t.Ordered) (hm : t.Represents m)
    (lcurs : RimTreeCursor) {key : RimStr} (hok : t.keyType.Ok key.bytes) :
    t.Answers m (· = key.bytes) t.Below lcurs (rimTreeSearchF lcurs t key (-1)) := by
  unfold rimTreeSearchF rimTreeSearch
  rcases h.cases_nodes with ⟨hnil, hpres⟩ | ⟨-, -, hnodes, hpres⟩
  · rw [hpres]
    exact hm.absent fun e he => by rw [hnil] at he; cases he
  · have hord : KeysOrdered t.keyType t.rootNode.inorder := hnodes ▸ ho
    rw [hpres, if_pos rfl]
    rcases rimTreeSearchLoop_spec (ctx_valid hok) hord with ⟨d, hd, hkey, hres⟩ | ⟨habs, hres⟩
    · rw [hres]
      refine hm.found (by rw [hnodes]; exact hd) hkey fun e _ he => Or.inl ?_
      exact he.trans hkey.symm
    · rw [hres]
      exact hm.absent fun e he => habs e (hnodes ▸ he)

theorem lesserEqual_answers (h : t.TreeInv) (ho : t.Ordered) (hm : t.Represents m)
    (lcurs : RimTreeCursor) (equal : Bool) {key : RimStr} (hok : t.keyType.Ok key.bytes) :
    t.Answers m (fun k => t.Below k key.bytes ∨ (equal = true ∧ k = key.bytes)) t.Below lcurs
      (rimTreeSearchLesserEqualF lcurs t equal key (-1)) := by
  have hside : ∀ e ∈ t.nodes, (t.Below e.key.bytes key.bytes ∨
      (equal = true ∧ e.key.bytes = key.bytes)) ↔ OnLesser (t.ctx key (-1)) equal e.key.bytes := by
    intro e he
    rw [below_iff (ho.ok e he) hok]
    rfl
  unfold rimTreeSearchLesserEqualF rimTreeSearchLesserEqual
  rcases h.cases_nodes with ⟨hnil, hpres⟩ | ⟨-, -, hnodes, hpres⟩
  · rw [hpres]
    exact hm.absent fun e he => by rw [hnil] at he; cases he
  · have hord : KeysOrdered t.keyType t.rootNode.inorder := hnodes ▸ ho
    rw [hpres, if_pos rfl]
    rcases rimTreeSearchLesserEqualLoop_spec (ctx_valid hok) equal hord none with
      ⟨I, d, J, hin, hd, hJ, hres⟩ | ⟨habs, hres⟩
    · rw [← hnodes] at hin
      have hmem : d ∈ t.nodes := by simp [hin]
      rw [hres]
      refine hm.found hmem ((hside d hmem).mpr hd) fun e he hcand => ?_
      have hsplit := he
      rw [hin] at hsplit
      rcases List.mem_append.mp hsplit with hI | hdJ
      · exact Or.inr ((ho.below_of_split hin).1 hI)
      · rcases List.mem_cons.mp hdJ with rfl | heJ
        · exact Or.inl rfl
        · exact absurd ((hside e he).mp hcand) (hJ e heJ)
    · rw [hres]
      exact hm.absent fun e he hcand => habs e (hnodes ▸ he) ((hside e he).mp hcand)

theorem greaterEqual_answers (h : t.TreeInv) (ho : t.Ordered) (hm : t.Represents m)
    (lcurs : RimTreeCursor) (equal : Bool) {key : RimStr} (hok : t.keyType.Ok key.bytes) :
    t.Answers m (fun k => t.Below key.bytes k ∨ (equal = true ∧ k = key.bytes))
      (fun k l => t.Below l k) lcurs (rimTreeSearchGreaterEqualF lcurs t equal key (-1)) := by
  have hside : ∀ e ∈ t.nodes, (t.Below key.bytes e.key.bytes ∨
      (equal = true ∧ e.key.bytes = key.bytes)) ↔ OnGreater (t.ctx key (-1)) equal e.key.bytes := by
    intro e he
    rw [below_iff hok (ho.ok e he)]
    rfl
  unfold rimTreeSearchGreaterEqualF rimTreeSearchGreaterEqual
  rcases h.cases_nodes with ⟨hnil, hpres⟩ | ⟨-, -, hnodes, hpres⟩
  · rw [hpres]
    exact hm.absent fun e he => by rw [hnil] at he; cases he
  · have hord : KeysOrdered t.keyType t.rootNode.inorder := hnodes ▸ ho
    rw [hpres, if_pos rfl]
    rcases rimTreeSearchGreaterEqualLoop_spec (ctx_valid hok) equal hord none with
      ⟨I, d, J, hin, hd, hI, hres⟩ | ⟨habs, hres⟩
    · rw [← hnodes] at hin
      have hmem : d ∈ t.nodes := by simp [hin]
      rw [hres]
      refine hm.found hmem ((hside d hmem).mpr hd) fun e he hcand => ?_
      have hsplit := he
      rw [hin] at hsplit
      rcases List.mem_append.mp hsplit with heI | hdJ
      · exact absurd ((hside e he).mp hcand) (hI e heI)
      · rcases List.mem_cons.mp hdJ with rfl | heJ
        · exact Or.inl rfl
        · exact Or.inr ((ho.below_of_split hin).2 heJ)
    · rw [hres]
      exact hm.absent fun e he hcand => habs e (hnodes ▸ he) ((hside e he).mp hcand)

/-- The ends of the tree, from the list or by going down one side. -/
theorem TreeInv.ends (h : t.TreeInv) (lcurs : RimTreeCursor) :
    rimTreeMinF lcurs t = lcurs.found (t.nodes.head?.map (·.addr)) ∧
      rimTreeMaxF lcurs t = lcurs.found (t.nodes.getLast?.map (·.addr)) := by
  have hcount := h.count
  unfold rimTreeMinF rimTreeMaxF
  rcases h.cases_nodes with ⟨hnil, -⟩ | ⟨hne, -, hnodes, -⟩
  · rw [hcount, hnil]
    exact ⟨rfl, rfl⟩
  · have hnn : t.nodes ≠ [] := by
      rw [hnodes]
      exact inorder_ne_nil hne
    have hpos : t.count ≠ 0 := by
      rw [hcount]
      have := List.length_pos_iff.mpr hnn
      omega
    rw [if_neg hpos, if_neg hpos]
    obtain ⟨f, hf⟩ := Option.isSome_iff_exists.mp (List.isSome_head?.mpr hnn)
    obtain ⟨g, hg⟩ := Option.isSome_iff_exists.mp (List.getLast?_isSome.mpr hnn)
    cases hs : t.sorted with
    | true =>
      have hmin := DList.first_eq (h.threaded hs)
      have hmax := DList.last_eq (h.threaded hs)
      rw [List.head?_map] at hmin
      rw [List.getLast?_map] at hmax
      rw [if_pos rfl, if_pos rfl, hmin, hmax, hf, hg]
      exact ⟨rfl, rfl⟩
    | false =>
      simp only [Bool.false_eq_true, ↓reduceIte]
      rw [lastNode_lesser hne, lastNode_greater hne, ← hnodes, hf, hg]
      exact ⟨rfl, rfl⟩

theorem min_answers (h : t.TreeInv) (ho : t.Ordered) (hm : t.Represents m) (lcurs : RimTreeCursor) :
    t.Answers m (fun _ => True) (fun k l => t.Below l k) lcurs (rimTreeMinF lcurs t) := by
  rw [(h.ends lcurs).1]
  cases hin : t.nodes with
  | nil => exact hm.absent fun e he => by rw [hin] at he; cases he
  | cons d J =>
    refine hm.found (by simp [hin]) trivial fun e he _ => ?_
    rw [hin] at he
    rcases List.mem_cons.mp he with rfl | he
    · exact Or.inl rfl
    · exact Or.inr ((ho.below_of_split (I := []) hin).2 he)

theorem max_answers (h : t.TreeInv) (ho : t.Ordered) (hm : t.Represents m) (lcurs : RimTreeCursor) :
    t.Answers m (fun _ => True) t.Below lcurs (rimTreeMaxF lcurs t) := by
  rw [(h.ends lcurs).2]
  rcases List.eq_nil_or_concat t.nodes with hin | ⟨I, d, hin⟩
  · rw [hin]
    exact hm.absent fun e he => by rw [hin] at he; cases he
  · rw [List.concat_eq_append] at hin
    rw [hin, List.getLast?_concat]
    refine hm.found (by simp [hin]) trivial fun e he _ => ?_
    rw [hin] at he
    rcases List.mem_append.mp he with he | he
    · exact Or.inr ((ho.below_of_split hin).1 he)
    · exact Or.inl (by rw [List.mem_singleton.mp he])

/-- A tree with the invariant and its keys in order is the map it represents. -/
theorem isOrderedMap (h : t.TreeInv) (ho : t.Ordered) (hm : t.Represents m) :
    t.IsOrderedMap m where
  represents := hm
  increasing := ho.increasing
  balanced := h.balanced
  count := hm.count h ho
  insert lcurs key data _ hok hfresh := ((rimTreeInsertF_inv key data h hfresh lcurs).2.2.represents ho hok hm lcurs).2
  delete lcurs key _ hok hfresh := ((rimTreeDeleteF_inv key h hfresh.1 lcurs).2.2.represents ho hok hm lcurs).2
  search lcurs _ hok := search_answers h ho hm lcurs hok
  lesserEqual lcurs equal _ hok := lesserEqual_answers h ho hm lcurs equal hok
  greaterEqual lcurs equal _ hok := greaterEqual_answers h ho hm lcurs equal hok
  min lcurs := min_answers h ho hm lcurs
  max lcurs := max_answers h ho hm lcurs

/-- The list of a sorted tree with the invariant. -/
theorem listAgrees (h : t.TreeInv) (hs : t.sorted = true) : t.ListAgrees := by
  have hd := h.threaded hs
  have hfirst := DList.first_eq hd
  have hlast := DList.last_eq hd
  refine ⟨hd.forward, hd.backward, hfirst, hlast, fun a ha => ?_, fun a ha => ?_, ?_, ?_⟩
  · obtain ⟨l, hl⟩ := List.head?_eq_some_iff.mp (hfirst.symm.trans ha)
    rw [hl] at hd
    exact DList.prev_eq (A := []) hd
  · obtain ⟨l, hl⟩ := List.getLast?_eq_some_iff.mp (hlast.symm.trans ha)
    rw [hl] at hd
    exact DList.next_eq (B := []) hd
  · rw [hfirst, List.head?_eq_none_iff, List.map_eq_nil_iff]
  · rw [hlast, List.getLast?_eq_none_iff, List.map_eq_nil_iff]

end State

/-! ## How many keys a search compares -/

/-- The side of a node a search goes on at, where it stops at 0; `equal` is the side for an equal key. -/
def side (c : TreeCtx) (equal : Int) (d : NodeData) : Int :=
  if rimTreeCompare c d.key = 0 then equal else rimTreeCompare c d.key

/-- The nodes whose keys a search compares with its own, in turn. -/
def searchPath (side : NodeData → Int) : TreeNode → List NodeData
  | null => []
  | node d _ l g =>
    d :: if side d = 0 then [] else if side d < 0 then searchPath side l else searchPath side g

def compared (t : RimTree) (side : NodeData → Int) : List NodeData :=
  if keyPresentAt t.rootNode then searchPath side t.rootNode else []

/-- The last of the compared nodes that may be answered. -/
def lastKept (side : NodeData → Int) (keep : Int → Prop) [DecidablePred keep] (prev : Option Addr)
    (path : List NodeData) : Option Addr :=
  path.foldl (fun prev d => if keep (side d) then some d.addr else prev) prev

/-- What a search answers, and that it compares about as many keys as a balanced tree is high. -/
structure Logarithmic (t : RimTree) (side : NodeData → Int) (keep : Int → Prop) [DecidablePred keep]
    (lcurs r : RimTreeCursor) : Prop where
  few : Nat.fib ((t.compared side).length + 2) ≤ t.count + 1
  answer : r = lcurs.found (lastKept side keep none (t.compared side))

section Path

variable {side : NodeData → Int} {keep : Int → Prop} [DecidablePred keep] {F : TreeNode → Option Addr → Option Addr}

theorem searchPath_length_le (n : TreeNode) : (searchPath side n).length ≤ n.depth := by
  induction n with
  | null => exact Nat.zero_le _
  | node d h l g ihl ihg =>
    rw [searchPath, List.length_cons, depth]
    apply Nat.succ_le_succ
    split_ifs
    · exact Nat.zero_le _
    · exact ihl.trans (le_max_left ..)
    · exact ihg.trans (le_max_right ..)

/-- A loop that takes a node or not, and goes on at its side, answers the last node it took. -/
theorem logarithmic (hnull : ∀ p, F null p = p)
    (hnode : ∀ d h l g p, F (node d h l g) p =
      if side d = 0 then lastKept side keep p [d]
      else if side d < 0 then F l (lastKept side keep p [d]) else F g (lastKept side keep p [d])) {t : RimTree}
    (h : t.TreeInv) (lcurs : RimTreeCursor) :
    t.Logarithmic side keep lcurs (lcurs.found (if keyPresentAt t.rootNode then F t.rootNode none else none)) := by
  have hpath : ∀ n p, F n p = lastKept side keep p (searchPath side n) := by
    intro n
    induction n with
    | null => exact hnull
    | node d h l g ihl ihg =>
      intro p
      rw [hnode, searchPath]
      split_ifs
      · rfl
      · exact ihl _
      · exact ihg _
  refine ⟨?_, congrArg lcurs.found ?_⟩
  · rw [h.count]
    unfold compared nodes
    split_ifs
    · have hlen : (searchPath side t.rootNode).length ≤ t.rootNode.depth := searchPath_length_le _
      have hfib := Nat.fib_mono (Nat.add_le_add_right hlen 2)
      exact_mod_cast hfib.trans h.balanced.fib_le
    · simp
  · unfold compared
    split_ifs
    · exact hpath _ _
    · rfl

end Path

section Searches

variable {t : RimTree} (h : t.TreeInv) (lcurs : RimTreeCursor) (key : RimStr) (keyLen : Int)
include h

theorem search_logarithmic :
    t.Logarithmic (side (t.ctx key keyLen) 0) (· = 0) lcurs (rimTreeSearchF lcurs t key keyLen) := by
  have hlog := @logarithmic (side (t.ctx key keyLen) 0) (· = 0) _
    (fun n p => (rimTreeSearchLoop (t.ctx key keyLen) n).or p) (fun p => rfl) (fun d h l g p => by
      simp only [rimTreeSearchLoop, side, lastKept, List.foldl_cons, List.foldl_nil]
      split_ifs <;> simp_all) t h lcurs
  simp only [Option.or_none] at hlog
  exact hlog

theorem lesserEqual_logarithmic (equal : Bool) :
    t.Logarithmic (side (t.ctx key keyLen) (if equal then 0 else -1)) (0 ≤ ·) lcurs
      (rimTreeSearchLesserEqualF lcurs t equal key keyLen) := by
  refine logarithmic (fun p => rfl) (fun d _ l g p => ?_) h lcurs
  rw [rimTreeSearchLesserEqualLoop]
  simp only [side, lastKept, List.foldl_cons, List.foldl_nil]
  rcases lt_trichotomy (rimTreeCompare (t.ctx key keyLen) d.key) 0 with hlt | hzero | hgt
  · simp [hlt, hlt.ne, hlt.not_ge]
  · cases equal <;> simp [hzero]
  · simp [hgt.not_gt, hgt.ne', hgt.le]

theorem greaterEqual_logarithmic (equal : Bool) :
    t.Logarithmic (side (t.ctx key keyLen) (if equal then 0 else 1)) (· ≤ 0) lcurs
      (rimTreeSearchGreaterEqualF lcurs t equal key keyLen) := by
  refine logarithmic (fun p => rfl) (fun d _ l g p => ?_) h lcurs
  rw [rimTreeSearchGreaterEqualLoop]
  simp only [side, lastKept, List.foldl_cons, List.foldl_nil]
  rcases lt_trichotomy (rimTreeCompare (t.ctx key keyLen) d.key) 0 with hlt | hzero | hgt
  · simp [hlt, hlt.ne, hlt.le]
  · cases equal <;> simp [hzero]
  · simp [hgt.not_gt, hgt.ne', hgt.not_ge]

end Searches

/-! ## Over runs -/

section Run

variable {keyType : KeyType} {sorted process : Bool} {tree root : Addr} {ops : List TreeOp}
  {t : RimTree}

/-- Three keys in, and the one at the root out again. -/
def threeKeys : List TreeOp :=
  [.insert {} ⟨11, [98]⟩ 12 3, .insert {} ⟨13, [97]⟩ 14 4, .insert {} ⟨15, [99]⟩ 16 5,
    .delete {} ⟨17, [98]⟩ 6]

theorem run_threeKeys (sorted : Bool) : ∃ t, Run Step (rimTreeCreate .str sorted false 1 2) threeKeys t :=
  ⟨_, .cons trivial ⟨by cases sorted <;> decide, rfl⟩ <|
    .cons trivial ⟨by cases sorted <;> decide, rfl⟩ <|
    .cons trivial ⟨by cases sorted <;> decide, rfl⟩ <|
    .cons trivial ⟨by cases sorted <;> decide, rfl⟩ (.nil _)⟩

/-- After any run of insertions and deletions a tree is the balanced ordered map
of the pairs inserted and not deleted. -/
theorem run_isOrderedMap (hroot : root < addrLimit) (hok : ∀ op ∈ ops, op.KeyOk keyType)
    (hrun : Run Step (rimTreeCreate keyType sorted process tree root) ops t) :
    t.IsOrderedMap (mapAfter ops) := by
  have hinv := create_inv keyType sorted process tree hroot
  obtain ⟨ho, hm⟩ := create_represents keyType sorted process tree root
  obtain ⟨ho', hm'⟩ := run_represents hrun hok hinv ho hm
  exact isOrderedMap (run_inv hrun hinv).1 ho' hm'

theorem run_isOrderedMap_threeKeys : ∃ t : RimTree, t.IsOrderedMap (mapAfter threeKeys) := by
  obtain ⟨t, hrun⟩ := run_threeKeys false
  exact ⟨t, run_isOrderedMap (by decide) (by decide) hrun⟩

/-- After any run on a sorted tree its list is its nodes in order; with keys of the
tree's type that is the order of the keys. -/
theorem run_listAgrees (hroot : root < addrLimit)
    (hrun : Run Step (rimTreeCreate keyType true process tree root) ops t) :
    t.ListAgrees ∧ ((∀ op ∈ ops, op.KeyOk keyType) →
      t.nodes.Pairwise fun d e => rimTreeCompare (t.ctx d.key (-1)) e.key < 0) := by
  have hinv := create_inv keyType true process tree hroot
  obtain ⟨ho, hm⟩ := create_represents keyType true process tree root
  obtain ⟨hinv', hsorted⟩ := run_inv hrun hinv
  refine ⟨listAgrees hinv' hsorted, fun hok => ?_⟩
  exact (run_represents hrun hok hinv ho hm).1.increasing

theorem run_listAgrees_threeKeys :
    ∃ t : RimTree, Run Step (rimTreeCreate .str true false 1 2) threeKeys t ∧ t.ListAgrees := by
  obtain ⟨t, hrun⟩ := run_threeKeys true
  exact ⟨t, hrun, (run_listAgrees (by decide) hrun).1⟩

/-- After any run a search of a tree of `n` keys compares its key with at most `k` of them, where the Fibonacci
number of `k + 2` is at most `n + 1`, and it answers the last of them that it may. -/
theorem run_logarithmic (hroot : root < addrLimit)
    (hrun : Run Step (rimTreeCreate keyType sorted process tree root) ops t) (lcurs : RimTreeCursor) (key : RimStr)
    (keyLen : Int) (equal : Bool) :
    t.Logarithmic (side (t.ctx key keyLen) 0) (· = 0) lcurs (rimTreeSearchF lcurs t key keyLen) ∧
      t.Logarithmic (side (t.ctx key keyLen) (if equal then 0 else -1)) (0 ≤ ·) lcurs
        (rimTreeSearchLesserEqualF lcurs t equal key keyLen) ∧
      t.Logarithmic (side (t.ctx key keyLen) (if equal then 0 else 1)) (· ≤ 0) lcurs
        (rimTreeSearchGreaterEqualF lcurs t equal key keyLen) := by
  have h := (run_inv hrun (create_inv keyType sorted process tree hroot)).1
  exact ⟨search_logarithmic h .., lesserEqual_logarithmic h .., greaterEqual_logarithmic h ..⟩

theorem run_logarithmic_threeKeys : ∃ t : RimTree, Run Step (rimTreeCreate .str false false 1 2) threeKeys t ∧
    t.Logarithmic (side (t.ctx ⟨0, [99]⟩ (-1)) 0) (· = 0) {} (rimTreeSearchF {} t ⟨0, [99]⟩ (-1)) := by
  obtain ⟨t, hrun⟩ := run_threeKeys false
  exact ⟨t, hrun, (run_logarithmic (by decide) hrun {} ⟨0, [99]⟩ (-1) true).1⟩

end Run

end RimTree

end RimStone
