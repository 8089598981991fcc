import RimStone.Tree.Node

/-!
# Trees

A tree of `tree.c` hangs, as its lesser child, from a node that holds no key. In
a sorted tree the nodes are also threaded into a list from `min` to `max`, by
two links in each node; the links are a map from node addresses
(`TreeList.dlist`), since they do not follow the shape of the tree.

The functions change four things: the nodes, the list with its ends and the
count, the cursor, and the memory. The nodes are returned; the others are the
fields of `TreeSt`. What a function asks of the memory it appends to `calls`, so
that the tree does not depend on the memory's answers: a run of the model is one
whose memory calls all return.

An insertion takes the address `calloc` answers for the new node, a deletion the
one for the new root of a tree it has emptied.
-/

namespace RimStone

/-- `RIM_TREE_TYPE_STR` and `RIM_TREE_TYPE_NUM`. -/
inductive KeyType where
  | str
  | num
  deriving DecidableEq, Repr

structure Dlist where
  lesserList : Option Addr := none
  greaterList : Option Addr := none
  deriving DecidableEq, Repr

/-- What a tree keeps beside its nodes' places. -/
structure TreeList where
  min : Option Addr := none
  max : Option Addr := none
  count : Int := 0
  dlist : Addr → Dlist := fun _ => {}

structure RimTree extends TreeList where
  tree : TreeNode
  keyType : KeyType
  sorted : Bool
  process : Bool

/-- `rim_tree_cursor`: what a tree function leaves for the statement. -/
structure RimTreeCursor where
  current : Option Addr := none
  status : RimStatus := .errExist
  res : Option Addr := none

/-- What the functions change beside the nodes. -/
structure TreeSt extends TreeList, RimTreeCursor where
  calls : List MemCall := []

/-- What they read: the key of the operation, from the cursor, and the tree's type. -/
structure TreeCtx where
  keyType : KeyType
  sorted : Bool
  key : RimStr
  keyLen : Nat

/-- `rim_tree_compare`: the sign of the operation's key against a node's. -/
def rimTreeCompare (c : TreeCtx) (k2 : RimStr) : Int :=
  let l1 := c.keyLen
  let l2 := rimMemGetLen k2
  match c.keyType with
  | .num =>
    if l1 < l2 then -1
    else if l1 > l2 then 1
    else memcmp l1 c.key.memory k2.memory
  | .str => memcmp (min l1 l2 + 1) c.key.memory k2.memory

namespace TreeList

def lesserOf (l : TreeList) (a : Addr) : Option Addr := (l.dlist a).lesserList

def greaterOf (l : TreeList) (a : Addr) : Option Addr := (l.dlist a).greaterList

/-- Set one link, of the node at `a` when there is one. -/
def setLesser (l : TreeList) (a : Option Addr) (x : Option Addr) : TreeList :=
  match a with
  | none => l
  | some a => { l with dlist := Function.update l.dlist a { l.dlist a with lesserList := x } }

def setGreater (l : TreeList) (a : Option Addr) (x : Option Addr) : TreeList :=
  match a with
  | none => l
  | some a => { l with dlist := Function.update l.dlist a { l.dlist a with greaterList := x } }

def clear (l : TreeList) (a : Addr) : TreeList :=
  { l with dlist := Function.update l.dlist a {} }

/-- Thread `new` in before the node at `a`. -/
def linkBefore (l : TreeList) (a new : Addr) : TreeList :=
  let l := l.setGreater (l.lesserOf a) (some new)
  let l := l.setLesser (some new) (l.lesserOf a)
  let l := l.setLesser (some a) (some new)
  l.setGreater (some new) (some a)

/-- Thread `new` in after the node at `a`. -/
def linkAfter (l : TreeList) (a new : Addr) : TreeList :=
  let l := l.setLesser (l.greaterOf a) (some new)
  let l := l.setGreater (some new) (l.greaterOf a)
  let l := l.setGreater (some a) (some new)
  l.setLesser (some new) (some a)

/-- Set the greater link of the node before, or the start of the list when there
is none. -/
def setGreaterOrMin (l : TreeList) (a : Option Addr) (x : Option Addr) : TreeList :=
  match a with
  | some a => l.setGreater (some a) x
  | none => { l with min := x }

/-- Set the lesser link of the node after, or the end of the list when there is
none. -/
def setLesserOrMax (l : TreeList) (a : Option Addr) (x : Option Addr) : TreeList :=
  match a with
  | some a => l.setLesser (some a) x
  | none => { l with max := x }

/-- Make a node without a neighbour on one side that end of the list. -/
def setEnds (l : TreeList) (x : Addr) : TreeList :=
  let l := if l.lesserOf x = none then { l with min := some x } else l
  if l.greaterOf x = none then { l with max := some x } else l

/-- Point the neighbours of the node at `a`, or the ends of the list, past it. -/
def unlink (l : TreeList) (a : Addr) : TreeList :=
  let l := l.setGreaterOrMin (l.lesserOf a) (l.greaterOf a)
  l.setLesserOrMax (l.greaterOf a) (l.lesserOf a)

/-- Put the node at `a` in the place the node at `leaf` has in the list. -/
def replace (l : TreeList) (a leaf : Addr) : TreeList :=
  let l := l.setLesser (some a) (l.lesserOf leaf)
  let l := l.setGreater (some a) (l.greaterOf leaf)
  let l := l.setGreaterOrMin (l.lesserOf leaf) (some a)
  l.setLesserOrMax (l.greaterOf leaf) (some a)

end TreeList

namespace TreeSt

def withList (st : TreeSt) (f : TreeList → TreeList) : TreeSt :=
  { st with toTreeList := f st.toTreeList }

def call (st : TreeSt) (cs : List MemCall) : TreeSt := { st with calls := st.calls ++ cs }

end TreeSt

/-- The size of a node; the links are there only in a sorted tree. -/
def sizeofTreeNode (sorted : Bool) : Nat := 40 + if sorted then 16 else 0

def rimTreeNodeCreate (sorted : Bool) (fresh : Addr) (st : TreeSt) : TreeNode × TreeSt :=
  (.node (.zero fresh) 0 .null .null,
    (st.withList (·.clear fresh)).call [.calloc fresh 1 (sizeofTreeNode sorted)])

/-- The calls of `rim_tree_node_delete`. -/
def rimTreeNodeDelete (key : RimStr) (tree : Addr) : List MemCall :=
  [.decProcess key.addr, .decProcess tree]

/-- The first branch of `rim_tree_insert`: the node holds no key yet. -/
def rimTreeInsertHere (c : TreeCtx) (data : Addr) (d : NodeData) (lesser greater : TreeNode)
    (st : TreeSt) : TreeNode × TreeSt :=
  let tree : TreeNode :=
    .node { d with key := c.key, data := data, keyPresent := true } 1 lesser greater
  let st := st.call [.addRef data]
  let st := if c.sorted then st.withList (·.setEnds d.addr) else st
  (tree, { st with current := some d.addr, status := .okay, count := st.count + 1 })

/-- A new leaf below the node at `a`, in direction `side`, with the key. -/
def rimTreeInsertLeaf (c : TreeCtx) (fresh data : Addr) (a : Addr) (side : Dir) (st : TreeSt) :
    TreeNode × TreeSt :=
  let st := (rimTreeNodeCreate c.sorted fresh st).2
  let st := if c.sorted then
      match side with
      | .lesser => st.withList (·.linkBefore a fresh)
      | .greater => st.withList (·.linkAfter a fresh)
    else st
  rimTreeInsertHere c data (.zero fresh) .null .null st

/-- `rim_tree_insert`: insert below `tree`, which hangs from `parentTree` in
direction `dir`. -/
def rimTreeInsert (c : TreeCtx) (fresh data : Addr) (parentTree : TreeNode) (dir : Dir) :
    TreeNode → TreeSt → TreeNode × TreeSt
  | .null, st => (parentTree, st)
  | .node d h l g, st =>
    if d.keyPresent = false then
      let (tree, st) := rimTreeInsertHere c data d l g st
      (parentTree.setChild dir tree, st)
    else
      let comparison := rimTreeCompare c d.key
      if comparison < 0 then
        if l.isNull then
          let (leaf, st) := rimTreeInsertLeaf c fresh data d.addr .lesser st
          (parentTree.setChild dir (.node d h leaf g), st)
        else
          let (tree, st) := rimTreeInsert c fresh data (.node d h l g) .lesser l st
          let tree := rimTreeBalance tree .lesser
          (rimTreeBalance (parentTree.setChild dir tree) dir, st)
      else if comparison = 0 then (parentTree, { st with status := .errExist })
      else if g.isNull then
        let (leaf, st) := rimTreeInsertLeaf c fresh data d.addr .greater st
        (parentTree.setChild dir (.node d h l leaf), st)
      else
        let (tree, st) := rimTreeInsert c fresh data (.node d h l g) .greater g st
        let tree := rimTreeBalance tree .greater
        (rimTreeBalance (parentTree.setChild dir tree) dir, st)

/-- Balance a child that may not be there any more. -/
def balanceChild (tree : TreeNode) (dir : Dir) : TreeNode :=
  if (tree.child dir).isNull then tree else rimTreeBalance tree dir

/-- `rim_tree_find_leaf_del`: take the least node out below `tree`, and give its
key and its data to the node `found`, which is returned as it then is. -/
def rimTreeFindLeafDel (c : TreeCtx) (found : NodeData) (parentTree : TreeNode) (dir : Dir) :
    TreeNode → TreeSt → TreeNode × NodeData × TreeSt
  | .null, st => (parentTree, found, st)
  | .node d h l g, st =>
    if l.isNull then
      let st := if c.sorted then
          (st.withList (·.unlink found.addr)).withList (·.replace found.addr d.addr)
        else st
      let temp := found.key
      let st := st.call [.decProcess found.data]
      let found := { found with key := d.key, data := d.data }
      (parentTree.setChild dir g, found, st.call (rimTreeNodeDelete temp d.addr))
    else
      let (tree, found, st) := rimTreeFindLeafDel c found (.node d h l g) .lesser l st
      let tree := balanceChild tree .lesser
      (rimTreeBalance (parentTree.setChild dir tree) dir, found, st)

/-- `rim_tree_delete`: delete below `tree`, which hangs from `parentTree` in
direction `dir`. -/
def rimTreeDelete (c : TreeCtx) (parentTree : TreeNode) (dir : Dir) :
    TreeNode → TreeSt → TreeNode × TreeSt
  | .null, st => (parentTree, st)
  | .node d h l g, st =>
    let cmp := rimTreeCompare c d.key
    if cmp = 0 then
      let (parentTree, st) :=
        if g.isNull then
          let parentTree := parentTree.setChild dir l
          let st := if c.sorted then st.withList (·.unlink d.addr) else st
          (parentTree, st.call (.decProcess d.data :: rimTreeNodeDelete d.key d.addr))
        else
          let (tree, found, st) := rimTreeFindLeafDel c d (.node d h l g) .greater g st
          let tree := balanceChild (tree.setData found) .greater
          (rimTreeBalance (parentTree.setChild dir tree) dir, st)
      (parentTree, { st with status := .okay, count := st.count - 1, res := some d.data })
    else if cmp < 0 ∧ l.isNull = false then
      let (tree, st) := rimTreeDelete c (.node d h l g) .lesser l st
      let tree := balanceChild tree .lesser
      (rimTreeBalance (parentTree.setChild dir tree) dir, st)
    else if cmp > 0 ∧ g.isNull = false then
      let (tree, st) := rimTreeDelete c (.node d h l g) .greater g st
      let tree := balanceChild tree .greater
      (rimTreeBalance (parentTree.setChild dir tree) dir, st)
    else (parentTree, { st with status := .errExist })

/-! ## Searching -/

def keyPresentAt : TreeNode → Bool
  | .null => false
  | .node d _ _ _ => d.keyPresent

def RimTreeCursor.found (lcurs : RimTreeCursor) : Option Addr → RimTreeCursor
  | some a => { lcurs with status := .okay, current := some a }
  | none => { lcurs with status := .errExist }

/-- The loop of `rim_tree_search`. -/
def rimTreeSearchLoop (c : TreeCtx) : TreeNode → Option Addr
  | .null => none
  | .node d _ l g =>
    let cmp := rimTreeCompare c d.key
    if cmp = 0 then some d.addr
    else if cmp < 0 then rimTreeSearchLoop c l
    else rimTreeSearchLoop c g

def rimTreeSearch (c : TreeCtx) (tree : TreeNode) (lcurs : RimTreeCursor) : RimTreeCursor :=
  lcurs.found (if keyPresentAt tree then rimTreeSearchLoop c tree else none)

/-- The loop of `rim_tree_search_lesser_equal`. -/
def rimTreeSearchLesserEqualLoop (c : TreeCtx) (equal : Bool) :
    TreeNode → Option Addr → Option Addr
  | .null, prevLesser => prevLesser
  | .node d _ l g, prevLesser =>
    let cmp := rimTreeCompare c d.key
    if cmp = 0 ∧ equal = true then some d.addr
    else
      let cmp := if cmp = 0 then -1 else cmp
      if cmp < 0 then rimTreeSearchLesserEqualLoop c equal l prevLesser
      else rimTreeSearchLesserEqualLoop c equal g (some d.addr)

def rimTreeSearchLesserEqual (c : TreeCtx) (tree : TreeNode) (equal : Bool)
    (lcurs : RimTreeCursor) : RimTreeCursor :=
  lcurs.found (if keyPresentAt tree then rimTreeSearchLesserEqualLoop c equal tree none else none)

/-- The loop of `rim_tree_search_greater_equal`. -/
def rimTreeSearchGreaterEqualLoop (c : TreeCtx) (equal : Bool) :
    TreeNode → Option Addr → Option Addr
  | .null, prevGreater => prevGreater
  | .node d _ l g, prevGreater =>
    let cmp := rimTreeCompare c d.key
    if cmp = 0 ∧ equal = true then some d.addr
    else
      let cmp := if cmp = 0 then 1 else cmp
      if cmp < 0 then rimTreeSearchGreaterEqualLoop c equal l (some d.addr)
      else rimTreeSearchGreaterEqualLoop c equal g prevGreater

def rimTreeSearchGreaterEqual (c : TreeCtx) (tree : TreeNode) (equal : Bool)
    (lcurs : RimTreeCursor) : RimTreeCursor :=
  lcurs.found (if keyPresentAt tree then rimTreeSearchGreaterEqualLoop c equal tree none else none)

/-- The last node on the way down in one direction. -/
def lastNode (dir : Dir) : TreeNode → Option Addr
  | .null => none
  | .node d _ l g =>
    match dir with
    | .lesser => if l.isNull then some d.addr else lastNode dir l
    | .greater => if g.isNull then some d.addr else lastNode dir g

/-! ## The interface -/

namespace RimTree

/-- The root: the node under the one that holds no key. -/
def rootNode (t : RimTree) : TreeNode := t.tree.child .lesser

def ctx (t : RimTree) (key : RimStr) (keyLen : Int) : TreeCtx where
  keyType := t.keyType
  sorted := t.sorted
  key := key
  keyLen := if keyLen = -1 then rimMemGetLen key else keyLen.toNat

def start (t : RimTree) (lcurs : RimTreeCursor) : TreeSt :=
  { toTreeList := t.toTreeList, toRimTreeCursor := lcurs }

def finish (t : RimTree) (tree : TreeNode) (st : TreeSt) : RimTree :=
  { t with toTreeList := st.toTreeList, tree := tree }

def rimTreeCreateRoot (sorted : Bool) (fresh : Addr) (tree : TreeNode) (st : TreeSt) :
    TreeNode × TreeSt :=
  let (root, st) := rimTreeNodeCreate sorted fresh st
  (tree.setChild .lesser root, st)

/-- `rim_tree_create`, where `tree` and `root` are the addresses of the two
nodes. -/
def rimTreeCreate (keyType : KeyType) (sorted process : Bool) (tree root : Addr) : RimTree :=
  let (top, st) := rimTreeNodeCreate sorted tree {}
  let (top, st) := rimTreeCreateRoot sorted root top st
  { toTreeList := st.toTreeList, tree := top, keyType, sorted, process }

def rimTreeInsertF (lcurs : RimTreeCursor) (t : RimTree) (key : RimStr) (keyLen : Int)
    (data fresh : Addr) : RimTree × TreeSt :=
  let st := (t.start lcurs).call [.addRef key.addr]
  let (tree, st) := rimTreeInsert (t.ctx key keyLen) fresh data t.tree .lesser t.rootNode st
  (t.finish tree st, st)

def rimTreeDeleteF (lcurs : RimTreeCursor) (t : RimTree) (key : RimStr) (fresh : Addr) :
    RimTree × TreeSt :=
  let st := t.start lcurs
  if keyPresentAt t.rootNode then
    let (tree, st) := rimTreeDelete (t.ctx key (-1)) t.tree .lesser t.rootNode st
    let (tree, st) :=
      if (tree.child .lesser).isNull then rimTreeCreateRoot t.sorted fresh tree st
      else (tree, st)
    (t.finish tree st, st)
  else (t, { st with status := .errExist })

def rimTreeSearchF (lcurs : RimTreeCursor) (t : RimTree) (key : RimStr) (keyLen : Int) :
    RimTreeCursor :=
  rimTreeSearch (t.ctx key keyLen) t.rootNode lcurs

def rimTreeSearchLesserEqualF (lcurs : RimTreeCursor) (t : RimTree) (equal : Bool)
    (key : RimStr) (keyLen : Int) : RimTreeCursor :=
  rimTreeSearchLesserEqual (t.ctx key keyLen) t.rootNode equal lcurs

def rimTreeSearchGreaterEqualF (lcurs : RimTreeCursor) (t : RimTree) (equal : Bool)
    (key : RimStr) (keyLen : Int) : RimTreeCursor :=
  rimTreeSearchGreaterEqual (t.ctx key keyLen) t.rootNode equal lcurs

def rimTreeMinF (lcurs : RimTreeCursor) (t : RimTree) : RimTreeCursor :=
  if t.count = 0 then { lcurs with status := .errExist }
  else if t.sorted then { lcurs with status := .okay, current := t.min }
  else { lcurs with status := .okay, current := lastNode .lesser t.rootNode }

def rimTreeMaxF (lcurs : RimTreeCursor) (t : RimTree) : RimTreeCursor :=
  if t.count = 0 then { lcurs with status := .errExist }
  else if t.sorted then { lcurs with status := .okay, current := t.max }
  else { lcurs with status := .okay, current := lastNode .greater t.rootNode }

end RimTree

end RimStone
