import RimStone.Memory.Str

/-!
# Tree nodes

The nodes of `tree.c` and the functions that keep them balanced. A node owns its
two children, so the nodes under one pointer are a value of `TreeNode`; `null`
is the pointer `NULL`. The cached height is a field of seven bits.

The C functions are given a node and its parent and write through both. Here
such a function takes the parent, with the node hanging from it in direction
`dir`, and returns the parent as it is afterwards.
-/

namespace RimStone

/-- `RIM_TREE_LESSER` and `RIM_TREE_GREATER`. -/
inductive Dir where
  | lesser
  | greater
  deriving DecidableEq, Repr

structure NodeData where
  addr : Addr
  key : RimStr
  data : Addr
  keyPresent : Bool
  deriving DecidableEq, Repr

/-- `rim_tree_node` -/
inductive TreeNode where
  | null
  | node (d : NodeData) (height : Nat) (lesser greater : TreeNode)
  deriving DecidableEq, Repr

namespace TreeNode

def isNull : TreeNode → Bool
  | null => true
  | node .. => false

/-- The cached height, with 0 for a child that is not there. -/
def height : TreeNode → Nat
  | null => 0
  | node _ h _ _ => h

def child : TreeNode → Dir → TreeNode
  | null, _ => null
  | node _ _ l _, .lesser => l
  | node _ _ _ g, .greater => g

/-- `RIM_TREE_SET_PARENT` -/
def setChild : TreeNode → Dir → TreeNode → TreeNode
  | null, _, _ => null
  | node d h _ g, .lesser, t => node d h t g
  | node d h l _, .greater, t => node d h l t

def setHeight : TreeNode → Nat → TreeNode
  | null, _ => null
  | node d _ l g, h => node d h l g

def setData : TreeNode → NodeData → TreeNode
  | null, _ => null
  | node _ h l g, d => node d h l g

def inorder : TreeNode → List NodeData
  | null => []
  | node d _ l g => inorder l ++ d :: inorder g

end TreeNode

/-- What `calloc` leaves in a new node. -/
def NodeData.zero (a : Addr) : NodeData where
  addr := a
  key := ⟨0, []⟩
  data := 0
  keyPresent := false

/-- `rim_tree_height`: the node with its height recomputed from its children,
and the difference of theirs. -/
def rimTreeHeight : TreeNode → TreeNode × Int
  | .null => (.null, 0)
  | .node d _ l g =>
    let leftHeight := l.height
    let rightHeight := g.height
    let height := if leftHeight > rightHeight then leftHeight + 1 else rightHeight + 1
    (.node d (height % 2 ^ 7) l g, leftHeight - rightHeight)

/-- `rim_tree_rotate_right`. The lesser child is there: the callers have seen
that it is the higher one. -/
def rimTreeRotateRight (parentTree : TreeNode) (dir : Dir) : TreeNode :=
  match parentTree.child dir with
  | .node d h (.node ld lh ll lg) g =>
    let tree := (rimTreeHeight (.node d h lg g)).1
    (rimTreeHeight (parentTree.setChild dir (.node ld lh ll tree))).1
  | _ => parentTree

def rimTreeRotateLeft (parentTree : TreeNode) (dir : Dir) : TreeNode :=
  match parentTree.child dir with
  | .node d h l (.node gd gh gl gg) =>
    let tree := (rimTreeHeight (.node d h l gl)).1
    (rimTreeHeight (parentTree.setChild dir (.node gd gh tree gg))).1
  | _ => parentTree

/-- `rim_tree_balance`. After a rotation the node that was balanced is a child
of the one that took its place; its height is recomputed once more there. -/
def rimTreeBalance (parentTree : TreeNode) (dir : Dir) : TreeNode :=
  let (tree, balFactor) := rimTreeHeight (parentTree.child dir)
  let parentTree := parentTree.setChild dir tree
  if balFactor ≥ 2 then
    let lesserNode := tree.child .lesser
    let tree :=
      if (lesserNode.child .greater).height > (lesserNode.child .lesser).height then
        rimTreeRotateLeft tree .lesser
      else tree
    let parentTree := rimTreeRotateRight (parentTree.setChild dir tree) dir
    let top := parentTree.child dir
    parentTree.setChild dir (top.setChild .greater (rimTreeHeight (top.child .greater)).1)
  else if balFactor ≤ -2 then
    let greaterNode := tree.child .greater
    let tree :=
      if (greaterNode.child .lesser).height > (greaterNode.child .greater).height then
        rimTreeRotateRight tree .greater
      else tree
    let parentTree := rimTreeRotateLeft (parentTree.setChild dir tree) dir
    let top := parentTree.child dir
    parentTree.setChild dir (top.setChild .lesser (rimTreeHeight (top.child .lesser)).1)
  else parentTree

end RimStone
