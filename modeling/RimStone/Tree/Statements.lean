import RimStone.Tree.Tree

/-!
# Tree statements

What `v1.c` generates for the tree statements: a call of `tree.c` between setting
`rim_mem_process` to the tree's and clearing it, and then what becomes of the value
that was read or deleted. A system is a memory with the trees in it. Between the
statements of a request strings are made, and at its end ordinary memory goes.

A cursor points to a node of the tree it was used on; `deref` follows the pointer.
-/

namespace RimStone

namespace TreeNode

def mapData (f : NodeData → NodeData) : TreeNode → TreeNode
  | null => null
  | node d h l g => node (f d) h (mapData f l) (mapData f g)

end TreeNode

namespace RimTree

def deref (t : RimTree) (a : Addr) : Option NodeData := t.tree.inorder.find? (·.addr = a)

/-- Write the `data` of the node at `a`. -/
def setData (t : RimTree) (a data : Addr) : RimTree :=
  { t with tree := t.tree.mapData fun d => if d.addr = a then { d with data := data } else d }

/-- The loop of `rim_tree_purge_f`, as far as `fuel` rounds go. The value of the
least node is dropped, then the node is deleted by its key. -/
def rimTreePurgeLoop (fresh : Addr) : Nat → RimTree → Option (RimTree × List MemCall)
  | 0, _ => none
  | fuel + 1, t =>
    let tcurs := rimTreeMinF {} t
    if tcurs.status = .okay then
      match tcurs.current.bind t.deref with
      | none => none
      | some d =>
        let (t, st) := rimTreeDeleteF tcurs t d.key fresh
        (rimTreePurgeLoop fresh fuel t).map fun (t, calls) =>
          (t, .decProcess d.data :: (st.calls ++ calls))
    else some (t, [])

/-- `rim_tree_purge_f`. A round that deletes nothing leaves the tree as it was and
so is repeated for ever; otherwise there are as many rounds as nodes. -/
def rimTreePurgeF (fresh : Addr) (t : RimTree) : Option (RimTree × List MemCall) :=
  rimTreePurgeLoop fresh (t.count.toNat + 1) t

end RimTree

/-- The clause of `read-tree` that says which node. -/
inductive TreeQuery where
  | equal (key : RimStr)
  | lesser (orEqual : Bool) (key : RimStr)
  | greater (orEqual : Bool) (key : RimStr)
  | minKey
  | maxKey

def TreeQuery.run (t : RimTree) : TreeQuery → RimTreeCursor
  | equal key => t.rimTreeSearchF {} key (-1)
  | lesser orEqual key => t.rimTreeSearchLesserEqualF {} orEqual key (-1)
  | greater orEqual key => t.rimTreeSearchGreaterEqualF {} orEqual key (-1)
  | minKey => t.rimTreeMinF {}
  | maxKey => t.rimTreeMaxF {}

structure TreeSys where
  mem : Mem
  trees : List RimTree

/-- A statement on the tree with index `i`, or what goes on around statements. -/
inductive TreeStmt where
  | newString (p : Addr) (size : Nat)
  | writeTree (i : Nat) (key : RimStr) (value fresh : Addr)
  /-- `update` is the string of the `update-value` clause, when there is one -/
  | readTree (i : Nat) (query : TreeQuery) (update : Option Addr)
  /-- `value` says whether there is a `value` clause -/
  | deleteTree (i : Nat) (key : RimStr) (value : Bool) (fresh : Addr)
  | purgeTree (i : Nat) (fresh : Addr)
  | endRequest

namespace TreeSys

def onTree (s : TreeSys) (i : Nat) (f : RimTree → Except (Fault Mem) (RimTree × Mem)) :
    Except (Fault Mem) TreeSys :=
  match s.trees[i]? with
  | none => .error .undefined
  | some t => do
    let (t, mem) ← f t
    .ok { mem, trees := s.trees.set i t }

/-- `write-tree` -/
def writeTree (m : Mem) (key : RimStr) (value fresh : Addr) (t : RimTree) :
    Except (Fault Mem) (RimTree × Mem) := do
  let (t', st) := t.rimTreeInsertF {} key (-1) value fresh
  let m ← m.inScope t.process st.calls
  .ok (t', m)

/-- `read-tree` -/
def readTree (m : Mem) (query : TreeQuery) (update : Option Addr) (t : RimTree) :
    Except (Fault Mem) (RimTree × Mem) :=
  let lcurs := query.run t
  match lcurs.status, update with
  | .okay, some upd =>
    match lcurs.current, lcurs.current.bind t.deref with
    | some a, some d => do
      let m ← m.rimMemAddRef upd t.process
      .ok (t.setData a upd, m.rimMemDecProcess d.data)
    | _, _ => .error .undefined
  | _, _ => .ok (t, m)

/-- `delete-tree` -/
def deleteTree (m : Mem) (key : RimStr) (value : Bool) (fresh : Addr) (t : RimTree) :
    Except (Fault Mem) (RimTree × Mem) := do
  let (t', st) := t.rimTreeDeleteF {} key fresh
  let m ← m.inScope t.process st.calls
  match st.status, value, st.res with
  | .okay, false, some res => .ok (t', m.rimMemDecProcess res)
  | _, _, _ => .ok (t', m)

/-- `purge-tree` -/
def purgeTree (m : Mem) (fresh : Addr) (t : RimTree) : Except (Fault Mem) (RimTree × Mem) :=
  match t.rimTreePurgeF fresh with
  | none => .error .undefined
  | some (t', calls) => do
    let m ← m.inScope t.process calls
    .ok (t', m)

def exec (s : TreeSys) : TreeStmt → Except (Fault Mem) TreeSys
  | .newString p size => do
    let (_, mem) ← s.mem.rimMalloc (some p) size
    .ok { s with mem }
  | .writeTree i key value fresh => s.onTree i (writeTree s.mem key value fresh)
  | .readTree i query update => s.onTree i (readTree s.mem query update)
  | .deleteTree i key value fresh => s.onTree i (deleteTree s.mem key value fresh)
  | .purgeTree i fresh => s.onTree i (purgeTree s.mem fresh)
  | .endRequest => do
    let mem ← s.mem.rimDone
    .ok { s with mem }

end TreeSys

end RimStone
