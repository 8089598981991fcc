import RimStone.Tree.Statements

/-!
# Cursors

`read-tree` and `write-tree` with `new-cursor` leave a `rim_tree_cursor`, which is on the stack of the handler and holds
what was there before, until something is written to it. `use-cursor` goes on from there. A search that fails writes
the status only.

A pointer is followed where there is a node; to follow any other is undefined.
-/

namespace RimStone

/-- What a clause of `read-tree` makes of a cursor. -/
def TreeQuery.fill (t : RimTree) (lcurs : RimTreeCursor) : TreeQuery → RimTreeCursor
  | equal key => t.rimTreeSearchF lcurs key (-1)
  | lesser orEqual key => t.rimTreeSearchLesserEqualF lcurs orEqual key (-1)
  | greater orEqual key => t.rimTreeSearchGreaterEqualF lcurs orEqual key (-1)
  | minKey => t.rimTreeMinF lcurs
  | maxKey => t.rimTreeMaxF lcurs

/-- `current`, `get-lesser` and `get-greater`. -/
inductive CursorMove where
  | current
  | getLesser
  | getGreater
  deriving DecidableEq, Repr

/-- `use-cursor`, with the string of `update-value`, if there is one, and whether there is a `status`. -/
structure CursorStmt where
  move : CursorMove
  update : Option Addr := none
  withStatus : Bool := true
  deriving DecidableEq, Repr

/-- What `use-cursor` answers: the status; the key and the value, if it is `RIM_OKAY`; and whether the request ends with
an error, since the status was not asked for. -/
structure CursorAnswer where
  status : RimStatus
  read : Option (RimStr × Addr)
  reports : Bool
  deriving DecidableEq, Repr

structure CursorState where
  tree : RimTree
  lcurs : RimTreeCursor
  calls : List MemCall := []

namespace CursorState

/-- A link of the current node: to the next node, or there is none. -/
def follow (lcurs : RimTreeCursor) : Option Addr → RimTreeCursor
  | some a => { lcurs with current := some a, status := .okay }
  | none => { lcurs with status := .errExist }

/-- `use-cursor` up to its status. -/
def moved (t : RimTree) (lcurs : RimTreeCursor) : CursorMove → Option RimTreeCursor
  | .current => some lcurs
  | .getLesser =>
    match lcurs.current with
    | none => some lcurs
    | some a => do
      let d ← t.deref a
      some (if t.sorted then follow lcurs (t.lesserOf a) else t.rimTreeSearchLesserEqualF lcurs false d.key (-1))
  | .getGreater =>
    match lcurs.current with
    | none => some lcurs
    | some a => do
      let d ← t.deref a
      some (if t.sorted then follow lcurs (t.greaterOf a) else t.rimTreeSearchGreaterEqualF lcurs false d.key (-1))

/-- `use-cursor` -/
def useCursor (s : CursorState) (stmt : CursorStmt) : Option (CursorState × CursorAnswer) := do
  let lcurs ← moved s.tree s.lcurs stmt.move
  if lcurs.status = .okay then do
    let a ← lcurs.current
    let d ← s.tree.deref a
    let s : CursorState :=
      match stmt.update with
      | none => { s with lcurs }
      | some upd =>
        { tree := s.tree.setData a upd, lcurs, calls := s.calls ++ [.addRef upd, .decProcess d.data] }
    some (s, { status := lcurs.status, read := some (d.key, d.data), reports := false })
  else some ({ s with lcurs }, { status := lcurs.status, read := none, reports := !stmt.withStatus })

end CursorState

end RimStone
