import RimStone.Memory.Str
import Mathlib.Data.List.AList

/-!
# Linked lists

A list of `rim_list` is a doubly linked chain of items with a pointer to the current one,
which is `NULL` at the end. An item is a block of memory; the items of a list are a map
from their addresses. To follow `NULL` or a pointer to a block that was given up is
undefined, and so is to use a variable that was never set; then there is no result.

`v1.c` writes out two statements where they are used: `position-list`, and `read-list`
after `rim_list_retrieve`. They are here too.
-/

namespace RimStone

/-- `rim_list_item` -/
structure ListItem where
  data : Addr
  name : RimStr
  next : Option Addr
  prev : Option Addr
  deriving DecidableEq, Repr

abbrev ListItems := AList fun _ : Addr => ListItem

/-- `rim_list`, at `addr` -/
structure RimList where
  addr : Addr
  first : Option Addr := none
  numOf : Int := 0
  last : Option Addr := none
  curr : Option Addr := none
  process : Bool
  items : ListItems := ∅

def sizeofListItem : Nat := 32
def sizeofList : Nat := 40

def rimListInit (process : Bool) (addr : Addr) : RimList × List MemCall :=
  ({ addr, process }, [.malloc addr sizeofList])

namespace RimList

def setItem (fdata : RimList) (a : Addr) (f : ListItem → ListItem) : Option RimList :=
  (fdata.items.lookup a).map fun e => { fdata with items := fdata.items.insert a (f e) }

/-- How `rim_list_store` links the new item `np`. -/
def linkItem (fdata : RimList) (append : Bool) (np : Addr) : Option RimList :=
  if fdata.numOf = 0 then some { fdata with first := some np, last := some np, curr := some np }
  else
    let fdata := if append then { fdata with curr := none } else fdata
    match fdata.curr with
    | none => do
      let last ← fdata.last
      let fdata ← fdata.setItem last fun e => { e with next := some np }
      let fdata ← fdata.setItem np fun e => { e with prev := some last }
      some { fdata with last := some np, curr := some np }
    | some curr =>
      if fdata.curr = fdata.first then do
        let fdata ← fdata.setItem np fun e => { e with next := some curr }
        let fdata ← fdata.setItem curr fun e => { e with prev := some np }
        some { fdata with first := some np, curr := some np }
      else do
        let item ← fdata.items.lookup curr
        let prev ← item.prev
        let fdata ← fdata.setItem prev fun e => { e with next := some np }
        let fdata ← fdata.setItem np fun e => { e with prev := some prev, next := some curr }
        let fdata ← fdata.setItem curr fun e => { e with prev := some np }
        some { fdata with curr := some np }

/-- `rim_list_store`, where the memory answers `np`. -/
def rimListStore (fdata : RimList) (name : RimStr) (data : Addr) (append : Bool) (np : Addr) :
    Option (RimList × List MemCall) := do
  let calls := [.malloc np sizeofListItem, .addRef data, .addRef name.addr]
  let fdata ← { fdata with items := fdata.items.insert np { data, name, next := none, prev := none } }.linkItem append np
  some ({ fdata with numOf := fdata.numOf + 1 }, calls)

/-- `rim_list_retrieve`: the name and the data, which are not set where there is no
current item. -/
def rimListRetrieve (fdata : RimList) : Option (Option (RimStr × Addr)) :=
  match fdata.curr with
  | none => some none
  | some p => do
    let item ← fdata.items.lookup p
    some (some (item.name, item.data))

/-- What `rim_list_delete` does behind the item that goes. -/
def unlinkNext (fdata : RimList) (item : ListItem) : Option RimList :=
  match item.next with
  | some n => do
    let fdata ← fdata.setItem n fun e => { e with prev := item.prev }
    some { fdata with curr := some n }
  | none => some { fdata with last := item.prev, curr := item.prev }

/-- What it does before that item. -/
def unlinkPrev (fdata : RimList) (item : ListItem) : Option RimList :=
  match item.prev with
  | some p => fdata.setItem p fun e => { e with next := item.next }
  | none => some { fdata with first := item.next, curr := item.next }

def rimListDelete (fdata : RimList) : Option (RimList × List MemCall × RimStatus) :=
  match fdata.curr with
  | none => some (fdata, [], .errExist)
  | some temp => do
    let item ← fdata.items.lookup temp
    let fdata ← fdata.unlinkNext item
    let fdata ← fdata.unlinkPrev item
    some ({ fdata with items := fdata.items.erase temp, numOf := fdata.numOf - 1 },
      [.decProcess item.name.addr, .decProcess item.data, .decProcess temp], .okay)

/-- The loop of `rim_list_purge`, as far as `fuel` rounds go. -/
def rimListPurgeLoop : Nat → RimList → Option (RimList × List MemCall)
  | 0, fdata => if fdata.numOf > 0 then none else some (fdata, [])
  | fuel + 1, fdata =>
    if fdata.numOf > 0 then do
      let (fdata, calls, _) ← { fdata with curr := fdata.first }.rimListDelete
      let (fdata, rest) ← rimListPurgeLoop fuel fdata
      some (fdata, calls ++ rest)
    else some (fdata, [])

/-- `rim_list_purge`, where the memory answers `addr` for the new list. A round that
deletes nothing is repeated for ever; the others count down. -/
def rimListPurge (fdata : RimList) (addr : Addr) : Option (RimList × List MemCall) := do
  let (old, calls) ← rimListPurgeLoop fdata.numOf.toNat fdata
  let (new, callsNew) := rimListInit fdata.process addr
  some (new, calls ++ .decProcess old.addr :: callsNew)

end RimList

/-- The clause of `position-list`. -/
inductive ListWhere where
  | first
  | last
  | atEnd
  | previous
  | next
  deriving DecidableEq, Repr

/-- `position-list`: the list, and the status. -/
def RimList.position (fdata : RimList) : ListWhere → Option (RimList × RimStatus)
  | .first =>
    if fdata.numOf = 0 then some (fdata, .errExist) else some ({ fdata with curr := fdata.first }, .okay)
  | .last => if fdata.numOf = 0 then some (fdata, .errExist) else some ({ fdata with curr := fdata.last }, .okay)
  | .atEnd => if fdata.numOf = 0 then some (fdata, .errExist) else some ({ fdata with curr := none }, .okay)
  | .previous =>
    if fdata.numOf = 0 then some (fdata, .errExist)
    else if fdata.curr = fdata.first then some (fdata, .errExist)
    else
      match fdata.curr with
      | some curr => do
        let item ← fdata.items.lookup curr
        some ({ fdata with curr := item.prev }, .okay)
      | none => some ({ fdata with curr := fdata.last }, .okay)
  | .next =>
    if fdata.numOf = 0 then some (fdata, .errExist)
    else
      match fdata.curr with
      | none => some (fdata, .errExist)
      | some curr => do
        let item ← fdata.items.lookup curr
        some ({ fdata with curr := item.next }, .okay)

/-- The clauses of `read-list` beside the key and the value: whether there is a status, and
the strings of the updates. -/
structure ReadListClauses where
  status : Bool := false
  updateKey : Option RimStr := none
  updateValue : Option Addr := none
  deriving DecidableEq, Repr

def ReadListClauses.any (c : ReadListClauses) : Bool := c.status || c.updateKey.isSome || c.updateValue.isSome

/-- What the updates do to the current item. -/
def ReadListClauses.update (c : ReadListClauses) (e : ListItem) : ListItem :=
  { e with name := c.updateKey.getD e.name, data := c.updateValue.getD e.data }

/-- The references that the updates take and give up, the key's first. -/
def ReadListClauses.calls (c : ReadListClauses) (e : ListItem) : List MemCall :=
  (match c.updateKey with
    | some k => [.addRef k.addr, .decProcess e.name.addr]
    | none => []) ++
  (match c.updateValue with
    | some v => [.addRef v, .decProcess e.data]
    | none => [])

/-- `read-list`: the list, the references taken and given up, what the key and the value are
set to, and the status. Without any clause both are set to what `rim_list_retrieve` left
in two new variables, and the status is not looked at. -/
def RimList.read (fdata : RimList) (c : ReadListClauses) :
    Option (RimList × List MemCall × Option (RimStr × Addr) × RimStatus) := do
  let out ← fdata.rimListRetrieve
  if c.any then
    match fdata.curr with
    | none => some (fdata, [], none, .errExist)
    | some curr => do
      let item ← fdata.items.lookup curr
      let fdata ← fdata.setItem curr c.update
      some (fdata, c.calls item, out, .okay)
  else do
    let out ← out
    some (fdata, [], some out, .okay)

/-- A statement on a list, with what the memory answers it. `status` tells whether there is
a status clause. -/
inductive ListOp where
  | write (name : RimStr) (data : Addr) (append : Bool) (np : Addr)
  | read (c : ReadListClauses)
  | position (dest : ListWhere) (status : Bool)
  | delete (status : Bool)
  | purge (addr : Addr)
  deriving DecidableEq, Repr

/-- What a statement told: what it set the key and the value to, and the status. Where there
is no clause for the status, any but `RIM_OKAY` is reported as an error. -/
structure ListOut where
  pair : Option (RimStr × Addr) := none
  status : RimStatus := .okay
  reported : Bool := false
  deriving DecidableEq, Repr

/-- The status of a statement, with a clause for it or without. -/
def ListOut.of (pair : Option (RimStr × Addr)) (status : RimStatus) (clause : Bool) : ListOut where
  pair := pair
  status := status
  reported := !clause && status != .okay

namespace RimList

def exec (fdata : RimList) : ListOp → Option (RimList × List MemCall × ListOut)
  | .write name data append np => do
    let (fdata, calls) ← fdata.rimListStore name data append np
    some (fdata, calls, {})
  | .read c => do
    let (fdata, calls, pair, st) ← fdata.read c
    some (fdata, calls, .of pair st c.status)
  | .position dest status => do
    let (fdata, st) ← fdata.position dest
    some (fdata, [], .of none st status)
  | .delete status => do
    let (fdata, calls, st) ← fdata.rimListDelete
    some (fdata, calls, .of none st status)
  | .purge addr => do
    let (fdata, calls) ← fdata.rimListPurge addr
    some (fdata, calls, {})

end RimList

end RimStone
