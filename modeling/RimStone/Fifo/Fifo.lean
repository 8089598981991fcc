import RimStone.Memory.Str
import Mathlib.Data.List.AList

/-!
# FIFO lists

A list of `rim_fifo` is a chain of items from `first_ptr` to `last_ptr`, with a pointer
to the item that is read next. An item is a block of memory, as for hashes; the items
of a list are a map from their addresses. To follow `NULL` or a pointer to a block that
was given up is undefined, and a function that does is `none`.
-/

namespace RimStone

/-- `rim_fifo_item` -/
structure FifoItem where
  data : Addr
  name : RimStr
  next : Option Addr
  deriving DecidableEq, Repr

abbrev FifoItems := AList fun _ : Addr => FifoItem

/-- `rim_fifo`, at `addr` -/
structure RimFifo where
  addr : Addr
  firstPtr : Option Addr := none
  lastPtr : Option Addr := none
  retrievePtr : Option Addr := none
  numOf : Int := 0
  items : FifoItems := ∅

def sizeofFifoItem : Nat := 24
def sizeofFifo : Nat := 32

def rimStoreInit (addr : Addr) : RimFifo × List MemCall := ({ addr }, [.malloc addr sizeofFifo])

namespace RimFifo

/-- `rim_store`, where the memory answers `np`. -/
def rimStore (fdata : RimFifo) (name : RimStr) (data : Addr) (np : Addr) : Option (RimFifo × List MemCall) := do
  let calls := [.malloc np sizeofFifoItem, .addRef data, .addRef name.addr]
  let fdata := { fdata with items := fdata.items.insert np { data, name, next := none } }
  let fdata ←
    if fdata.numOf = 0 then
      some { fdata with firstPtr := some np, lastPtr := some np, retrievePtr := some np }
    else do
      let last ← fdata.lastPtr
      let item ← fdata.items.lookup last
      some { fdata with items := fdata.items.insert last { item with next := some np }, lastPtr := some np }
  some ({ fdata with numOf := fdata.numOf + 1 }, calls)

/-- `rim_store_l`, where the memory answers `np`. -/
def rimStoreL (fdata : RimFifo) (name : RimStr) (data : Addr) (np : Addr) : RimFifo × List MemCall :=
  let calls := [.malloc np sizeofFifoItem, .addRef data, .addRef name.addr]
  let item : FifoItem := { data, name, next := if fdata.numOf = 0 then none else fdata.firstPtr }
  ({ fdata with items := fdata.items.insert np item, firstPtr := some np,
                lastPtr := if fdata.numOf = 0 then some np else fdata.lastPtr, retrievePtr := some np,
                numOf := fdata.numOf + 1 }, calls)

/-- `rim_retrieve`: the name and the data, or `RIM_ERR_EXIST`. -/
def rimRetrieve (fdata : RimFifo) : Option (RimFifo × Option (RimStr × Addr)) :=
  match fdata.retrievePtr with
  | none => some (fdata, none)
  | some p => do
    let item ← fdata.items.lookup p
    some ({ fdata with retrievePtr := item.next }, some (item.name, item.data))

def rimRewind (fdata : RimFifo) : RimFifo := { fdata with retrievePtr := fdata.firstPtr }

/-- The loop of `rim_fifo_delete`, as far as `fuel` rounds go. -/
def rimFifoDeleteLoop : Nat → RimFifo → Option (RimFifo × List MemCall)
  | 0, fdata => if fdata.firstPtr = fdata.retrievePtr then some (fdata, []) else none
  | fuel + 1, fdata =>
    if fdata.firstPtr = fdata.retrievePtr then some (fdata, [])
    else do
      let temp ← fdata.firstPtr
      let item ← fdata.items.lookup temp
      let fdata :=
        if fdata.lastPtr = some temp then { fdata with lastPtr := none, firstPtr := none, retrievePtr := none }
        else { fdata with firstPtr := item.next }
      let (fdata, calls) ← rimFifoDeleteLoop fuel
        { fdata with items := fdata.items.erase temp, numOf := fdata.numOf - 1 }
      some (fdata, .decProcess item.data :: .decProcess item.name.addr :: .decProcess temp :: calls)

/-- `rim_fifo_delete`. A round gives an item up, so there are no more rounds than items. -/
def rimFifoDelete (fdata : RimFifo) : Option (RimFifo × List MemCall) :=
  if fdata.firstPtr = none then some (fdata, []) else rimFifoDeleteLoop fdata.items.entries.length fdata

/-- `rim_purge`, where the memory answers `addr` for the new list. -/
def rimPurge (fdata : RimFifo) (addr : Addr) : Option (RimFifo × List MemCall) := do
  let (fdata, calls) ← rimFifoDelete { fdata with retrievePtr := none }
  let (new, callsNew) := rimStoreInit addr
  some (new, calls ++ .decProcess fdata.addr :: callsNew)

end RimFifo

inductive FifoOp where
  | store (name : RimStr) (data np : Addr)
  | retrieve
  | rewind
  | delete
  | purge (addr : Addr)
  deriving DecidableEq, Repr

namespace RimFifo

/-- What an operation does: the list, the calls on memory, and what it retrieved. -/
def exec (fdata : RimFifo) : FifoOp → Option (RimFifo × List MemCall × Option (RimStr × Addr))
  | .store name data np => do
    let (fdata, calls) ← fdata.rimStore name data np
    some (fdata, calls, none)
  | .retrieve => do
    let (fdata, out) ← fdata.rimRetrieve
    some (fdata, [], out)
  | .rewind => some (fdata.rimRewind, [], none)
  | .delete => do
    let (fdata, calls) ← fdata.rimFifoDelete
    some (fdata, calls, none)
  | .purge addr => do
    let (fdata, calls) ← fdata.rimPurge addr
    some (fdata, calls, none)

/-- What an operation does to a LIFO list, which differs in how it stores. -/
def execL (fdata : RimFifo) : FifoOp → Option (RimFifo × List MemCall × Option (RimStr × Addr))
  | .store name data np =>
    let (fdata, calls) := fdata.rimStoreL name data np
    some (fdata, calls, none)
  | op => fdata.exec op

end RimFifo

end RimStone
