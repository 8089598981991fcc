import RimStone.Memory.Str
import Mathlib.Data.List.AList

/-!
# Hashes

A hash of `hash.c` is a table of buckets, each a chain of items, and a cursor for
the traversal: the bucket `dnext`, the item to be read next (`dcurr`) and the one
read before (`dprev`). An item is a block of memory. The items of a hash are a map
from their addresses; `rim_del_hash_entry` gives the block of an item up, and takes
it out of the map. To follow a pointer to a block that was given up, or to read
the table beyond its memory, is undefined, and a function that does is `none`.

What a function asks of the memory it returns as calls, as for trees. A function
that allocates takes the addresses the memory answers with. A chain has no more
items than are in memory; a loop that goes on beyond them goes in a circle.
-/

namespace RimStone

/-- `rim_hash_table`, an item of a bucket -/
structure HashItem where
  key : RimStr
  data : Addr
  next : Option Addr
  deriving DecidableEq, Repr

abbrev HashItems := AList fun _ : Addr => HashItem

def HashItems.cell (items : HashItems) (a : Addr) : Option (Option Addr) :=
  (items.lookup a).map (·.next)

/-- `rim_hash`, at `addr`. Its table, at `tableAddr`, has room for `tableLen` pointers. -/
structure RimHash where
  addr : Addr
  tableAddr : Addr
  numBuckets : Nat
  tableLen : Nat
  table : Nat → Option Addr := fun _ => none
  items : HashItems := ∅
  dnext : Nat := 0
  dcurr : Option Addr := none
  dprev : Option Addr := none
  tot : Int := 0
  hits : Int := 0
  reads : Int := 0
  process : Bool

/-- What a function returns to the statement: the key and the value it read, and
the status. -/
structure HashOut where
  key : RimStr := RIM_EMPTY_STRING
  data : Addr := RIM_EMPTY_STRING.addr
  st : RimStatus := .okay
  deriving DecidableEq, Repr

def RIM_FNVPRIME : UInt32 := 16777619

def RIM_FNVOFFSETBASIS : UInt32 := 2166136261

/-- The loop of `rim_compute_hash`. -/
def rimFnvComp : UInt32 → Bytes → UInt32
  | h, [] => h
  | h, c :: d =>
    if c = 0 then h else rimFnvComp ((h ^^^ c.toUInt32) * RIM_FNVPRIME) d

def rimComputeHash (d : RimStr) (size : Nat) : Nat :=
  (rimFnvComp RIM_FNVOFFSETBASIS d.memory).toNat % size

/-- The bytes of an item, of a table of pointers and of a hash. -/
def sizeofItem : Nat := 24
def sizeofPtr : Nat := 8
def sizeofHash : Nat := 72

namespace RimHash

/-- `h->table[i]` -/
def tableGet (h : RimHash) (i : Nat) : Option (Option Addr) :=
  if i < h.tableLen then some (h.table i) else none

/-- `h->table[i] = p` -/
def tableSet (h : RimHash) (i : Nat) (p : Option Addr) : Option RimHash :=
  if i < h.tableLen then some { h with table := Function.update h.table i p } else none

def setItem (h : RimHash) (a : Addr) (f : HashItem → HashItem) : Option RimHash :=
  (h.items.lookup a).map fun e => { h with items := h.items.insert a (f e) }

def rimRewindHash (h : RimHash) : Option RimHash := do
  let dcurr ← h.tableGet 0
  some { h with dnext := 0, dcurr, dprev := none }

/-- `rim_create_hash`, which allocates a hash and its table. The bytes of the table
are a `size_t`. -/
def rimCreateHash (size : Int) (process : Bool) (addr tableAddr : Addr) :
    Option (RimHash × List MemCall) := do
  let size := if size < 256 then 256 else size.toNat
  let h : RimHash := {
    addr := addr, tableAddr := tableAddr, numBuckets := size,
    tableLen := size * sizeofPtr % 2 ^ 64 / sizeofPtr, process := process }
  let h ← h.rimRewindHash
  some (h, [.malloc addr sizeofHash, .calloc tableAddr size sizeofPtr])

def rimDelHashEntry (h : RimHash) (todel : Addr) (prev : Option Addr) (hashind : Option Nat)
    (keydel : Bool) : Option (RimHash × List MemCall) := do
  let e ← h.items.lookup todel
  let h ← match prev with
    | none => h.tableSet (hashind.getD (rimComputeHash e.key h.numBuckets)) e.next
    | some p => h.setItem p fun q => { q with next := e.next }
  let calls := if keydel then [.decProcess e.key.addr, .decProcess e.data] else []
  let h := { h with items := h.items.erase todel }
  let h := if h.dcurr = some todel then { h with dcurr := e.next } else h
  some ({ h with tot := h.tot - 1 }, calls ++ [.decProcess todel])

/-- The loop over a bucket in `rim_find_hash` and `rim_add_hash`: the item with the
key and the one before it, and how many keys were compared. -/
def rimBucketLoop (items : HashItems) (same : RimStr → Bool) :
    Nat → Int → Option Addr → Option Addr → Option (Int × Option Addr × Option Addr)
  | _, reads, prev, none => some (reads, prev, none)
  | 0, _, _, some _ => none
  | fuel + 1, reads, prev, some curr => do
    let e ← items.lookup curr
    if same e.key then some (reads + 1, prev, some curr)
    else rimBucketLoop items same fuel (reads + 1) (some curr) e.next

def rimFindHash (h : RimHash) (key : RimStr) (del isRim : Bool) :
    Option (RimHash × List MemCall × HashOut) := do
  let h := { h with hits := h.hits + 1 }
  let hashind := rimComputeHash key h.numBuckets
  let curr ← h.tableGet hashind
  let same (k : RimStr) : Bool :=
    if isRim then rimCmStr key (rimMemGetLen key) k (rimMemGetLen k)
    else strcmp key.memory k.memory = 0
  let (reads, prev, hresult) ← rimBucketLoop h.items same h.items.keys.length 0 none curr
  let h := { h with reads := h.reads + reads }
  match hresult with
  | none => some (h, [], { st := .errExist })
  | some a => do
    let e ← h.items.lookup a
    if del then
      let (h, calls) ← h.rimDelHashEntry a prev (some hashind) true
      some (h, calls, { data := e.data })
    else some (h, [], { data := e.data })

/-- `rim_new_hash_item`, where `new` is where the item is; its `next` is for the
caller to set. -/
def rimNewHashItem (key : RimStr) (data new : Addr) : HashItem × List MemCall :=
  ({ key := key, data := data, next := none }, [.malloc new sizeofItem, .addRef key.addr, .addRef data])

/-- `rim_add_hash`. `oldData` says whether the caller asks for the old value; `st` and
`data` are what it is told. -/
def rimAddHash (h : RimHash) (key : RimStr) (data : Addr) (oldData : Bool) (new : Addr) :
    Option (RimHash × List MemCall × HashOut) := do
  let hashind := rimComputeHash key h.numBuckets
  let el ← h.tableGet hashind
  let (_, _, bucket) ← rimBucketLoop h.items (fun k => strcmp key.memory k.memory = 0)
    h.items.keys.length 0 none el
  match bucket with
  | none => do
    let (item, calls) := rimNewHashItem key data new
    let h ← h.tableSet hashind (some new)
    some ({ h with items := h.items.insert new { item with next := el }, tot := h.tot + 1 },
      calls, {})
  | some a => do
    let e ← h.items.lookup a
    let h ← h.setItem a fun e => { e with key, data }
    let drop := if oldData then [] else [.decProcess e.data]
    some (h, [.addRef key.addr, .addRef data] ++ drop ++ [.decProcess e.key.addr],
      if oldData then { data := e.data, st := .infoExist } else {})

/-- The loop of `rim_next_hash` to the next bucket that is not empty, whose first item
it answers. It starts within the table, and there are `fuel` buckets left. -/
def rimNextLoop : Nat → RimHash → Option (RimHash × Option Addr)
  | 0, _ => none
  | fuel + 1, h => do
    let h := { h with dnext := h.dnext + 1 }
    if h.dnext = h.numBuckets then some (h, none)
    else
      let dcurr ← h.tableGet h.dnext
      let h := { h with dcurr }
      if dcurr = none then rimNextLoop fuel h else some (h, dcurr)

/-- The first half of `rim_next_hash`, up to the item to be returned. -/
def rimNextItem (h : RimHash) : Option (RimHash × Option Addr) :=
  if h.dnext = h.numBuckets then some (h, none)
  else if h.dcurr = none then rimNextLoop (h.numBuckets - h.dnext) { h with dprev := none }
  else some (h, h.dcurr)

def rimNextHash (h : RimHash) (del : Bool) : Option (RimHash × List MemCall × HashOut) := do
  let (h, dcurr) ← h.rimNextItem
  match dcurr with
  | none => some (h, [], { st := .errExist })
  | some a => do
    let e ← h.items.lookup a
    if del then
      let (h, calls) ← h.rimDelHashEntry a h.dprev (some h.dnext) false
      some (h, calls, { key := e.key, data := e.data })
    else some ({ h with dprev := some a, dcurr := e.next }, [], { key := e.key, data := e.data })

/-- The loop over one bucket in `rim_delete_hash`. -/
def rimDeleteBucket (items : HashItems) (del : Bool) : Nat → Option Addr → Option (List MemCall)
  | _, none => some []
  | 0, some _ => none
  | fuel + 1, some tmp => do
    let e ← items.lookup tmp
    let calls ← rimDeleteBucket items del fuel e.next
    some ((if del then [.decProcess e.key.addr, .decProcess e.data] else []) ++
      .decProcess tmp :: calls)

/-- `rim_delete_hash`. With `del` a new hash of the same size takes the place of the
old one. -/
def rimDeleteHash (h : RimHash) (del : Bool) (addr tableAddr : Addr) :
    Option (Option RimHash × List MemCall) := do
  let items ← (List.range h.numBuckets).mapM fun i => do
    let hnext ← h.tableGet i
    rimDeleteBucket h.items del h.items.keys.length hnext
  let calls := items.flatten ++ [.decProcess h.tableAddr, .decProcess h.addr]
  if del then
    let (new, create) ← rimCreateHash h.numBuckets h.process addr tableAddr
    some (some { new with hits := h.hits, reads := h.reads, process := h.process }, calls ++ create)
  else some (none, calls)

/-- The loop of `rim_resize_hash`: the items of `h` are added to `nh`. Each round
reads another item. -/
def rimResizeLoop (answer : Nat → Addr) :
    Nat → Nat → RimHash → RimHash → Option (RimHash × RimHash × List MemCall)
  | 0, _, _, _ => none
  | fuel + 1, i, h, nh => do
    let (h, _, next) ← h.rimNextHash false
    if next.st = .errExist then some (h, nh, [])
    else
      let (nh, calls, _) ← nh.rimAddHash next.key next.data false (answer i)
      let (h, nh, calls') ← rimResizeLoop answer fuel (i + 1) h nh
      some (h, nh, calls ++ calls')

/-- `rim_resize_hash`, where `answer` is what the memory answers, call by call. -/
def rimResizeHash (h : RimHash) (newsize : Int) (answer : Nat → Addr) :
    Option (RimHash × List MemCall) := do
  let (nh, create) ← rimCreateHash newsize h.process (answer 0) (answer 1)
  let h ← h.rimRewindHash
  let (h, nh, calls) ← rimResizeLoop answer (h.items.keys.length + 1) 2 h nh
  let (_, delete) ← h.rimDeleteHash false (answer 0) (answer 1)
  some ({ nh with hits := h.hits, reads := h.reads }, create ++ calls ++ delete)

end RimHash

/-- What a program does with a hash: the functions that the statements call. -/
inductive HashOp where
  /-- `write-hash`; `oldData` says whether there is an `old-value` clause -/
  | add (key : RimStr) (data : Addr) (oldData : Bool) (new : Addr)
  /-- `read-hash` with a key -/
  | find (key : RimStr) (del : Bool)
  /-- `read-hash` with `traverse`, and `begin` -/
  | next (del : Bool)
  | rewind
  /-- `resize-hash` -/
  | resize (newsize : Int) (answer : Nat → Addr)
  /-- `purge-hash` -/
  | purge (addr tableAddr : Addr)

namespace RimHash

def exec (h : RimHash) : HashOp → Option (RimHash × List MemCall × HashOut)
  | .add key data oldData new => h.rimAddHash key data oldData new
  | .find key del => h.rimFindHash key del true
  | .next del => h.rimNextHash del
  | .rewind => do
    let h ← h.rimRewindHash
    some (h, [], {})
  | .resize newsize answer => do
    let (h, calls) ← h.rimResizeHash newsize answer
    some (h, calls, {})
  | .purge addr tableAddr => do
    let (h, calls) ← h.rimDeleteHash true addr tableAddr
    let h ← h
    some (h, calls, {})

end RimHash

/-!
## Statements

What `v1.c` generates for the hash statements: a call of `hash.c`, between setting
`rim_mem_process` to the hash's and clearing it where the call may take references.
A system is a memory with the hashes in it.
-/

structure HashSys where
  mem : Mem
  hashes : List RimHash

/-- A statement on the hash with index `i`, or what goes on around statements. -/
inductive HashStmt where
  | newString (p : Addr) (size : Nat)
  | writeHash (i : Nat) (key : RimStr) (value : Addr) (oldValue : Bool) (new : Addr)
  | readHash (i : Nat) (key : RimStr) (del : Bool)
  | resizeHash (i : Nat) (size : Int) (answer : Nat → Addr)
  | purgeHash (i : Nat) (addr tableAddr : Addr)
  | endRequest

namespace HashSys

def onHash (s : HashSys) (i : Nat) (op : HashOp) : Except (Fault Mem) HashSys :=
  match s.hashes[i]? with
  | none => .error .undefined
  | some h =>
    match h.exec op with
    | none => .error .undefined
    | some (h', calls, _) => do
      let mem ← s.mem.inScope h.process calls
      .ok { mem, hashes := s.hashes.set i h' }

/-- What a statement does, when it returns. To delete with `read-hash` takes no
reference, so it is the same in any scope. -/
def exec (s : HashSys) : HashStmt → Except (Fault Mem) HashSys
  | .newString p size => do
    let (_, mem) ← s.mem.rimMalloc (some p) size
    .ok { s with mem }
  | .writeHash i key value oldValue new => s.onHash i (.add key value oldValue new)
  | .readHash i key del => s.onHash i (.find key del)
  | .resizeHash i size answer => s.onHash i (.resize size answer)
  | .purgeHash i addr tableAddr => s.onHash i (.purge addr tableAddr)
  | .endRequest => do
    let mem ← s.mem.rimDone
    .ok { s with mem }

end HashSys

end RimStone
