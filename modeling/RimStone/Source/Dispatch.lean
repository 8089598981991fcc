import RimStone.Hash.Hash
import RimStone.Laws.Memory.Str
import Mathlib.Data.List.DropRight
import RimStone.Request.Body

/-!
# The table of names that is there before the program runs

`setup_internal_hash` of `v1.c` reads a list of names, the first line of which says how many there are, puts them into a
hash, and writes C code that has the same hash in one array. The first item of a bucket has the index of its bucket, the
other ones are put behind the buckets. A program that has the array is given a hash over it by `rim_create_hash`, from a
table of pointers and the number of the names.

The code that is written is taken as C reads it: entries with their index, key, data and link. A name is put between
quotes as it is. What a name of the program stands for is found by the linker (`sym`).
-/

namespace RimStone

/-- `isalpha`, in the `C` locale -/
def isalpha (c : UInt8) : Bool := (65 ≤ c && c ≤ 90) || (97 ≤ c && c ≤ 122)

/-- `rim_is_valid_param_name`, where no hyphen is converted -/
def rimIsValidParamName (name : Bytes) (hyphen : Bool) : Bool :=
  match name with
  | [] => false
  | c :: name => isalpha c && name.all fun c => isalnum c || c == 95 || (c == 45 && hyphen)

/-- At most `n` characters, up to and with the first newline, and what is left. -/
def fgetsTake : Nat → Bytes → Bytes × Bytes
  | 0, f => ([], f)
  | _ + 1, [] => ([], [])
  | n + 1, c :: f => if c = 10 then ([c], f) else (c :: (fgetsTake n f).1, (fgetsTake n f).2)

/-- `fgets_unlocked` into a buffer of `n` bytes: what is in it before the null, and what is left of the file -/
def fgetsUnlocked (n : Nat) (f : Bytes) : Option (Bytes × Bytes) := if f = [] then none else some (fgetsTake (n - 1) f)

/-- What is read from a file, line by line, in at most `fuel` rounds. -/
def fgetsLines (n : Nat) : Nat → Bytes → List Bytes
  | 0, _ => []
  | fuel + 1, f =>
    match fgetsUnlocked n f with
    | none => []
    | some (line, f) => line :: fgetsLines n fuel f

/-- `trimit`, of the string that the buffer holds -/
def trimit (line : Bytes) : Bytes := ((cstr line).dropWhile isspace).rdropWhile isspace

inductive SetupError where
  /-- `RIM_MSG_SRC_NAME` -/
  | srcName (req : Bytes)
  /-- the hash is used before it is created, or is too large to be -/
  | undefined
  deriving DecidableEq, Repr

/-- `rim_hardhash`, and the strings that its data are. -/
structure HardHash where
  hash : RimHash
  texts : Addr → Bytes := fun _ => []
  added : Nat := 0

def aprm (req : Bytes) : Bytes := ascii "(void*)&_rim_aprm_" ++ req

/-- The size of `hdata` -/
def sizeofHdata : Nat := 300

/-- One name. What the memory answers is `answer`: for the name, for its data and for the item. -/
def addName (isReq : Bool) (answer : Nat → Addr) (h : HardHash) (req : Bytes) : Except SetupError HardHash :=
  if isReq = true ∧ rimIsValidParamName req false = false then .error (.srcName req)
  else
    let key : RimStr := ⟨answer (3 * h.added), req⟩
    let new := answer (3 * h.added + 2)
    if isReq then
      match h.hash.rimAddHash key RIM_EMPTY_STRING.addr false new with
      | none => .error .undefined
      | some (hash, _, _) => .ok { h with hash, added := h.added + 1 }
    else
      let hdata := (aprm req).take (sizeofHdata - 1)
      let data := answer (3 * h.added + 1)
      match h.hash.rimAddHash key data false new with
      | none => .error .undefined
      | some (hash, _, _) =>
        .ok { hash, texts := Function.update h.texts data hdata, added := h.added + 1 }

/-- An entry of the array: `[index].key`, `[index].data` and `[index].next`. -/
structure HashInit where
  index : Nat
  key : Bytes
  data : Bytes
  next : Option Nat
  deriving DecidableEq, Repr

/-- What is written: the array with its size and the entry at its end, the pointers to the buckets with their number,
and the size that `rim_create_hash` is given. -/
structure StaticTable where
  harr : Int
  inits : List HashInit
  last : Int
  ptrs : List (Option Nat)
  ptrSize : Int
  tot : Int
  deriving DecidableEq, Repr

/-- The loop over the items of a bucket: the entries, and the bottom of the array behind them. -/
def bucketInits (h : HardHash) (isReq : Bool) : Nat → Nat → Nat → Option Addr → Option (List HashInit × Nat)
  | _, _, bottom, none => some ([], bottom)
  | 0, _, _, some _ => none
  | fuel + 1, currI, bottom, some t => do
    let e ← h.hash.items.lookup t
    let data := if isReq then e.key.bytes else h.texts e.data
    match e.next with
    | none => some ([⟨currI, e.key.bytes, data, none⟩], bottom)
    | some t => do
      let (inits, bottom') ← bucketInits h isReq fuel bottom (bottom + 1) (some t)
      some (⟨currI, e.key.bytes, data, some bottom⟩ :: inits, bottom')

/-- The loop over the buckets from `i` on. -/
def tableInits (h : HardHash) (isReq : Bool) : Nat → Nat → Nat → Option (List HashInit)
  | 0, _, _ => some []
  | n + 1, i, bottom => do
    let t ← h.hash.tableGet i
    let (inits, bottom) ← bucketInits h isReq h.hash.items.keys.length i bottom t
    let rest ← tableInits h isReq n (i + 1) bottom
    some (inits ++ rest)

def unwind (h : HardHash) (isReq : Bool) : Option StaticTable := do
  let table ← (List.range h.hash.numBuckets).mapM fun i => h.hash.tableGet i
  let empty := table.countP (·.isNone)
  let harr := h.hash.tot + 1 + empty
  let inits ← tableInits h isReq h.hash.numBuckets 0 h.hash.numBuckets
  some {
    harr, inits, last := harr - 1,
    ptrs := (List.range h.hash.numBuckets).map fun i => (h.hash.table i).map fun _ => i
    ptrSize := harr - 1, tot := h.hash.tot }

def setupInternalHash (isReq : Bool) (answer : Nat → Addr) (addr tableAddr : Addr) (file : Bytes) :
    Except SetupError StaticTable :=
  match (fgetsLines RIM_MAX_REQ_NAME_LEN file.length file).map trimit with
  | [] => .error .undefined
  | count :: reqs =>
    match RimHash.rimCreateHash (strtol count) false addr tableAddr with
    | none => .error .undefined
    | some (hash, _) => do
      let h ← reqs.foldlM (addName isReq answer) { hash }
      match unwind h isReq with
      | none => .error .undefined
      | some t => .ok t

/-! ## The program that has the table -/

/-- `rim_create_hash` where the table is there already -/
def RimHash.rimCreateHashIn (size : Int) (inH : Nat → Option Addr) (tableLen : Nat) (items : HashItems) :
    Option RimHash :=
  RimHash.rimRewindHash {
    addr := 0, tableAddr := 0, numBuckets := if size < 256 then 256 else size.toNat, tableLen, table := inH, items,
    process := false }

/-- The entries in memory, by their index. One that is written twice is the one that was written last. -/
def StaticTable.items (sym : Bytes → Addr) (t : StaticTable) : HashItems :=
  t.inits.foldl (fun items e => items.insert e.index { key := ⟨0, e.key⟩, data := sym e.data, next := e.next }) ∅

def StaticTable.load (sym : Bytes → Addr) (t : StaticTable) : Option RimHash :=
  RimHash.rimCreateHashIn t.tot (fun i => (t.ptrs[i]?).join) t.ptrSize.toNat (t.items sym)

end RimStone
