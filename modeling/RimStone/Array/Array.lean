import RimStone.Memory.Str

/-!
# Arrays

An array is an allocation with three counts: how many elements it may have, how many are allocated, and how
many there are up to the last that was set. `write-array` and `read-array` set elements in generated code, after
the calls of `arr.c`. An element of the allocation that was not set is `none`; to read it, or what is not in the
allocation, is undefined. `mem` says of each size in bytes whether that much memory can be had. References to
strings are counted in the memory, and left out here.
-/

namespace RimStone

inductive ArrayKind
  | string
  | number
  | double
  | bool
  deriving DecidableEq, Repr

namespace ArrayKind

/-- What an element is. A `rim_dbl` is its 64 bits. -/
def Val : ArrayKind → Type
  | string => RimStr
  | number => Int
  | double => UInt64
  | bool => Bool

/-- `RIM_EMPTY_STRING`, 0, 0.0 and `false` -/
def default : (k : ArrayKind) → k.Val
  | string => RIM_EMPTY_STRING
  | number => (0 : Int)
  | double => (0 : UInt64)
  | bool => false

/-- `sizeof` an element -/
def size : ArrayKind → Nat
  | string | number | double => 8
  | bool => 1

end ArrayKind

/-- How large a double is, without what is behind the point. -/
def dblMagnitude (d : UInt64) : Nat :=
  let exponent := d.toNat / 2 ^ 52 % 2 ^ 11
  let fraction := 2 ^ 52 + d.toNat % 2 ^ 52
  if exponent < 1023 then 0
  else if exponent < 1023 + 52 then fraction / 2 ^ (1023 + 52 - exponent)
  else fraction * 2 ^ (exponent - (1023 + 52))

/-- A double made a `rim_num`; that is undefined where it is too large. -/
def dblToNum (d : UInt64) : Option Int :=
  let n : Int := if d.toNat < 2 ^ 63 then dblMagnitude d else - dblMagnitude d
  if -2 ^ 63 ≤ n ∧ n < 2 ^ 63 then some n else none

/-- What the variable for an old value holds: `rim_write_arraydouble` has a pointer to a `rim_num` for it, so that
the bits of a number are stored. -/
def ArrayKind.asOld : (k : ArrayKind) → k.Val → Option k.Val
  | .string, v => some v
  | .number, v => some v
  | .double, (d : UInt64) => (dblToNum d).map fun n => (UInt64.ofNat (n % 2 ^ 64).toNat : UInt64)
  | .bool, v => some v

/-- `rim_arraystring`, `rim_arraynumber`, `rim_arraydouble`, `rim_arraybool` -/
structure RimArray (k : ArrayKind) where
  elems : List (Option k.Val)
  maxElem : Int
  allocElem : Int
  totElem : Int

def RIM_ARRAY_INC : Int := 256

namespace RimArray

variable {k : ArrayKind}

def get (arr : RimArray k) (key : Int) : Option k.Val := arr.elems[key.toNat]?.join

def set (arr : RimArray k) (key : Int) (v : k.Val) : Option (RimArray k) :=
  if key.toNat < arr.elems.length then some { arr with elems := arr.elems.set key.toNat (some v) } else none

/-- `n` elements from `start` on are made default. -/
def fill (elems : List (Option k.Val)) (start n : Nat) : Option (List (Option k.Val)) :=
  if start + n ≤ elems.length then some (elems.take start ++ List.replicate n (some k.default) ++ elems.drop (start + n))
  else none

/-- What there is to work with, or undefined behaviour. -/
def inArray {α : Type} : Option α → Except (Fault Unit) α
  | some a => .ok a
  | none => .error .undefined

/-- `rim_init_array` -/
def init (k : ArrayKind) (mem : Nat → Bool) (maxElem : Int) : Except (Fault Unit) (RimArray k) :=
  if maxElem < 0 then .error (.report "Maximum number of elements in array cannot be negative" ())
  else
    let maxElem := if maxElem = 0 then 1000000 else maxElem
    let maxElem := if maxElem < RIM_ARRAY_INC then RIM_ARRAY_INC else maxElem
    if mem (RIM_ARRAY_INC.toNat * k.size) = false then .error (.report "Out of memory" ())
    else do
      -- `rim_calloc` fills what it allocates, strings are filled by `rim_set_string`
      let elems ← inArray (fill (List.replicate RIM_ARRAY_INC.toNat none) 0 RIM_ARRAY_INC.toNat)
      .ok { elems, maxElem, allocElem := RIM_ARRAY_INC, totElem := 0 }

/-- `rim_purge_array` -/
def purge (arr : RimArray k) (mem : Nat → Bool) : Except (Fault Unit) (RimArray k) :=
  if k = .string ∧ ¬ ∀ i < arr.allocElem.toNat, (arr.get i).isSome then .error .undefined
  else init k mem arr.maxElem

/-- How many elements are allocated for a key. -/
def grown (maxElem key : Int) : Int :=
  let alloc := if key < 65536 then key * 2 else key + 65536
  if alloc > maxElem then maxElem else alloc

def grow (arr : RimArray k) (mem : Nat → Bool) (key : Int) : Except (Fault Unit) (RimArray k) :=
  if 65536 ≤ key ∧ 2 ^ 63 ≤ key + 65536 then .error .undefined
  else
    let alloc := grown arr.maxElem key
    let bytes := alloc.toNat * k.size % 2 ^ 64
    if mem bytes = false then .error (.report "Out of memory" ())
    else do
      let elems := arr.elems.take (bytes / k.size) ++ List.replicate (bytes / k.size - arr.elems.length) none
      let more := (alloc - arr.allocElem).toNat
      let n := if k = .string then more else more * k.size % 2 ^ 64 / k.size
      let elems ← inArray (fill elems arr.allocElem.toNat n)
      .ok { arr with elems, allocElem := alloc }

/-- More elements are allocated if the key is not there. -/
def reserve (arr : RimArray k) (mem : Nat → Bool) (key : Int) : Except (Fault Unit) (RimArray k) :=
  if key ≥ arr.allocElem then arr.grow mem key else .ok arr

def count (arr : RimArray k) (key : Int) : RimArray k :=
  if key ≥ arr.totElem then { arr with totElem := key + 1 } else arr

/-- `rim_write_array`: the array, and what the variable for the old value holds if there is one. -/
def rimWriteArray (arr : RimArray k) (mem : Nat → Bool) (key : Int) (oldVal : Bool) :
    Except (Fault Unit) (RimArray k × Option k.Val) :=
  if key < 0 then .error (.report "Index to array is negative [%ld]" ())
  else if key ≥ arr.maxElem then
    .error (.report "Index to array is too large for array sizing [%ld], maximum allowed is currently set to [%ld] (see max-size clause in new-array)" ())
  else do
    let arr ← arr.reserve mem key
    let arr := arr.count key
    if oldVal then do
      let v ← inArray (arr.get key)
      let v ← inArray (k.asOld v)
      .ok (arr, some v)
    else if k = .string then do
      let _ ← inArray (arr.get key)
      .ok (arr, none)
    else .ok (arr, none)

def rimReadArray (arr : RimArray k) (key : Int) : Except (Fault Unit) k.Val :=
  if key ≥ arr.maxElem ∨ key < 0 then
    .error (.report "Index [%ld] to array is negative or is beyond maximum allowable size" ())
  else if key ≥ arr.allocElem then .ok k.default
  else inArray (arr.get key)

end RimArray

inductive ArrayOp (k : ArrayKind) where
  /-- `write-array` -/
  | write (key : Int) (value : k.Val)
  /-- `write-array` with `old-value`, which the value may be made of -/
  | writeOld (key : Int) (value : k.Val → k.Val)
  /-- `read-array` -/
  | read (key : Int) (delete : Bool)
  /-- `purge-array` -/
  | purge

variable {k : ArrayKind}

open RimArray in
/-- The code that is generated for a statement: the array, and the value that is read. -/
def ArrayOp.exec (arr : RimArray k) (mem : Nat → Bool) : ArrayOp k → Except (Fault Unit) (RimArray k × Option k.Val)
  | .write key value => do
    let (arr, _) ← arr.rimWriteArray mem key false
    let arr ← inArray (arr.set key value)
    .ok (arr, none)
  | .writeOld key value => do
    let (arr, old) ← arr.rimWriteArray mem key true
    let old ← inArray old
    let arr ← inArray (arr.set key (value old))
    .ok (arr, some old)
  | .read key delete => do
    let v ← arr.rimReadArray key
    let arr ← inArray (if delete then arr.set key k.default else some arr)
    .ok (arr, some v)
  | .purge => do
    let arr ← arr.purge mem
    .ok (arr, none)

end RimStone
