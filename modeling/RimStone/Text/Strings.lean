import RimStone.Text.WriteString

/-!
# Strings and variables

A string is a pointer to its bytes, which follow a header that has their number. A variable
has a pointer, so that an assignment makes an alias, and statements that set a byte, set the
length or trim change the bytes for all aliases. A literal and a `new-string` with a small
constant length are static arrays: each is made once for a process. All others are blocks of
memory. What ends a request is part of the runs, and so is a reported error, which ends it.

What `malloc` gives is part of each step.
-/

namespace RimStone

/-- What becomes of a number that is stored in a `rim_num`. -/
def toRimNum (x : Int) : Int := (x + 2 ^ 63) % 2 ^ 64 - 2 ^ 63

/-- `sizeof(rim_head)` -/
def sizeofHead : Int := 16

/-- The bytes of a string, as far as they were allocated, and `rim_head.len`. -/
structure StrBlock where
  bytes : Bytes
  len : Int
  deriving DecidableEq, Repr

/-- A `char *` to a string. -/
inductive StrPtr where
  /-- `RIM_EMPTY_STRING` -/
  | empty
  /-- The array of a literal, `_rim_gstr`. -/
  | literal (n : Nat)
  /-- The array of a `new-string` with a constant length. -/
  | array (n : Nat)
  /-- What `rim_malloc` gave. -/
  | mem (n : Nat)
  deriving DecidableEq, Repr

structure StrProg where
  literal : Nat → Bytes
  /-- The lengths of the `new-string`s with a constant length. -/
  newLen : Nat → Nat
  process : Nat → Bool
  literal_lt : ∀ n, (literal n).length < 2 ^ 47
  newLen_pos : ∀ n, 0 < newLen n
  newLen_lt : ∀ n, newLen n < 1024

inductive StrTerm where
  | var (v : Nat)
  | literal (n : Nat)

/-- A part of a concatenation: a string, or `@(t, beg, len)`. -/
inductive StrPart where
  | whole (t : StrTerm)
  | sub (t : StrTerm) (beg len : Int64)

inductive StrOp where
  /-- `set-string str = e`; without `=` there is no part. -/
  | setString (str : Nat) (e : List StrPart)
  /-- `set-string str length len` -/
  | setLength (str : Nat) (len : Int64)
  /-- `set-string str[ind] = num` -/
  | setByte (str : Nat) (ind num : Int64)
  /-- An expression with `str[ind]`. -/
  | getByte (str : Nat) (ind : Int64)
  /-- `new-string str length` with the `n`-th constant. -/
  | newArray (str n : Nat)
  /-- `new-string str length len` -/
  | newString (str : Nat) (len : Int64)
  | trimString (e : List StrPart)
  | copyString (e : List StrPart) (dst : Nat) (swith : Int64) (len : Option Int64)
  | done

structure StrSys where
  mem : StrPtr → StrBlock
  next : Nat
  vars : Nat → StrPtr

/-! ## One string -/

/-- The `n` bytes at `b + i`. -/
def slice (b : Bytes) (i n : Int) : Option Bytes :=
  if 0 ≤ i ∧ 0 ≤ n ∧ i + n ≤ b.length then some ((b.drop i.toNat).take n.toNat) else none

/-- `memcpy (b + i, src, n)`, where the index has a sign -/
def memcpyAt (b : Bytes) (i : Int) (src : Bytes) : Option Bytes :=
  if 0 ≤ i then memcpy b i.toNat src else none

namespace StrBlock

def const (text : Bytes) : StrBlock := ⟨text ++ [0], text.length + 1⟩

def rimMemGetLen (b : StrBlock) : Int := b.len - 1

/-- `rim_mem_set_len (s, len + 1); s[len] = 0`, after a check that always passes -/
def setLength (b : StrBlock) (len : Int) : Except WriteFault StrBlock :=
  if 0 ≤ len ∨ len ≤ b.rimMemGetLen then do
    let bytes ← inside (pokeAt b.bytes len 0)
    .ok ⟨bytes, toRimNum (len + 1)⟩
  else .error .error

def checkIndex (b : StrBlock) (ind : Int) : Except WriteFault Unit :=
  if b.rimMemGetLen - 1 < ind ∨ ind < 0 then .error .error else .ok ()

def setByte (b : StrBlock) (ind : Int) (c : UInt8) : Except WriteFault StrBlock := do
  b.checkIndex ind
  let bytes ← inside (pokeAt b.bytes ind c)
  .ok { b with bytes }

def getByte (b : StrBlock) (ind : Int) : Except WriteFault UInt8 := do
  b.checkIndex ind
  inside (peekAt b.bytes ind)

/-- `s[0] = 0` -/
def setEmpty (b : StrBlock) : Except WriteFault StrBlock := do
  let bytes ← inside (pokeAt b.bytes 0 0)
  .ok { b with bytes }

/-- `memmove (str, str + i, n)` -/
def moveFront (b : Bytes) (i n : Int) : Option Bytes := do
  let src ← slice b i n
  memcpy b 0 src

/-- The string without the `i` bytes before it, moved to where it begins. -/
def moved (b : StrBlock) (i : Nat) : Option Bytes :=
  if i = 0 then some b.bytes else moveFront b.bytes i (b.rimMemGetLen - i + 1)

/-- The loop of `rim_trim` from the end: where the string ends. -/
def trimEnd (b : Bytes) (len : Int) : Option Int :=
  if 0 ≤ len then (trimBackLoop b 0 0 len.toNat).map Int.ofNat else some len

/-- `rim_trim (str, &len, true)`, where `len` is the length of the string -/
def rimTrim (b : StrBlock) : Except WriteFault StrBlock := do
  let i ← inside (trimFrontLoop b.bytes 0)
  let bytes ← inside (b.moved i)
  let n ← inside (trimEnd bytes (b.rimMemGetLen - i))
  let bytes ← inside (pokeAt bytes n 0)
  .ok ⟨bytes, n + 1⟩

end StrBlock

section

variable (heap : Heap)

/-- The size that `malloc` and `realloc` are asked for. -/
def requested (size : Int) : Int := (size % 2 ^ 64 + sizeofHead) % 2 ^ 64

/-- `rim_malloc` and `rim_realloc` of a block that has `b`. What there is must have room for
the header. -/
def rimRealloc (b : Bytes) (size : Int) : Except WriteFault StrBlock :=
  if heap.gives (requested size) then
    if requested size < sizeofHead then .error .outside
    else .ok ⟨reblock heap b (requested size - sizeofHead).toNat, requested size - sizeofHead⟩
  else .error .memory

/-- `new-string` with a length that is not a small constant. -/
def newBlock (len : Int) : Except WriteFault StrBlock := do
  let b ← rimRealloc heap [] (toRimNum (len + 1))
  b.setEmpty

/-- `rim_strdupl (s, from, rim_mem_get_len (s))` -/
def rimStrdupl (s : StrBlock) (start : Int) : Except WriteFault StrBlock :=
  if start < 0 ∨ s.rimMemGetLen < start then .error .error
  else do
    let n := s.rimMemGetLen + 1 - start
    let b ← rimRealloc heap [] n
    let src ← inside (slice s.bytes start n)
    let bytes ← inside (memcpy b.bytes 0 src)
    .ok ⟨bytes, n⟩

/-- `rim_copy_string`. How much there is to copy is computed, and not used. -/
def rimCopyString (s : StrBlock) (start len : Int) : Except WriteFault StrBlock :=
  if len < 0 then .error .error
  else if start < 0 ∨ s.rimMemGetLen - 1 < start then .error .error
  else do
    let b ← rimRealloc heap [] (toRimNum (len + 1))
    let src ← inside (slice s.bytes start len)
    let bytes ← inside (memcpy b.bytes 0 src)
    let bytes ← inside (pokeAt bytes len 0)
    .ok { b with bytes }

/-- The memory for a result of a length, and more. -/
def roomFor (lRes : Int) : Int := if lRes < 256 then 256 else toRimNum (lRes + 256)

/-- What `rim_add_string` and `rim_add_string_part` do with bytes to add. The result of a
concatenation is not yet anybody's. -/
def addBytes (res add : StrBlock) (beg len : Int) : Except WriteFault StrBlock := do
  let b ← rimRealloc heap res.bytes (roomFor (toRimNum (res.rimMemGetLen + len + 1)))
  let src ← inside (slice add.bytes beg len)
  let bytes ← inside (memcpyAt b.bytes res.rimMemGetLen src)
  let bytes ← inside (pokeAt bytes (toRimNum (res.rimMemGetLen + len)) 0)
  .ok ⟨bytes, toRimNum (res.rimMemGetLen + len + 1)⟩

def rimAddString (res add : StrBlock) : Except WriteFault StrBlock := addBytes heap res add 0 add.rimMemGetLen

/-- The length that `rim_add_string_part` takes: -1 is up to the end. -/
def partLen (add : StrBlock) (beg len : Int) : Int := if len = -1 then add.rimMemGetLen - beg else len

def rimAddStringPart (res add : StrBlock) (beg len : Int) : Except WriteFault StrBlock :=
  if beg < 0 ∨ add.rimMemGetLen - 1 < beg then .error .error
  else if partLen add beg len < 0 ∨ add.rimMemGetLen - 1 < toRimNum (toRimNum (beg + partLen add beg len) - 1) then
    .error .error
  else addBytes heap res add beg (partLen add beg len)

namespace StrSys

def term (s : StrSys) : StrTerm → StrPtr
  | .var v => s.vars v
  | .literal n => .literal n

def block (s : StrSys) (t : StrTerm) : StrBlock := s.mem (s.term t)

def string (s : StrSys) (str : Nat) : StrBlock := s.mem (s.vars str)

def write (s : StrSys) (p : StrPtr) (b : StrBlock) : StrSys :=
  { s with mem := Function.update s.mem p b }

def assign (s : StrSys) (str : Nat) (p : StrPtr) : StrSys :=
  { s with vars := Function.update s.vars str p }

/-- There is a block more, the one at `s.next`. -/
def alloc (s : StrSys) (b : StrBlock) : StrSys :=
  { s with mem := Function.update s.mem (.mem s.next) b, next := s.next + 1 }

def addPart (s : StrSys) (res : StrBlock) : StrPart → Except WriteFault StrBlock
  | .whole t => rimAddString heap res (s.block t)
  | .sub t beg len => rimAddStringPart heap res (s.block t) beg.toInt len.toInt

/-- A concatenation. It begins with `RIM_EMPTY_STRING`, which is not in the memory that can
grow, and ends with as much as is needed. -/
def concat (s : StrSys) (e : List StrPart) : Except WriteFault StrBlock := do
  let b ← e.foldlM (s.addPart heap) ⟨[], (s.mem .empty).len⟩
  rimRealloc heap b.bytes (b.rimMemGetLen + 1)

/-- `@(t, beg, len)`, not in a concatenation -/
def substring (s : StrSys) (t : StrTerm) (beg len : Int) : Except WriteFault StrBlock :=
  if len = -1 then rimStrdupl heap (s.block t) beg else rimCopyString heap (s.block t) beg len

def make (s : StrSys) (b : Except WriteFault StrBlock) : Except WriteFault (StrSys × StrPtr) := do
  let b ← b
  .ok (s.alloc b, .mem s.next)

/-- The value of an expression, as `check_str` has it. -/
def eval (s : StrSys) : List StrPart → Except WriteFault (StrSys × StrPtr)
  | [] => .ok (s, .empty)
  | [.whole t] => .ok (s, s.term t)
  | [.sub t beg len] => s.make (s.substring heap t beg.toInt len.toInt)
  | p :: q :: e => s.make (s.concat heap (p :: q :: e))

def change (s : StrSys) (p : StrPtr) (f : StrBlock → Except WriteFault StrBlock) : Except WriteFault StrSys := do
  let b ← f (s.mem p)
  .ok (s.write p b)

def makeIn (s : StrSys) (str : Nat) (b : Except WriteFault StrBlock) : Except WriteFault StrSys := do
  let (s, p) ← s.make b
  .ok (s.assign str p)

/-- `copy-string` of a string. -/
def copied (b : StrBlock) (swith : Int) : Option Int64 → Except WriteFault StrBlock
  | none => rimStrdupl heap b swith
  | some len => rimCopyString heap b swith len.toInt

variable (prog : StrProg)

/-- The variables at the end of a request: those that are not process-scoped are gone. -/
def endRequest (s : StrSys) : StrSys :=
  { s with vars := fun v => if prog.process v then s.vars v else .empty }

def exec (s : StrSys) : StrOp → Except WriteFault StrSys
  | .setString str e => do
    let (s, p) ← s.eval heap e
    .ok (s.assign str p)
  | .setLength str len => s.change (s.vars str) fun b => b.setLength len.toInt
  | .setByte str ind num => s.change (s.vars str) fun b => b.setByte ind.toInt num.toUInt64.toUInt8
  | .getByte str ind => do
    let _ ← (s.string str).getByte ind.toInt
    .ok s
  | .newArray str n => (s.assign str (.array n)).change (.array n) StrBlock.setEmpty
  | .newString str len => s.makeIn str (newBlock heap len.toInt)
  | .trimString e => do
    let (s, p) ← s.eval heap e
    s.change p StrBlock.rimTrim
  | .copyString e dst swith len => do
    let (s, p) ← s.eval heap e
    s.makeIn dst (copied heap (s.mem p) swith.toInt len)
  | .done => .ok (s.endRequest prog)

end StrSys

end

namespace StrSys

variable (prog : StrProg)

def init : StrSys where
  mem
    | .empty => .const []
    | .literal n => .const (prog.literal n)
    | .array n => .const (List.replicate (prog.newLen n) 32)
    | .mem _ => .const []
  next := 0
  vars := fun _ => .empty

/-- A step of a process. A reported error ends the request; what follows an access outside
of a string is not known. -/
inductive Step (s : StrSys) : Heap × StrOp → StrSys → Prop
  | done {heap : Heap} {op : StrOp} {s' : StrSys} : s.exec heap prog op = .ok s' → Step s (heap, op) s'
  | reported {heap : Heap} {op : StrOp} {fault : WriteFault} :
      s.exec heap prog op = .error fault → fault ≠ .outside → Step s (heap, op) (s.endRequest prog)
  | outside {heap : Heap} {op : StrOp} (s' : StrSys) :
      s.exec heap prog op = .error .outside → Step s (heap, op) s'

end StrSys

end RimStone
