import RimStone.Memory.Table

/-!
# Strings

A RimStone string is a block of memory with its length in the header: any bytes,
and a null byte after them that the length does not count. Two strings with
the same bytes may be different blocks, so a string is its address and its
bytes; the bytes of a string never change.
-/

namespace RimStone

abbrev Bytes := List UInt8

/-- A string: its block and its bytes, without the null that follows them. -/
structure RimStr where
  addr : Addr
  bytes : Bytes
  deriving DecidableEq, Repr

/-- What the block holds: the bytes and the null. -/
def RimStr.memory (s : RimStr) : Bytes := s.bytes ++ [0]

/-- `rim_mem_get_len`: the length without the null. -/
def rimMemGetLen (s : RimStr) : Nat := s.bytes.length

/-- `memcmp`: the sign of the first difference among `n` bytes. Reading past the
end of either run is undefined; here it compares equal. -/
def memcmp : Nat → Bytes → Bytes → Int
  | 0, _, _ => 0
  | n + 1, a :: s, b :: t => if a < b then -1 else if b < a then 1 else memcmp n s t
  | _ + 1, _, _ => 0

/-- `strcmp`: the sign of the first difference, up to the first null byte. -/
def strcmp : Bytes → Bytes → Int
  | a :: s, b :: t =>
    if a < b then -1 else if b < a then 1 else if a = 0 then 0 else strcmp s t
  | _, _ => 0

/-- `rim_cm_str`: whether two strings have the same length and bytes. -/
def rimCmStr (a : RimStr) (la : Nat) (b : RimStr) (lb : Nat) : Bool :=
  if la ≠ lb then false else memcmp la a.memory b.memory = 0

/-- `RIM_EMPTY_STRING`, a constant. -/
def RIM_EMPTY_STRING : RimStr := ⟨0, []⟩

/-- One call of a data structure on the memory. -/
inductive MemCall where
  /-- `rim_mem_add_ref (s, rim_mem_process)` -/
  | addRef (s : Addr)
  /-- `rim_mem_dec_process (s)` -/
  | decProcess (s : Addr)
  /-- `rim_malloc`, answered with the block `p` -/
  | malloc (p : Addr) (size : Nat)
  /-- `rim_calloc`, answered with the block `p` -/
  | calloc (p : Addr) (nmemb size : Nat)
  deriving DecidableEq, Repr

def MemCall.run (m : Mem) : MemCall → Except (Fault Mem) Mem
  | .addRef s => m.rimMemAddRef s m.rimMemProcess
  | .decProcess s => .ok (m.rimMemDecProcess s)
  | .malloc p size => (·.2) <$> m.rimMalloc (some p) size
  | .calloc p nmemb size => (·.2) <$> m.rimCalloc (some p) nmemb size

/-- The calls one after the other, as far as they return. -/
def Mem.runCalls (m : Mem) (calls : List MemCall) : Except (Fault Mem) Mem :=
  calls.foldlM MemCall.run m

/-- The calls of a statement on a structure of the given scope. -/
def Mem.inScope (m : Mem) (process : Bool) (calls : List MemCall) : Except (Fault Mem) Mem := do
  let m ← { m with rimMemProcess := process }.runCalls calls
  .ok { m with rimMemProcess := false }

/-- A finite map from keys to data. -/
abbrev KeyMap := Bytes → Option Addr

/-- The outcome a statement reports. -/
inductive RimStatus where
  /-- `RIM_OKAY` -/
  | okay
  /-- `RIM_ERR_EXIST` -/
  | errExist
  /-- `RIM_INFO_EXIST` -/
  | infoExist
  deriving DecidableEq, Repr

end RimStone
