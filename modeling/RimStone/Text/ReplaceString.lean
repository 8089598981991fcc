import RimStone.Memory.Chars

/-!
# Replacing in a buffer

`rim_replace_string` replaces in the buffer that the text is in, of which `strsize` bytes can be used. `str` is the
memory from the buffer on; to read or write behind it is undefined.
-/

namespace RimStone

/-- The text at `i` of a block, which ends in front of a null. -/
def textAt (b : Bytes) (i : Nat) : Option Bytes :=
  if 0 ∈ b.drop i then some ((b.drop i).takeWhile (· != 0)) else none

/-- `memmove (b + dst, b + src, n)` -/
def memmove (b : Bytes) (dst src n : Nat) : Option Bytes :=
  if src + n ≤ b.length then memcpy b dst ((b.drop src).take n) else none

/-- The local variables of `rim_replace_string`, with the buffer at `str`; `last` is where it points. -/
structure ReplaceState where
  str : Bytes
  len : Nat
  currsize : Int
  curr : Nat
  last : Option Nat
  deriving DecidableEq, Repr

/-- The string that is replaced and what for, how much there is of the buffer, whether all are replaced, and whether
case matters. -/
structure ReplaceCall where
  find : Bytes
  subst : Bytes
  strsize : Int
  all : Bool
  caseSensitive : Bool
  deriving DecidableEq, Repr

namespace ReplaceCall

variable (c : ReplaceCall)

/-- `f`, where `find` is found from `curr` on -/
def search (s : ReplaceState) : Option (Option Nat) :=
  (textAt s.str s.curr).map fun text =>
    (if c.caseSensitive then strstr text c.find else strcasestr text c.find).map (s.curr + ·)

/-- `memmove` of what follows, and `memcpy` of `subst` in front of it. -/
def edit (str : Bytes) (len f : Nat) : Option Bytes := do
  let str ← memmove str (f + c.subst.length) (f + c.find.length) (len - (f + c.find.length) + 1)
  memcpy str f c.subst

/-- The loop, as far as `fuel` rounds go, and the answer. -/
def loop : Nat → ReplaceState → Option (ReplaceState × Int)
  | 0, _ => none
  | fuel + 1, s => do
    match ← c.search s with
    | none => some (s, s.len)
    | some f =>
      let s := { s with currsize := s.currsize - c.find.length + c.subst.length }
      if s.currsize > c.strsize then some (s, -1)
      else do
        let str ← c.edit s.str s.len f
        let curr := f + c.subst.length
        let s := { s with str, len := s.len - c.find.length + c.subst.length, curr, last := some curr }
        if c.all then loop fuel s else some (s, s.len)

end ReplaceCall

/-- `rim_replace_string`: the buffer, `last`, and the answer. A string that is not empty is found no more often than
the text has characters, and an empty one as long as the buffer has room; it does not end where both are empty. -/
def rimReplaceString (str : Bytes) (c : ReplaceCall) : Option (Bytes × Option Nat × Int) := do
  let text ← textAt str 0
  let (s, res) ← c.loop (text.length + c.strsize.toNat + 1)
    { str, len := text.length, currsize := text.length + 1, curr := 0, last := none }
  some (s.str, s.last, res)

end RimStone
