import Mathlib.Logic.Function.Basic
import RimStone.Text.Encode
import RimStone.Text.Edit

/-!
# Strings that are written

Between `write-string` and `end-write-string` all output goes to a string. It is built in a
block that grows, and there is one for each level of nesting. What is written outside of
any goes to the client, and is left out.

What `malloc` gives is a parameter: for which sizes there is a block, and what its bytes are
before they are written. What `vsnprintf` makes of its arguments is part of the operation.
-/

namespace RimStone

def RIM_MAX_NESTED_WRITE_STRING : Int := 5

def RIM_WRSTR_ADD_MIN : Int := 1024

def RIM_WRSTR_ADD_MAX : Int := 8192

def RIM_WRSTR_ADJMEM (x : Int) : Int := if x < RIM_WRSTR_ADD_MAX then 2 * x else x

/-- What `malloc` and `realloc` give. -/
structure Heap where
  /-- There is a block of a size. -/
  gives : Int → Bool
  /-- The bytes of a block that were not written. -/
  fresh : Nat → UInt8
  /-- An address has 47 bits. -/
  bound : ∀ size, gives size = true → 0 ≤ size ∧ size < 2 ^ 47

/-- What becomes of a number that is stored in an `int`. -/
def toInt32 (x : Int) : Int := (x + 2 ^ 31) % 2 ^ 32 - 2 ^ 31

inductive WriteFault where
  /-- `rim_report_error` -/
  | error
  | memory
  /-- Bytes outside of the block are read or written. -/
  | outside
  /-- A loop goes on. -/
  | fuel
  deriving DecidableEq, Repr

/-- `rim_write_string`. The user's string is a variable. -/
structure RimWriteString where
  string : Option Bytes := none
  userString : Nat := 0
  len : Int := 0
  bufPos : Int := 0
  notrim : Bool := false
  wlen : Int := RIM_WRSTR_ADD_MIN

/-- The part of `rim_input_req` for strings that are written, and the variables. -/
structure WriteReq where
  writeStringArr : Int → RimWriteString := fun _ => {}
  currWriteToString : Int := -1
  vars : Nat → Bytes := fun _ => []

inductive WriteOp where
  | begin (str : Nat)
  /-- `rim_puts` of a block, encoded or not -/
  | puts (enc : Option RimEnc) (s : Bytes) (len : Int) (alloc : Bool)
  /-- `rim_printf`, and the text that its arguments make -/
  | printf (enc : Option RimEnc) (text : Bytes)
  | finish (notrim : Bool)

section

variable (heap : Heap)

/-- A block of a length that begins with `b`. -/
def reblock (b : Bytes) (n : Nat) : Bytes := b.take n ++ (List.range (n - b.length)).map heap.fresh

/-- `rim_malloc` and `rim_realloc` -/
def rimBlock (b : Bytes) (size : Int) : Except WriteFault Bytes :=
  if heap.gives size then .ok (reblock heap b size.toNat) else .error .memory

def inside {α : Type} (x : Option α) : Except WriteFault α := x.elim (.error .outside) .ok

/-- `vsnprintf (b + i, n, ...)`: the block, and what is answered. It cannot answer a length
of 2^31 bytes. -/
def vsnprintf (b : Bytes) (i n : Int) (text : Bytes) : Except WriteFault (Bytes × Int) := do
  let answer : Int := if text.length < 2 ^ 31 then text.length else -1
  if n = 0 then .ok (b, answer)
  else
    let written := if 0 < n then text.take (n.toNat - 1) else text
    let b ← if 0 ≤ i then inside (memcpy b i.toNat (written ++ [0])) else .error .outside
    .ok (b, answer)

namespace RimWriteString

/-- The block, which is not `NULL`. -/
def buf (w : RimWriteString) : Bytes := w.string.getD []

def grow (w : RimWriteString) (n : Int) : Except WriteFault RimWriteString := do
  let len := w.len + n + w.wlen
  let b ← rimBlock heap w.buf len
  .ok { w with len, wlen := RIM_WRSTR_ADJMEM w.wlen, string := some b }

/-- `rim_puts_to_string` of `finalLen` bytes at the beginning of a block. Bytes after them
are copied as well: one, which is the null. -/
def rimPutsToString : Nat → RimWriteString → Bytes → Int → Except WriteFault RimWriteString
  | 0, _, _, _ => .error .fuel
  | fuel + 1, w, finalOut, finalLen =>
    if finalLen > w.len - 1 - w.bufPos then do
      let w ← w.grow heap finalLen
      rimPutsToString fuel w finalOut finalLen
    else do
      if 0 ≤ finalLen + 1 ∧ 0 ≤ w.bufPos ∧ finalLen + 1 ≤ finalOut.length then
        let b ← inside (memcpy w.buf w.bufPos.toNat (finalOut.take (finalLen + 1).toNat))
        .ok { w with string := some b, bufPos := w.bufPos + finalLen }
      else .error .outside

/-- The loop of `rim_puts` for an encoded text. The room that it needs is in an `int`. -/
def putsLoop (enc : RimEnc) : Nat → RimWriteString → Bytes → Int → Except WriteFault RimWriteString
  | 0, _, _, _ => .error .fuel
  | fuel + 1, w, s, vLen =>
    let bup := toInt32 (vLen * 6 + 1)
    if bup > w.len - 1 - w.bufPos then do
      let w ← w.grow heap bup
      putsLoop enc fuel w s vLen
    else do
      if 0 ≤ w.bufPos ∧ vLen ≤ s.length then
        let (b, j) ← inside (rimEncodeLoop enc (s.take vLen.toNat) w.buf w.bufPos.toNat)
        let b ← inside (poke b j 0)
        .ok { w with string := some b, bufPos := j }
      else .error .outside

/-- The loop of `rim_printf`, and how many bytes were written. -/
def printfLoop : Nat → RimWriteString → Bytes → Except WriteFault (RimWriteString × Int)
  | 0, _, _ => .error .fuel
  | fuel + 1, w, text => do
    let bytesLeft := w.len - w.bufPos
    let (b, totWritten) ← vsnprintf w.buf w.bufPos bytesLeft text
    let w := { w with string := some b }
    if totWritten ≥ bytesLeft then do
      let w ← w.grow heap totWritten
      printfLoop fuel w text
    else .ok ({ w with bufPos := w.bufPos + totWritten }, totWritten)

/-- How many bytes `rim_puts` writes. -/
def putsLen (s : Bytes) (len : Int) (alloc : Bool) : Except WriteFault Int :=
  if alloc then
    let ls : Int := s.length - 1
    if len ≠ 0 then if len > ls then .error .error else .ok len else .ok ls
  else if len ≠ 0 then .ok len
  else inside ((strlen s 0).map Int.ofNat)

/-- `rim_puts` to a string -/
def rimPuts (w : RimWriteString) (enc : Option RimEnc) (s : Bytes) (len : Int) (alloc : Bool) :
    Except WriteFault RimWriteString := do
  let vLen ← putsLen s len alloc
  match enc with
  | none => w.rimPutsToString heap 2 s vLen
  | some enc => w.putsLoop heap enc 2 s vLen

/-- The length that `rim_encode` is given, or that of the string for one that is negative. -/
def encodeLen (v : Bytes) (vlen : Int) : Except WriteFault Int :=
  if 0 ≤ vlen then .ok vlen else inside ((strlen v 0).map Int.ofNat)

/-- `rim_encode` of the beginning of `v`: a new block, and how much is in it. -/
def rimEncode (enc : RimEnc) (v : Bytes) (vlen : Int) : Except WriteFault (Bytes × Nat) := do
  let n ← encodeLen v vlen
  let block ← rimBlock heap [] (n * 6 + 1)
  inside (rimEncodeBase enc (v.take n.toNat) block)

/-- `rim_printf` to a string -/
def rimPrintf (w : RimWriteString) (enc : Option RimEnc) (text : Bytes) : Except WriteFault RimWriteString := do
  let (w, totWritten) ← w.printfLoop heap 2 text
  match enc with
  | none => .ok w
  | some enc =>
    let pos := w.bufPos - totWritten
    if pos < 0 then .error .outside
    else
      let (finalOut, finalLen) ← rimEncode heap enc (w.buf.drop pos.toNat) totWritten
      rimPutsToString heap 2 { w with bufPos := pos } finalOut finalLen

/-- `BUF[i]`; before the block is the last byte of its length. -/
def byteAt (w : RimWriteString) (i : Int) : Option UInt8 :=
  if i = -1 then some (UInt8.ofInt (w.len / 2 ^ 56)) else peekAt w.buf i

def trimLoop (w : RimWriteString) : Nat → Except WriteFault Nat
  | 0 => do
    let c ← inside (w.byteAt (-1))
    if isspace c then .error .outside else .ok 0
  | pos + 1 => do
    let c ← inside (w.byteAt pos)
    if isspace c then w.trimLoop pos else .ok (pos + 1)

end RimWriteString

namespace WriteReq

/-- `RIM_WRSTR` -/
def wrstr (r : WriteReq) : RimWriteString := r.writeStringArr r.currWriteToString

def setWrstr (r : WriteReq) (w : RimWriteString) : WriteReq :=
  { r with writeStringArr := Function.update r.writeStringArr r.currWriteToString w }

/-- `rim_write_to_string` of a variable -/
def rimWriteToString (r : WriteReq) (str : Nat) : Except WriteFault WriteReq := do
  let r := { r with currWriteToString := r.currWriteToString + 1 }
  if r.currWriteToString ≥ RIM_MAX_NESTED_WRITE_STRING then .error .error
  else
    let b ← rimBlock heap [] RIM_WRSTR_ADD_MIN
    let w := { r.wrstr with
      userString := str, wlen := RIM_WRSTR_ADD_MIN, len := RIM_WRSTR_ADD_MIN, string := some b, bufPos := 0 }
    .ok { r.setWrstr w with vars := Function.update r.vars str [] }

/-- `rim_write_to_string` of `NULL`, after `rim_write_to_string_notrim` or not. The user's
string has the length of what was written. -/
def rimWriteToStringEnd (r : WriteReq) (notrim : Bool) : Except WriteFault WriteReq := do
  let r := if notrim then r.setWrstr { r.wrstr with notrim := true } else r
  if r.currWriteToString < 0 then .error .error
  else if r.wrstr.string = none then .error .error
  else
    let w := r.wrstr
    let w ←
      if w.notrim then .ok w
      else do
        let pos ← if 0 ≤ w.bufPos then w.trimLoop w.bufPos.toNat else .error .outside
        let b ← inside (poke w.buf pos 0)
        .ok { w with bufPos := pos, string := some b }
    let b ← rimBlock heap w.buf (w.bufPos + 1)
    let r := r.setWrstr { w with notrim := false, string := none }
    .ok { r with
      vars := Function.update r.vars w.userString (b.take w.bufPos.toNat)
      currWriteToString := r.currWriteToString - 1 }

/-- A statement. Outside of all strings the output goes to the client. -/
def exec (r : WriteReq) : WriteOp → Except WriteFault WriteReq
  | .begin str => r.rimWriteToString heap str
  | .puts enc s len alloc =>
    if r.currWriteToString = -1 then .ok r
    else do
      let w ← r.wrstr.rimPuts heap enc s len alloc
      .ok (r.setWrstr w)
  | .printf enc text =>
    if r.currWriteToString = -1 then .ok r
    else do
      let w ← r.wrstr.rimPrintf heap enc text
      .ok (r.setWrstr w)
  | .finish notrim => r.rimWriteToStringEnd heap notrim

end WriteReq

end

end RimStone
