import RimStone.Memory.Chars
import RimStone.Lib.Delivery

/-!
# Replies of a FastCGI server

`fc_server_read` of `rcli.c` reads the reply to a request from a socket: records, each a
header of eight bytes, its content and its padding. The content of `stdout` and
`stderr` records is gathered in two blocks, that of other records in a third one, into
which the record that ends the reply is read as well.

The request has no timeout and no hooks. A block that could not be allocated is empty.
Lengths are of type `int`; a sum that does not fit is undefined, as is an access outside
a block.
-/

namespace RimStone

open RimStone.Lib

/-- `read_status` -/
inductive CliStatus where
  /-- `RIM_OKAY` -/
  | okay
  /-- `RIM_CLI_ERR_SOCK_READ` -/
  | errSockRead
  /-- `RIM_CLI_ERR_PROT_ERR` -/
  | errProtErr
  /-- `RIM_CLI_ERR_BAD_VER` -/
  | errBadVer
  /-- `RIM_CLI_ERR_SRV` -/
  | errSrv
  /-- `RIM_CLI_ERR_UNK` -/
  | errUnk
  /-- `RIM_CLI_ERR_OUT_MEM` -/
  | errOutMem
  deriving DecidableEq, Repr

def RIM_CLI_VER_1 : UInt8 := 1

def RIM_CLI_END_REQ : UInt8 := 3

def RIM_CLI_STDOUT : UInt8 := 6

def RIM_CLI_STDERR : UInt8 := 7

def RIM_CLI_UNK_TYPE : UInt8 := 11

def RIM_CLI_REQ_DONE : UInt8 := 0

/-- `RIM_ADD_FOR_RIM`: room for the header of a string. -/
def RIM_ADD_FOR_RIM : Nat := 16

structure FcHeader where
  ver : UInt8
  type : UInt8
  reqId1 : UInt8
  reqId0 : UInt8
  contLen1 : UInt8
  contLen0 : UInt8
  padLen : UInt8
  futureUse : UInt8
  deriving DecidableEq, Repr

/-- A block that content is gathered in, after the room for a header, and how much of
it is content. -/
structure FcBuff where
  block : Bytes := [0]
  len : Nat := 0
  deriving DecidableEq, Repr

/-- What `fc_local` and `rim_cli` have for a reply, and the header that was read last. -/
structure FcLocal where
  sock : List (Answer UInt8)
  header : Option FcHeader := none
  doneHeader : Bool := false
  msgRemain : Nat := 0
  paddingLen : Nat := 0
  reqId : Nat := 1
  readDone : Bool := false
  data : FcBuff := {}
  error : FcBuff := {}
  other : FcBuff := {}
  reqStatus : Int := 0
  readStatus : CliStatus := .okay
  deriving DecidableEq, Repr

namespace FcLocal

def checkRead (l : FcLocal) (readLen : Int) : FcLocal :=
  if readLen < 0 then { l with readStatus := .errSockRead }
  else if readLen = 0 then
    if l.doneHeader ∨ l.msgRemain > 0 ∨ l.paddingLen > 0 then { l with readStatus := .errProtErr }
    else if l.readDone then l
    else { l with readStatus := .errProtErr }
  else l

/-- The loop of `rim_read_socket`: whether all `len` bytes were read, and those that
were. -/
def rimReadSocketLoop : Nat → FcLocal → Nat → Bytes → Option (FcLocal × Bool × Bytes)
  | 0, _, _, _ => none
  | fuel + 1, l, len, gotten =>
    let (res, sock) := Answer.read (len - gotten.length) l.sock
    let l := { l with sock }
    match res with
    | .interrupted => rimReadSocketLoop fuel l len gotten
    | .failed => some (l.checkRead (-1), false, gotten)
    | .piece [] => some (l.checkRead 0, false, gotten)
    | .piece (b :: bs) =>
      let gotten := gotten ++ b :: bs
      if gotten.length ≥ len then some (l, true, gotten) else rimReadSocketLoop fuel l len gotten

def rimReadSocket (l : FcLocal) (len : Nat) : Option (FcLocal × Bool × Bytes) :=
  rimReadSocketLoop (l.sock.length + 1) l len []

/-- The block that a record's content goes to. -/
def buff (l : FcLocal) (type : UInt8) : FcBuff :=
  if type = RIM_CLI_STDOUT then l.data else if type = RIM_CLI_STDERR then l.error else l.other

def setBuff (l : FcLocal) (type : UInt8) (b : FcBuff) : FcLocal :=
  if type = RIM_CLI_STDOUT then { l with data := b }
  else if type = RIM_CLI_STDERR then { l with error := b }
  else { l with other := b }

/-- A sum of type `int` -/
def addInt (a b : Nat) : Option Nat := if a + b < 2 ^ 31 then some (a + b) else none

/-- A number of type `int` from its four bytes. -/
def intOf (b3 b2 b1 b0 : UInt8) : Int :=
  (b3.toNat * 2 ^ 24 + b2.toNat * 2 ^ 16 + b1.toNat * 2 ^ 8 + b0.toNat : Int).bmod (2 ^ 32)

/-- The end of a reply, which was read into `other`. The second component says that
`fc_server_read` returns. -/
def endRequest (l : FcLocal) (cnt : Nat) : Option (FcLocal × Bool) := do
  let data ← poke l.data.block l.data.len 0
  let error ← poke l.error.block l.error.len 0
  let l := { l with data := { l.data with block := data }, error := { l.error with block := error } }
  if cnt ≠ 8 then some ({ l with readStatus := .errProtErr }, true)
  else do
    let l := { l with readDone := true }
    let status ← l.other.block[l.other.len + 4]?
    if status ≠ RIM_CLI_REQ_DONE then some ({ l with readStatus := .errSrv }, true)
    else do
      let b3 ← l.other.block[l.other.len]?
      let b2 ← l.other.block[l.other.len + 1]?
      let b1 ← l.other.block[l.other.len + 2]?
      let b0 ← l.other.block[l.other.len + 3]?
      some ({ l with reqStatus := intOf b3 b2 b1 b0 }, false)

/-- The content of a record, where there is any. -/
def fcContent (l : FcLocal) (type : UInt8) : Option (FcLocal × Bool) := do
  let (l, okay, gotten) ← l.rimReadSocket l.msgRemain
  let block ← memcpy (l.buff type).block (l.buff type).len gotten
  let l := l.setBuff type { l.buff type with block }
  if !okay then some (l, true)
  else if type = RIM_CLI_END_REQ then do
    let (l, returned) ← l.endRequest gotten.length
    if returned then some (l, true) else some ({ l with msgRemain := 0 }, false)
  else do
    let len ← addInt (l.buff type).len gotten.length
    some ({ l.setBuff type { l.buff type with len } with msgRemain := 0 }, false)

/-- The padding of a record, where there is any. -/
def fcPadding (l : FcLocal) : Option (FcLocal × Bool) :=
  if l.paddingLen > 0 then do
    let (l, okay, _) ← l.rimReadSocket l.paddingLen
    if !okay then some (l, true) else some ({ l with paddingLen := 0, doneHeader := false }, false)
  else some ({ l with doneHeader := false }, false)

/-- A round of `fc_server_read` after a header. -/
def fcRecord (l : FcLocal) (header : FcHeader) : Option (FcLocal × Bool) := do
  let (l, returned) ← if l.msgRemain > 0 then l.fcContent header.type else some (l, false)
  if returned then some (l, true)
  else if header.type = RIM_CLI_UNK_TYPE then some ({ l with readStatus := .errUnk }, true)
  else l.fcPadding

def fcHeaderOf : Bytes → Option FcHeader
  | [ver, type, reqId1, reqId0, contLen1, contLen0, padLen, futureUse] =>
    some { ver, type, reqId1, reqId0, contLen1, contLen0, padLen, futureUse }
  | _ => none

section

variable (mem : Nat → Bool) (garbage : Nat → UInt8)

/-- `realloc` of a block that has room for a header, to `size` bytes after that. `mem`
says which sizes there is memory for, `garbage` what the memory holds. -/
def fcRealloc (block : Bytes) (add size : Nat) : Bytes :=
  if mem (add + size) then block.take size ++ (List.range (size - block.length)).map garbage else []

/-- The size of the block for one more content. The sum for `other` is of type `int`. -/
def fcSize (type : UInt8) (len msgRemain : Nat) : Option Nat :=
  if type = RIM_CLI_STDOUT ∨ type = RIM_CLI_STDERR then some (len + msgRemain + 1)
  else do
    let n ← addInt len msgRemain
    addInt n 1

/-- A round of `fc_server_read` before a header. -/
def fcHeader (l : FcLocal) : Option (FcLocal × Bool) := do
  let (l, okay, gotten) ← l.rimReadSocket 8
  if !okay then some (l, true)
  else do
    let header ← fcHeaderOf gotten
    let l := { l with header := some header }
    if header.ver ≠ RIM_CLI_VER_1 then some ({ l with readStatus := .errBadVer }, true)
    else if header.reqId0.toNat + header.reqId1.toNat * 2 ^ 8 ≠ l.reqId then
      some ({ l with readStatus := .errProtErr }, true)
    else do
      let l := { l with msgRemain := header.contLen0.toNat + header.contLen1.toNat * 2 ^ 8,
                        paddingLen := header.padLen.toNat }
      let buff := l.buff header.type
      let size ← fcSize header.type buff.len l.msgRemain
      let add := if header.type = RIM_CLI_STDOUT ∨ header.type = RIM_CLI_STDERR then RIM_ADD_FOR_RIM else 0
      let block := fcRealloc mem garbage buff.block add size
      let l := l.setBuff header.type { buff with block }
      if block = [] then some ({ l with readStatus := .errOutMem }, true)
      else some ({ l with doneHeader := true }, false)

/-- A round of `fc_server_read`, and whether it returns. -/
def fcRound (l : FcLocal) : Option (FcLocal × Bool) := do
  let (l, returned) ←
    if l.doneHeader then do
      let header ← l.header
      l.fcRecord header
    else l.fcHeader mem garbage
  some (l, returned || l.readDone)

/-- The loop of `fc_server_read`. -/
def fcServerReadLoop : Nat → FcLocal → Option FcLocal
  | 0, _ => none
  | fuel + 1, l => do
    let (l, returned) ← l.fcRound mem garbage
    if returned then some l else fcServerReadLoop fuel l

def fcServerRead (l : FcLocal) : Option FcLocal :=
  fcServerReadLoop mem garbage (2 * (Answer.delivered l.sock).length + 2) l

end

end FcLocal

end RimStone
