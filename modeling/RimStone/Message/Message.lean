import RimStone.Memory.Chars
import RimStone.Lib.Digits

/-!
# Messages

A message of `msg.c` is a string of items, each a key, `=`, the length of the value as
16 bytes, the value, and a line feed. `rim_write_msg` appends an item to a block that
grows; `rim_read_msg` reads the next item, and edits the string as it does: nulls
replace `=`, the white space after a key and what ends a value, and the length of a
value gives way to the header of the value as a string.

The string of a message that is read is its bytes and the null after them; it is
undefined to read or write outside. Lengths in a message are 64 bits and are taken to
have a sign.
-/

namespace RimStone

open RimStone.Lib

/-- `mode` -/
inductive MsgMode where
  /-- `RIM_MSG_NONE` -/
  | none
  /-- `RIM_MSG_READ` -/
  | read
  /-- `RIM_MSG_WRITE` -/
  | write
  deriving DecidableEq, Repr

def RIM_MSG_ADD_LEN : Nat := 30

def RIM_MSG_BUFF_LEN : Nat := 1024

def RIM_ALIGN : Nat := 16

/-- `rim_msg`. `data` is a block; `none` is `RIM_EMPTY_STRING`. `dataLen` is the length
of the string there, `rim_mem_get_len (msg->data)`. -/
structure RimMsg where
  data : Option Bytes := none
  dataLen : Nat := 0
  len : Nat := 0
  tot : Nat := 0
  addinc : Nat := RIM_MSG_BUFF_LEN
  curr : Int := 0
  mode : MsgMode := .none
  deriving DecidableEq, Repr

namespace RimMsg

/-- `rim_init_msg`, which leaves `tot` as it is. -/
def rimInitMsg (t : RimMsg) : RimMsg := { tot := t.tot }

def block (msg : RimMsg) : Bytes := msg.data.getD [0]

/-- `rim_new_msg` without a string -/
def rimNewMsg : RimMsg := {}

/-- `rim_new_msg` from a string of these bytes -/
def rimNewMsgFrom (bytes : Bytes) : RimMsg :=
  { data := some (bytes ++ [0]), dataLen := bytes.length, len := bytes.length, mode := .read }

/-- `rim_get_msg`: the string, and the message after it. -/
def rimGetMsg (msg : RimMsg) : Bytes × RimMsg :=
  match msg.data with
  | none => ([], msg)
  | some data => (data.take msg.len, msg.rimInitMsg)

/-! ## Writing -/

/-- `rim_malloc` and `rim_realloc` of a message's block: `garbage` is what the memory
holds past `old`. No block is as long as `2^63` bytes. -/
def allocBlock (garbage : Nat → UInt8) (msg : RimMsg) (old : Bytes) (tot : Nat) :
    Except (Fault RimMsg) Bytes :=
  if tot < 2 ^ 63 then .ok (old ++ (List.range (tot - old.length)).map garbage)
  else .error (.report "Out of memory" msg)

/-- The bytes a key may have. -/
def keyChar (c : UInt8) : Bool := isalnum c || isspace c || c == 45 || c == 95

/-- `htobe64`, as bytes -/
def htobe64 (n : Nat) : Bytes := (digits 256 8 n).map UInt8.ofNat

def write (data : Bytes) (i : Nat) (src : Bytes) : Except (Fault RimMsg) Bytes :=
  match memcpy data i src with
  | some data => .ok data
  | none => .error .undefined

/-- The memory for one more item in `rim_write_msg`. -/
def growMsg (garbage : Nat → UInt8) (msg : RimMsg) (keyl valuel : Nat) :
    Except (Fault RimMsg) RimMsg :=
  if msg.curr = 0 then do
    let tot := keyl + valuel + RIM_MSG_ADD_LEN + RIM_MSG_BUFF_LEN
    let data ← allocBlock garbage msg [] tot
    .ok { msg with addinc := RIM_MSG_BUFF_LEN, tot, data := some data }
  else do
    let addinc :=
      if msg.addinc ≤ 4096 then msg.addinc * 2
      else if msg.tot > 8 * msg.addinc then msg.tot / 4 else msg.addinc
    let msg := { msg with addinc }
    if msg.tot < msg.len + keyl + valuel + RIM_MSG_ADD_LEN then do
      let tot := msg.len + keyl + valuel + RIM_MSG_ADD_LEN + msg.addinc
      let data ← allocBlock garbage msg msg.block tot
      .ok { msg with tot, data := some data }
    else .ok msg

/-- The writes of one item in `rim_write_msg`. -/
def putItem (data : Bytes) (curr : Nat) (key value : Bytes) : Except (Fault RimMsg) Bytes := do
  let keyl := key.length
  let valuel := value.length
  let data ← write data curr key
  let data ← write data (curr + keyl) [61]
  let data ← write data (curr + keyl + 1) (htobe64 valuel ++ List.replicate 8 0)
  let data ← write data (curr + keyl + 1 + RIM_ALIGN) (value ++ [0])
  let data ← write data (curr + keyl + 1 + RIM_ALIGN + valuel) [10]
  write data (curr + (keyl + 1 + RIM_ALIGN + valuel + 1)) [0]

/-- The start of `rim_write_msg`: a message without a mode is made new. -/
def beginWrite (msg : RimMsg) : Except (Fault RimMsg) RimMsg :=
  match msg.mode with
  | .write => .ok msg
  | .none => .ok { msg.rimInitMsg with mode := .write }
  | .read => .error (.report "Once message has been read, it cannot be written to" msg)

def rimWriteMsg (garbage : Nat → UInt8) (msg : RimMsg) (key value : Bytes) :
    Except (Fault RimMsg) RimMsg := do
  let msg ← beginWrite msg
  if msg.len > msg.dataLen then
    .error (.report "Message is too short to write to, or was deleted" msg)
  else if !key.all keyChar then .error (.report "Invalid key in SEMI message" msg)
  else do
    let msg ← growMsg garbage msg key.length value.length
    let data ← putItem msg.block msg.curr.toNat key value
    let len := msg.len + (key.length + 1 + RIM_ALIGN + value.length + 1)
    .ok { msg with data := some data, len, curr := len, dataLen := len }

/-- `rim_write_msg` of one pair after the other. -/
def writeAll (garbage : Nat → UInt8) (msg : RimMsg) (pairs : List (Bytes × Bytes)) :
    Except (Fault RimMsg) RimMsg :=
  pairs.foldlM (fun msg p => rimWriteMsg garbage msg p.1 p.2) msg

/-! ## Reading -/

inductive MsgStatus where
  /-- `RIM_ERR_FORMAT` -/
  | errFormat
  /-- `RIM_ERR_LENGTH` -/
  | errLength
  deriving DecidableEq, Repr

/-- What `rim_parse_item` found: where the key is and how long, where the value is and
how long, and where the next item is. -/
structure MsgItem where
  key : Nat
  keyLen : Nat
  value : Nat
  valueLen : Int
  next : Int
  deriving DecidableEq, Repr

/-- The loop over the white space before a key. -/
def keyFront : Nat → Bytes → Nat → Nat → Option (Nat × Nat)
  | 0, _, _, _ => none
  | fuel + 1, data, key, keyLen => do
    let c ← data[key]?
    if isspace c then keyFront fuel data (key + 1) (keyLen - 1) else some (key, keyLen)

/-- The loop over the white space after a key, back from `q`. -/
def keyBack : Nat → Bytes → Nat → Nat → Nat → Option (Bytes × Nat)
  | 0, _, _, _, _ => none
  | fuel + 1, data, key, q, keyLen =>
    if q = key then some (data, keyLen)
    else do
      let c ← data[q]?
      if isspace c then do
        let data ← poke data q 0
        keyBack fuel data key (q - 1) (keyLen - 1)
      else some (data, keyLen)

/-- The key of the item at `item`, whose `=` was at `eq`: the block, the key and its
length. -/
def trimKey (data : Bytes) (item eq : Nat) : Option (Bytes × Nat × Nat) :=
  if eq = item then some (data, item, 0)
  else do
    let (key, keyLen) ← keyFront (eq - item + 1) data item (eq - item)
    if keyLen = 0 then some (data, key, 0)
    else do
      let (data, keyLen) ← keyBack (eq - item + 1) data key (eq - 1) keyLen
      some (data, key, keyLen)

/-- `be64toh` of the bytes at `i` -/
def be64toh (data : Bytes) (i : Nat) : Option Nat :=
  if i + RIM_ALIGN ≤ data.length then some (number 256 (((data.drop i).take 8).map UInt8.toNat))
  else none

/-- A 64-bit number with a sign. -/
def toRimNum (n : Nat) : Int := if n < 2 ^ 63 then n else n - 2 ^ 64

/-- The part of `rim_parse_item` after the key: the length and the value, from `beg` on,
where `len` bytes are left. -/
def parseValue (data : Bytes) (key keyLen beg : Nat) (len : Int) :
    Option (Bytes × Except MsgStatus MsgItem) :=
  if len < RIM_ALIGN then some (data, .error .errFormat)
  else do
    let vl ← be64toh data beg
    let len := len - RIM_ALIGN
    let valueLen := toRimNum vl
    if len < valueLen then some (data, .error .errLength)
    else do
      let lvalue := beg + RIM_ALIGN
      let c ← peekAt data (lvalue + valueLen)
      if c ≠ 10 ∧ c ≠ 0 then some (data, .error .errLength)
      else do
        let data ← pokeAt data (lvalue + valueLen) 0
        some (data, .ok { key, keyLen, value := lvalue, valueLen, next := lvalue + valueLen + 1 })

/-- `rim_parse_item`: the block, and the item or the status. -/
def rimParseItem (data : Bytes) (item : Nat) (len : Int) :
    Option (Bytes × Except MsgStatus MsgItem) := do
  let data ← pokeAt data (item + len) 0
  match ← strchr data item 61 with
  | none => some (data, .error .errFormat)
  | some eq => do
    let data ← poke data eq 0
    let (data, key, keyLen) ← trimKey data item eq
    let beg := eq + 1
    parseValue data key keyLen beg (len - ((beg : Int) - item))

/-- `rim_mem_add_const`: the header of a string of `len` bytes, a null included, that
begins after it. The numbers are little-endian, and the index is -1. -/
def rimMemAddConst (data : Bytes) (p : Nat) (len : Int) : Option Bytes :=
  memcpy data p
    (List.replicate 8 255 ++ ((digits 256 8 (len % 2 ^ 64).toNat).map UInt8.ofNat).reverse)

/-- What a read returns: the status, the key it has set, the place and length of the
value, and the values that `msg->curr` had on the way. -/
structure MsgOut where
  st : Option MsgStatus := none
  key : Option Bytes := none
  value : Option (Nat × Int) := none
  currs : List Int := []
  deriving DecidableEq, Repr

/-- The loop of `rim_read_msg`. `key` and `value` say whether the caller asks for
them. -/
def rimReadLoop (key value : Bool) : Nat → RimMsg → MsgOut → Option (RimMsg × MsgOut)
  | 0, _, _ => none
  | fuel + 1, msg, out =>
    if msg.curr < 0 then none
    else do
      let (data, res) ← rimParseItem msg.block msg.curr.toNat (msg.len - msg.curr)
      match res with
      | .error st => some ({ msg with data := some data }, { out with st := some st })
      | .ok item => do
        let out := if key then { out with key := some ((data.drop item.key).take item.keyLen) } else out
        let msg := { msg with data := some data, curr := item.next }
        let out := { out with currs := out.currs ++ [item.next] }
        if strcmp (data.drop item.key) (ascii "comment" ++ [0]) = 0 then rimReadLoop key value fuel msg out
        else if value then do
          let data ← rimMemAddConst data (item.value - RIM_ALIGN) (item.valueLen + 1)
          some ({ msg with data := some data }, { out with value := some (item.value, item.valueLen) })
        else some (msg, out)

def rimReadMsg (key value : Bool) (msg : RimMsg) : Option (RimMsg × MsgOut) :=
  let msg := if msg.mode ≠ .read then { msg with curr := 0, mode := .read } else msg
  if msg.len > msg.dataLen then some (msg, { st := some .errLength })
  else if msg.curr ≥ msg.len then some (msg, { st := some .errLength })
  else rimReadLoop key value (msg.len + 2) msg {}

end RimMsg

end RimStone
