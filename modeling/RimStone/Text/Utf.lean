import RimStone.Memory.Chars

/-!
# Unicode text

`rim_utf_to_text` writes a UTF-8 string as text, with `\u` and `\U` for what is not
ASCII, and `rim_text_to_utf` turns text into UTF-8 where it is. A code point is a
`rim_num32`, an integer with a sign.

A function fails with an error message, or it is undefined: it would read or write
outside the block, or never end.
-/

namespace RimStone

inductive RimUtfErr where
  | RIM_UTF_ERR_SECOND_BYTE
  | RIM_UTF_ERR_THIRD_BYTE
  | RIM_UTF_ERR_FOURTH_BYTE
  | RIM_UTF_INVALID
  | RIM_UTF_ERR_ILLEGAL_CHARACTER_FEFF
  | RIM_UTF_ERR_OUT_OF_RANGE
  | RIM_ERR_UTF_BADUTF
  | RIM_ERR_UTF_SURROGATE
  | RIM_ERR_UTF_BADESCAPE
  | RIM_ERR_UTF_NOQUOTE
  /-- no message: `\Uffffffff` is -1, which is taken for an error -/
  | noMessage
  deriving DecidableEq, Repr

inductive TextFault where
  | undefined
  | err (e : RimUtfErr)
  deriving DecidableEq, Repr

/-- A read or a write, which is undefined outside the block. -/
def inBlock {α : Type} : Option α → Except TextFault α
  | some a => .ok a
  | none => .error .undefined

def rimMakeFromUtfSurrogate (u0 u1 : Int) : Int := u0 * 1024 + u1 + (0x10000 - 0xD800 * 1024 - 0xDC00)

def rimGetUtfSurrogate (u : Nat) : Nat × Nat :=
  (0xD800 - (0x10000 >>> 10) + (u >>> 10), 0xDC00 + u % 0x400)

/-- The last six bits of a byte of a sequence, which begins with a one. -/
def utfTail (r : Bytes) (k : Nat) (e : RimUtfErr) : Except TextFault Nat := do
  let c ← inBlock r[k]?
  if c &&& 128 = 128 then .ok (c &&& 63).toNat else .error (.err e)

/-- `rim_encode_utf`: the code point at the front of `r`, and its bytes. -/
def rimEncodeUtf (r : Bytes) : Except TextFault (Nat × Nat) := do
  let c ← inBlock r[0]?
  if c &&& 128 = 0 then .ok (c.toNat, 1)
  else if c &&& 240 = 240 then do
    let b ← utfTail r 1 .RIM_UTF_ERR_SECOND_BYTE
    let d ← utfTail r 2 .RIM_UTF_ERR_THIRD_BYTE
    let e ← utfTail r 3 .RIM_UTF_ERR_FOURTH_BYTE
    .ok ((c &&& 7).toNat <<< 18 + b <<< 12 + d <<< 6 + e, 4)
  else if c &&& 224 = 224 then do
    let b ← utfTail r 1 .RIM_UTF_ERR_SECOND_BYTE
    let d ← utfTail r 2 .RIM_UTF_ERR_THIRD_BYTE
    .ok ((c &&& 15).toNat <<< 12 + b <<< 6 + d, 3)
  else if c &&& 192 = 192 then do
    let b ← utfTail r 1 .RIM_UTF_ERR_SECOND_BYTE
    .ok ((c &&& 31).toNat <<< 6 + b, 2)
  else .error (.err .RIM_UTF_INVALID)

/-- `rim_decode_utf`: the bytes of a code point. -/
def rimDecodeUtf (u : Int) : Except TextFault Bytes :=
  if u ≤ 0x7F then .ok [.ofInt u]
  else if 0x80 ≤ u ∧ u ≤ 0x7FF then .ok [.ofInt (192 + u / 64), .ofInt (128 + u % 64)]
  else if 0x800 ≤ u ∧ u ≤ 0xFFFF then
    if u = 0xFEFF then .error (.err .RIM_UTF_ERR_ILLEGAL_CHARACTER_FEFF)
    else .ok [.ofInt (224 + u / 4096), .ofInt (128 + u / 64 % 64), .ofInt (128 + u % 64)]
  else if 0x10000 ≤ u ∧ u ≤ 0x10FFFF then
    .ok [.ofInt (240 + u / 262144), .ofInt (128 + u / 4096 % 64), .ofInt (128 + u / 64 % 64),
      .ofInt (128 + u % 64)]
  else .error (.err .RIM_UTF_ERR_OUT_OF_RANGE)

def hexVal (c : UInt8) : Option Nat :=
  if 48 ≤ c ∧ c ≤ 57 then some (c.toNat - 48)
  else if 97 ≤ c ∧ c ≤ 102 then some (c.toNat - 97 + 10)
  else if 65 ≤ c ∧ c ≤ 70 then some (c.toNat - 65 + 10)
  else none

/-- The loop of `rim_get_hex`, with `n` digits left. -/
def rimGetHexLoop (v : Bytes) : Nat → Nat → Nat → Except TextFault Nat
  | 0, _, r => .ok r
  | n + 1, i, r => do
    let c ← inBlock v[i]?
    match hexVal c with
    | some d => rimGetHexLoop v n (i + 1) (r + d * 16 ^ n)
    | none => .error (.err .RIM_ERR_UTF_BADUTF)

/-- `rim_get_hex` of `bytes` digits at `i`. The result is a `rim_num32`. -/
def rimGetHex (v : Bytes) (i bytes : Nat) : Except TextFault Int := do
  let r ← rimGetHexLoop v bytes i 0
  .ok ((r : Int).bmod (2 ^ 32))

/-- `rim_utf_get_code8`: the code point of `\U` and the bytes used, from the `U` at
`ubeg`. -/
def rimUtfGetCode8 (val : Bytes) (ubeg : Nat) : Except TextFault (Int × Nat) := do
  let r ← rimGetHex val (ubeg + 1) 8
  if 0xD800 ≤ r ∧ r ≤ 0xDFFF then .error (.err .RIM_UTF_INVALID)
  else if r = -1 then .error (.err .noMessage)
  else .ok (r, 10)

/-- `rim_utf_get_code`: the code point of `\u`, or of two that are surrogates, and the
bytes used, from the `u` at `ubeg`. -/
def rimUtfGetCode (val : Bytes) (ubeg : Nat) : Except TextFault (Int × Nat) := do
  let r ← rimGetHex val (ubeg + 1) 4
  if 0xD800 ≤ r ∧ r ≤ 0xDFFF then do
    let c ← inBlock val[ubeg + 5]?
    if c ≠ 92 then .error (.err .RIM_ERR_UTF_SURROGATE)
    else do
      let c ← inBlock val[ubeg + 6]?
      if c ≠ 117 then .error (.err .RIM_ERR_UTF_SURROGATE)
      else do
        let r1 ← rimGetHex val (ubeg + 7) 4
        .ok (rimMakeFromUtfSurrogate r r1, 12)
  else .ok (r, 6)

/-- What `\` and a letter stand for. -/
def textEscape (c : UInt8) : Option UInt8 :=
  if c = 34 ∨ c = 92 ∨ c = 47 then some c
  else if c = 98 then some 8
  else if c = 102 then some 12
  else if c = 110 then some 10
  else if c = 114 then some 13
  else if c = 116 then some 9
  else none

/-- The loop of `rim_text_to_utf` with encoding, at byte `i`. What is written is `pull`
bytes behind. It answers the block, where it ended, and how far behind it was. -/
def rimTextLoop : Nat → Bytes → Nat → Nat → Except TextFault (Bytes × Nat × Nat)
  | 0, _, _, _ => .error .undefined
  | fuel + 1, val, i, pull => do
    let c ← inBlock val[i]?
    if c = 34 ∨ c = 0 then .ok (val, i, pull)
    else if c = 92 then do
      let e ← inBlock val[i + 1]?
      match textEscape e with
      | some b => do
        let val ← inBlock (poke val (i - pull) b)
        rimTextLoop fuel val (i + 2) (pull + 1)
      | none =>
        if e = 85 ∨ e = 117 then do
          let (rtot, totjv) ← if e = 85 then rimUtfGetCode8 val (i + 1) else rimUtfGetCode val (i + 1)
          let bytes ← rimDecodeUtf rtot
          let val ← inBlock (memcpy val (i - pull) bytes)
          rimTextLoop fuel val (i + totjv) (pull + (totjv - bytes.length))
        else .error (.err .RIM_ERR_UTF_BADESCAPE)
    else do
      let val ← if pull ≠ 0 then inBlock (poke val (i - pull) c) else .ok val
      rimTextLoop fuel val (i + 1) pull

/-- The loop of `rim_text_to_utf` without encoding. A quote that does not end the text
is looked at for ever. -/
def rimSkipLoop (quoted : Bool) : Nat → Bytes → Nat → Except TextFault (Bytes × Nat × Nat)
  | 0, _, _ => .error .undefined
  | fuel + 1, val, i => do
    let c ← inBlock val[i]?
    if c = 0 then .ok (val, i, 0)
    else do
      let d ← inBlock val[i + 1]?
      if c = 92 ∧ d ≠ 0 then rimSkipLoop quoted fuel val (i + 2)
      else if c = 34 then
        if quoted then .ok (val, i, 0) else rimSkipLoop quoted fuel val i
      else rimSkipLoop quoted fuel val (i + 1)

/-- What `rim_text_to_utf` does: the block, where the text ended, and the length of the
string where it sets one. -/
structure TextEnd where
  val : Bytes
  last : Nat
  len : Option Nat
  deriving DecidableEq, Repr

def rimTextToUtf (val : Bytes) (quoted enc alloced : Bool) : Except TextFault TextEnd := do
  let start := if quoted then 1 else 0
  let (val, i, pull) ←
    if enc then rimTextLoop (val.length + 1) val start 0
    else rimSkipLoop quoted (val.length + 1) val start
  let val ← if pull ≠ 0 then inBlock (poke val (i - pull) 0) else .ok val
  let c ← inBlock val[i]?
  if c = 0 ∧ quoted then .error (.err .RIM_ERR_UTF_NOQUOTE)
  else .ok { val, last := i, len := if pull ≠ 0 ∧ alloced then some (i - pull) else none }

def rimToHex (x : Nat) : UInt8 := .ofNat (if x ≤ 9 then 48 + x else 97 - 10 + x)

def rimHexFromByte (x : Nat) : Bytes := [rimToHex (x / 16 % 16), rimToHex (x % 16)]

def rimHexFromInt16 (x : Nat) : Bytes := rimHexFromByte (x / 256 % 256) ++ rimHexFromByte (x % 256)

def rimHexFromInt32 (x : Nat) : Bytes :=
  rimHexFromByte (x / 16777216 % 256) ++ rimHexFromByte (x / 65536 % 256) ++ rimHexFromInt16 x

/-- How a code point above ASCII is written. -/
def rimUnicodeText (json : Bool) (u : Nat) : Bytes :=
  if 0x10000 ≤ u then
    if json then
      let (u0, u1) := rimGetUtfSurrogate u
      [92, 117] ++ rimHexFromInt16 u0 ++ ([92, 117] ++ rimHexFromInt16 u1)
    else [92, 85] ++ rimHexFromInt32 u
  else [92, 117] ++ rimHexFromInt16 u

/-- How a byte that begins no sequence is written. -/
def rimByteText (c : UInt8) : Bytes :=
  if c = 34 then [92, 34]
  else if c = 92 then [92, 92]
  else if c = 8 then [92, 98]
  else if c = 12 then [92, 102]
  else if c = 10 then [92, 110]
  else if c = 13 then [92, 114]
  else if c = 9 then [92, 116]
  else [c]

/-- The loop of `rim_utf_to_text` at byte `i`. It answers what was written. -/
def rimUtfLoop (val : Bytes) (len : Nat) (json : Bool) : Nat → Nat → Bytes → Except TextFault Bytes
  | 0, _, _ => .error .undefined
  | fuel + 1, i, res =>
    if i < len then do
      let c ← inBlock val[i]?
      if c &&& 192 = 192 then do
        let (u, bytes) ← rimEncodeUtf (val.drop i)
        rimUtfLoop val len json fuel (i + bytes) (res ++ rimUnicodeText json u)
      else rimUtfLoop val len json fuel (i + 1) (res ++ rimByteText c)
    else .ok res

/-- `rim_utf_to_text` of the first `len` bytes. What is written goes to a block of
`3*len + 1` bytes; past it, it is undefined. -/
def rimUtfToText (val : Bytes) (len : Nat) (json : Bool) : Except TextFault Bytes := do
  let res ← rimUtfLoop val len json (len + 1) 0 []
  if res.length ≤ 3 * len then .ok res else .error .undefined

end RimStone
