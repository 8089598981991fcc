import RimStone.Text.Hex
import RimStone.Lib.Base64

/-!
# Base64

`rim_b64_encode` and `rim_b64_decode` are a call of OpenSSL each, which is a parameter here. OpenSSL is given an `int`
for the length; nothing is said of what it does with a length below zero, or where its answer is more than an `int`.
`src` is the memory from the string on, and `lin` is the length of the string; to read in front of it or behind `src`
is undefined. `block` is what `rim_malloc` answers, of the length that is asked for.
-/

namespace RimStone

/-- What is taken of OpenSSL. -/
structure Evp where
  /-- what `EVP_EncodeBlock` writes, before a null -/
  encodeBlock : Bytes → Bytes
  /-- what `EVP_DecodeBlock` writes, and none where it answers -1 -/
  decodeBlock : Bytes → Option Bytes

/-- The bytes that a call of OpenSSL is given. -/
def evpInput (f : Bytes) (n : Int) : Option Bytes :=
  let n := n.bmod (2 ^ 32)
  if 0 ≤ n ∧ n.toNat ≤ f.length then some (f.take n.toNat) else none

namespace Evp

variable (evp : Evp)

/-- `EVP_EncodeBlock (t, f, n)`: what `t` is after it, and the answer -/
def encodeInto (t f : Bytes) (n : Int) : Option (Bytes × Int) := do
  let f ← evpInput f n
  let out := evp.encodeBlock f
  if out.length < 2 ^ 31 then do
    let t ← memcpy t 0 (out ++ [0])
    some (t, out.length)
  else none

/-- `EVP_DecodeBlock (t, f, n)`: what `t` is after it, and the answer -/
def decodeInto (t f : Bytes) (n : Int) : Option (Bytes × Int) := do
  let f ← evpInput f n
  match evp.decodeBlock f with
  | none => some (t, -1)
  | some out => do
    let t ← memcpy t 0 out
    some (t, out.length)

end Evp

/-- What is made is answered, where it was made in the memory there is. -/
def b64Answer : Option Bytes → Except (Fault Unit) Bytes
  | some bytes => .ok bytes
  | none => .error .undefined

/-- How many bytes `rim_b64_encode` allocates. -/
def b64EncodeSize (inLen : Int) : Int := 4 * (inLen + 2).tdiv 3 + 2

/-- What `rim_b64_encode` makes of `inLen` bytes. -/
def b64Encoded (evp : Evp) (src : Bytes) (inLen : Int) (block : Bytes) : Option Bytes := do
  let (out, outLen) ← evp.encodeInto block src inLen
  some (out.take outLen.toNat)

def rimB64Encode (evp : Evp) (src : Bytes) (lin : Nat) (inLen : Int) (block : Bytes) : Except (Fault Unit) Bytes := do
  let inLen ← hexLength lin inLen
  b64Answer (b64Encoded evp src inLen block)

/-- The loop that counts the `=`s at the end. -/
def b64FinalLoop (src : Bytes) (ilen : Int) : Nat → Int → Option Int
  | 0, _ => none
  | fuel + 1, final => do
    let c ← peekAt src (ilen - 1 - final)
    if c = 61 then b64FinalLoop src ilen fuel (final + 1) else some final

/-- How many bytes `rim_b64_decode` allocates. -/
def b64DecodeSize (ilen : Int) : Int := (3 * ilen).tdiv 4 + 4 + 1

/-- What `rim_b64_decode` makes of `ilen` bytes. -/
def b64Decoded (evp : Evp) (src : Bytes) (ilen : Int) (block : Bytes) : Option Bytes := do
  let final ← b64FinalLoop src ilen (ilen.toNat + 1) 0
  let (out, outLen) ← evp.decodeInto block src ilen
  let out ← pokeAt out (outLen - final) 0
  some (out.take (outLen - final).toNat)

def rimB64Decode (evp : Evp) (src : Bytes) (lin : Nat) (ilen : Int) (block : Bytes) : Except (Fault Unit) Bytes := do
  let ilen ← hexLength lin ilen
  b64Answer (b64Decoded evp src ilen block)

end RimStone
