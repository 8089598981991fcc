import RimStone.Request.Input
import RimStone.Text.Base64
import RimStone.Text.WriteString

/-!
# Encryption

`rim_encrypt` and `rim_decrypt` have a cipher of OpenSSL write into a block of their own, first what `Update` makes of
the data and behind it what `Final` does. The cipher, set up with its key, is a parameter. Blocks are of the length that
is asked for; a size below zero is more than there ever is, and apart from that memory does not run out. To read or
write outside of a block is undefined.
-/

namespace RimStone

/-- What is taken of a cipher. Where no `iv` is given, it keeps the one it has. -/
structure Cipher where
  /-- `EVP_CIPHER_CTX_block_size`, 1 for a stream cipher -/
  blockSize : Nat
  /-- how many bytes of an `iv` are read -/
  ivLength : Nat
  encryptUpdate (iv : Option Bytes) (data : Bytes) : Bytes
  encryptFinal (iv : Option Bytes) (data : Bytes) : Bytes
  decryptUpdate (iv : Option Bytes) (data : Bytes) : Bytes
  /-- none where it fails -/
  decryptFinal (iv : Option Bytes) (data : Bytes) : Option Bytes

def inCrypt {α : Type} : Option α → Except (Fault Unit) α
  | some a => .ok a
  | none => .error .undefined

/-- `*len`, where -1 is the whole string -/
def cryptLength (s : Bytes) : Option Nat → Except (Fault Unit) Nat
  | none => .ok s.length
  | some len =>
    if len > s.length then .error (.report "Memory used is of length [%ld] but only [%ld] allocated" ())
    else .ok len

/-- A block of `rim_malloc`, whose bytes are written before they are read. -/
def cryptBlock (size : Int) : Except (Fault Unit) Bytes :=
  if size < 0 then .error (.report "Out of memory for [%ld] bytes" ())
  else .ok (List.replicate size.toNat 0)

/-- `n + 1`, of an `int` -/
def intSucc (n : Int) : Except (Fault Unit) Int := if n + 1 < 2 ^ 31 then .ok (n + 1) else .error .undefined

namespace Cipher

variable (c : Cipher)

/-- What is read of an `iv`. -/
def ivRead : Option Bytes → Except (Fault Unit) (Option Bytes)
  | none => .ok none
  | some iv => if c.ivLength ≤ iv.length + 1 then .ok (some ((iv ++ [0]).take c.ivLength)) else .error .undefined

/-- `iv_len < req_ivlen` -/
def ivChecked : Option Bytes → Except (Fault Unit) Unit
  | none => .ok ()
  | some iv =>
    if iv.length < c.ivLength then
      .error (.report "Length of Initialization Vector (IV) must be [%d] but only [%ld] allocated" ())
    else .ok ()

end Cipher

/-- `Update`, and `Final` behind it: the block, and how much was written. -/
def cryptInto (block update final : Bytes) : Option (Bytes × Nat) := do
  let block ← memcpy block 0 update
  let block ← memcpy block update.length final
  some (block, update.length + final.length)

def cryptEnd (block : Bytes) (len : Nat) : Option Bytes := do
  let block ← poke block len 0
  some (block.take len)

def cryptText (block update final : Bytes) : Option Bytes := do
  let (block, len) ← cryptInto block update final
  cryptEnd block len

/-- What `rim_encrypt` answers: the loop for hexadecimal digits is that of `rim_bin2hex`. -/
def encryptAnswer (ciphertext : Bytes) (len : Nat) (isBinary : Bool) : Except (Fault Unit) Bytes :=
  if isBinary then inCrypt (cryptEnd ciphertext len)
  else do
    let hexCiphertext ← cryptBlock (2 * len + 1 : Nat)
    inCrypt do
      let (hexCiphertext, totLen) ← bin2hexLoop ciphertext len (len + 1) hexCiphertext 0 0
      cryptEnd hexCiphertext totLen

def rimEncrypt (c : Cipher) (plaintext : Bytes) (len : Option Nat) (isBinary : Bool) (iv : Option Bytes) :
    Except (Fault Unit) Bytes := do
  let len ← cryptLength plaintext len
  -- `p_len` and `p_len+1` are of type `int`
  let size ← intSucc (toInt32 (len + c.blockSize))
  let ciphertext ← cryptBlock size
  c.ivChecked iv
  let iv ← c.ivRead iv
  let (ciphertext, len) ← inCrypt do
    let data ← evpInput (plaintext ++ [0]) len
    cryptInto ciphertext (c.encryptUpdate iv data) (c.encryptFinal iv data)
  encryptAnswer ciphertext len isBinary

/-- The byte of two digits, which are not checked. -/
def cryptByte (x y : UInt8) : UInt8 := UInt8.ofInt (rimCharFromHex x * 16 + rimCharFromHex y)

/-- The loop of `rim_decrypt`. -/
def cryptHexLoop (src : Bytes) (len : Nat) : Nat → Bytes → Nat → Nat → Option (Bytes × Nat)
  | 0, _, _, _ => none
  | fuel + 1, dst, i, j =>
    if i < len then do
      let x ← src[i]?
      let y ← src[i + 1]?
      let dst ← poke dst j (cryptByte x y)
      cryptHexLoop src len fuel dst (i + 2) (j + 1)
    else some (dst, j)

/-- `cipher_bin`, and its length -/
def cryptBinary (ciphertext : Bytes) (len : Nat) (isBinary : Bool) : Except (Fault Unit) (Bytes × Nat) :=
  if isBinary then .ok (ciphertext ++ [0], len)
  else do
    let cipherBin ← cryptBlock (len / 2 + 2 : Nat)
    inCrypt do
      let (cipherBin, len) ← cryptHexLoop (ciphertext ++ [0]) len (len + 1) cipherBin 0 0
      let cipherBin ← poke cipherBin len 0
      some (cipherBin, len)

/-- `rim_decrypt`, once there is `cipher_bin` -/
def decryptBinary (c : Cipher) (cipherBin : Bytes) (len : Nat) (iv : Option Bytes) : Except (Fault Unit) Bytes := do
  let plaintext ← cryptBlock (toInt32 len)
  let iv ← c.ivRead iv
  inCrypt do
    let data ← evpInput cipherBin len
    -- what `Final` answers is not looked at
    cryptText plaintext (c.decryptUpdate iv data) ((c.decryptFinal iv data).getD [])

def rimDecrypt (c : Cipher) (ciphertext : Bytes) (len : Option Nat) (isBinary : Bool) (iv : Option Bytes) :
    Except (Fault Unit) Bytes := do
  let len ← cryptLength ciphertext len
  let (cipherBin, len) ← cryptBinary ciphertext len isBinary
  decryptBinary c cipherBin len iv

end RimStone
