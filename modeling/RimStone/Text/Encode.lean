import RimStone.Memory.Chars

/-!
# Web and URL encoding

`rim_encode_base` writes the encoded form of a string to a new block, and `rim_decode`
decodes a string where it is. A string is in a block with a null byte after it.
-/

namespace RimStone

/-- `enc_type` -/
inductive RimEnc where
  /-- `RIM_WEB` -/
  | web
  /-- `RIM_URL` -/
  | url
  deriving DecidableEq, Repr

def RIM_OKAY : Int := 0

def RIM_MAX_ENC_BLOWUP (x : Nat) : Nat := x * 6 + 1

/-- What stands for a byte in web encoding. A null is left out. -/
def rimEncodeWeb (c : UInt8) : Bytes :=
  if c = 38 then ascii "&amp;"
  else if c = 34 then ascii "&quot;"
  else if c = 39 then ascii "&apos;"
  else if c = 60 then ascii "&lt;"
  else if c = 62 then ascii "&gt;"
  else if c = 0 then []
  else [c]

/-- The bytes that URL encoding leaves as they are. -/
def urlPlain (c : UInt8) : Bool := isalnum c || c == 45 || c == 46 || c == 95 || c == 126

/-- `x>=10 ? 'A'+x-10 : '0'+x` -/
def urlHex (x : Int) : UInt8 := UInt8.ofInt (if x ≥ 10 then 65 + x - 10 else 48 + x)

/-- What stands for a byte in URL encoding. -/
def rimEncodeUrl (c : UInt8) : Bytes :=
  if urlPlain c then [c] else [37, urlHex (charVal c / 16), urlHex (charVal c % 16)]

def RimEnc.char : RimEnc → UInt8 → Bytes
  | web => rimEncodeWeb
  | url => rimEncodeUrl

/-- The loop of `rim_encode_base`. -/
def rimEncodeLoop (enc : RimEnc) : Bytes → Bytes → Nat → Option (Bytes × Nat)
  | [], res, j => some (res, j)
  | c :: v, res, j => do
    let res ← memcpy res j (enc.char c)
    rimEncodeLoop enc v res (j + (enc.char c).length)

/-- `rim_encode_base` of all bytes of `v`, with a new block. `block` is what
`rim_malloc` answers; it is cut to what was written. -/
def rimEncodeBase (enc : RimEnc) (v block : Bytes) : Option (Bytes × Nat) := do
  let (res, j) ← rimEncodeLoop enc v block 0
  let res ← poke res j 0
  some (res.take (j + 1), j)

/-- What `&` may start in web encoding, and the byte it stands for. -/
def webEntities : List (Bytes × UInt8) :=
  [(ascii "amp;", 38), (ascii "quot;", 34), (ascii "apos;", 39), (ascii "lt;", 60), (ascii "gt;", 62)]

/-- The loop of `rim_decode` for `RIM_WEB`. It answers the block and how many bytes
were written. -/
def rimDecodeWebLoop (inlen : Nat) : Nat → Bytes → Nat → Nat → Option (Bytes × Nat)
  | 0, _, _, _ => none
  | fuel + 1, v, i, j =>
    if i < inlen then do
      let c ← v[i]?
      if c = 38 then
        match webEntities.find? fun e => strncmp e.1.length (v.drop (i + 1)) e.1 = 0 with
        | some e => do
          let v ← poke v j e.2
          rimDecodeWebLoop inlen fuel v (i + 1 + e.1.length) (j + 1)
        | none => do
          let v ← poke v j c
          rimDecodeWebLoop inlen fuel v (i + 1) (j + 1)
      else do
        let v ← poke v j c
        rimDecodeWebLoop inlen fuel v (i + 1) (j + 1)
    else some (v, j)

def urlDig (x : UInt8) : Option UInt8 :=
  if 65 ≤ x ∧ x ≤ 70 then some (x - 65 + 10)
  else if 97 ≤ x ∧ x ≤ 102 then some (x - 97 + 10)
  else if 48 ≤ x ∧ x ≤ 57 then some (x - 48)
  else none

/-- The loop of `rim_decode` for `RIM_URL`. It answers the block, how many bytes were
written, and where it ended. -/
def rimDecodeUrlLoop (inlen : Nat) : Nat → Bytes → Nat → Nat → Option (Bytes × Nat × Nat)
  | 0, _, _, _ => none
  | fuel + 1, v, i, j =>
    if i < inlen then do
      let c ← v[i]?
      if c = 37 then do
        let x ← v[i + 1]?
        match urlDig x with
        | none => some (v, j, i + 1)
        | some h => do
          let x ← v[i + 2]?
          match urlDig x with
          | none => some (v, j, i + 2)
          | some l => do
            let v ← poke v j (h * 16 + l)
            rimDecodeUrlLoop inlen fuel v (i + 3) (j + 1)
      else do
        let v ← poke v j (if c = 43 then 32 else c)
        rimDecodeUrlLoop inlen fuel v (i + 1) (j + 1)
    else some (v, j, i)

/-- What `rim_decode` does: the block, the length of the string in it, and the status
where it sets one. -/
structure Decoded where
  block : Bytes
  len : Nat
  status : Option Int
  deriving DecidableEq, Repr

/-- The decoded string, with the null after it. -/
def Decoded.memory (d : Decoded) : Bytes := d.block.take (d.len + 1)

/-- `rim_decode` of `inlen` bytes. -/
def rimDecode (enc : RimEnc) (v : Bytes) (inlen : Nat) : Option Decoded :=
  match enc with
  | .web => do
    let (v, j) ← rimDecodeWebLoop inlen (inlen + 1) v 0 0
    let v ← poke v j 0
    some { block := v, len := j, status := none }
  | .url => do
    let (v, j, i) ← rimDecodeUrlLoop inlen (inlen + 1) v 0 0
    let v ← poke v j 0
    some { block := v, len := j, status := some (if i ≠ inlen then i else RIM_OKAY) }

end RimStone
