import RimStone.Text.Encode
import RimStone.Text.Utf

/-!
# Hexadecimal

`rim_bin2hex` writes two digits for each byte, and `rim_hex2bin` reads them two at a time. `src` is the
memory from the string on, and `lsrc` is the length of the string; to read behind `src` is undefined.
`block` is what `rim_malloc` answers, of the length that is asked for.
-/

namespace RimStone

/-- `ilen`, where -1 is the whole string -/
def hexLength (lsrc : Nat) (ilen : Int) : Except (Fault Unit) Int :=
  if ilen = -1 then .ok lsrc
  else if ilen > lsrc then
    .error (.report "Memory read requested of length [%ld] but only [%ld] allocated" ())
  else .ok ilen

/-- The loop of `rim_hex2bin`, which ends at what is no digit. -/
def hex2binLoop (src : Bytes) (ilen : Int) : Nat → Bytes → Nat → Nat → Option (Bytes × Nat)
  | 0, _, _, _ => none
  | fuel + 1, dst, i, j =>
    if i < ilen then do
      let x ← src[i]?
      match urlDig x with
      | none => some (dst, j)
      | some h => do
        let y ← src[i + 1]?
        match urlDig y with
        | none => some (dst, j)
        | some l => do
          let dst ← poke dst j (h <<< 4 + l)
          hex2binLoop src ilen fuel dst (i + 2) (j + 1)
    else some (dst, j)

/-- How many bytes `rim_hex2bin` allocates. -/
def hex2binSize (ilen : Int) : Int := ilen.tdiv 2 + 2

def rimHex2bin (src : Bytes) (lsrc : Nat) (ilen : Int) (block : Bytes) : Except (Fault Unit) Bytes := do
  let ilen ← hexLength lsrc ilen
  let written := do
    let (dst, j) ← hex2binLoop src ilen (ilen.toNat + 1) block 0 0
    let dst ← poke dst j 0
    some (dst.take j)
  match written with
  | some bytes => .ok bytes
  | none => .error .undefined

/-- `RIM_HEX_FROM_BYTE`, of a byte of the string -/
def byteHex (x : UInt8) : Bytes := rimHexFromByte x.toNat

/-- The loop of `rim_bin2hex`. -/
def bin2hexLoop (src : Bytes) (ilen : Int) : Nat → Bytes → Nat → Nat → Option (Bytes × Nat)
  | 0, _, _, _ => none
  | fuel + 1, dst, i, j =>
    if i < ilen then do
      let x ← src[i]?
      let dst ← memcpy dst j (byteHex x)
      bin2hexLoop src ilen fuel dst (i + 1) (j + 2)
    else some (dst, j)

/-- `rim_bin2hex`; without a prefix it is the empty text. -/
def rimBin2hex (src : Bytes) (lsrc : Nat) (ilen : Int) (pref block : Bytes) : Except (Fault Unit) Bytes := do
  let ilen ← hexLength lsrc ilen
  let written := do
    let dst ← memcpy block 0 pref
    let (dst, j) ← bin2hexLoop src ilen (ilen.toNat + 1) dst 0 pref.length
    let dst ← poke dst j 0
    some (dst.take j)
  match written with
  | some bytes => .ok bytes
  | none => .error .undefined

end RimStone
