import RimStone.Memory.Chars

/-!
# Changing a string where it is

`rim_trim_ptr` answers where a string in a block begins once the white space before it is
left out, and ends it with a null before the white space after it. `rim_alter_string` writes bytes of one string over as
many bytes of another; there a string is its bytes, without the null after them, and a reported error ends the request
with the target as it is.
-/

namespace RimStone

/-! ## Trimming -/

/-- `strlen (b + i)` -/
def strlenLoop : Bytes → Nat → Option Nat
  | [], _ => none
  | c :: b, n => if c = 0 then some n else strlenLoop b (n + 1)

/-- `strlen` of the string at `i` -/
def strlen (b : Bytes) (i : Nat) : Option Nat := strlenLoop (b.drop i) 0

/-- The loop of `rim_trim_ptr` over leading white space: how much of it there is. -/
def trimFrontLoop : Bytes → Nat → Option Nat
  | [], _ => none
  | c :: b, s => if isspace c then trimFrontLoop b (s + 1) else some s

/-- The loop over white space at the end, down to `s`: `e + 1`. -/
def trimBackLoop (b : Bytes) (str s : Nat) : Nat → Option Nat
  | 0 => some 0
  | e + 1 =>
    if s ≤ e then do
      let c ← b[str + e]?
      if isspace c then trimBackLoop b str s e else some (e + 1)
    else some (e + 1)

/-- `rim_trim_ptr`: the block, where the trimmed string begins, and its length. -/
def rimTrimPtr (b : Bytes) (str len : Nat) : Option (Bytes × Nat × Int) := do
  let s ← trimFrontLoop (b.drop str) 0
  let e ← trimBackLoop b str s len
  let c ← b[str + e]?
  let b ← if c ≠ 0 then poke b (str + e) 0 else some b
  some (b, str + s, (len : Int) - s - ((len : Int) - e))

/-! ## Replacing a part -/

def rimAlterString (tgt copy : Bytes) (swith len : Int) (begin : Bool) : Except (Fault Bytes) Bytes :=
  if len = 0 then .ok tgt
  else
    let tLen : Int := tgt.length
    let cLen : Int := copy.length
    if 0 ≤ len ∧ len > cLen then
      .error (.report "Copying [%ld] bytes is more than length [%ld] of copy string" tgt)
    else
      let len := if len < 0 then cLen else len
      let swith := if swith < 0 then if begin then 0 else len else swith
      if swith ≥ tLen then .error (.report "Starting position [%ld] would overrun buffer of [%ld] bytes" tgt)
      else
        let swith := if begin then swith else tLen - swith
        if swith + len > tLen then
          .error (.report "Copying string from byte [%ld] of length [%ld] would overrun buffer of [%ld] bytes" tgt)
        else
          match memcpy tgt swith.toNat (copy.take len.toNat) with
          | some tgt => .ok tgt
          | none => .error .undefined

end RimStone
