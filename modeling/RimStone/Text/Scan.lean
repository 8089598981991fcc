import RimStone.Memory.Chars

/-!
# Scanning a string

The code that is generated for `scan-string`. A string is its bytes, with a null after them in its block. To add
beyond what 64 bits hold is undefined, and so is a search of bytes that are not all in the block; a length below zero
is one of more than 2^63 bytes for `memchr` and `memmem`.
-/

namespace RimStone

inductive ScanFor where
  /-- a number, of which a `char` is made -/
  | number (n : Int)
  | string (s : Bytes)
  deriving DecidableEq, Repr

/-- `(char)(fors)` -/
def charOf (n : Int) : UInt8 := UInt8.ofNat (n % 256).toNat

def ScanFor.bytes : ScanFor → Bytes
  | .number n => [charOf n]
  | .string s => s

/-- `memchr` or `memmem` -/
def ScanFor.search : ScanFor → Bytes → Option Nat
  | .number n => memchr (charOf n)
  | .string s => (strstr · s)

def RIM_ERR_POSITION : Int := -5

/-- The `n` bytes at `start` of a block, where the block has them. -/
def scanArea (block : Bytes) (start n : Int) : Option Bytes :=
  if 0 ≤ start ∧ 0 ≤ n ∧ start + n ≤ block.length then some ((block.drop start.toNat).take n.toNat) else none

def rimNumAdd (a b : Int) : Option Int := if -2 ^ 63 ≤ a + b ∧ a + b < 2 ^ 63 then some (a + b) else none

/-- The search itself, and what the status is set to. -/
def scanStatus (mtext : Bytes) (fors : ScanFor) (swith n : Int) : Except (Fault Unit) Int :=
  match scanArea (mtext ++ [0]) swith n with
  | none => .error .undefined
  | some area =>
    match fors.search area with
    | none => .ok RIM_ERR_POSITION
    | some k => .ok (swith + k)

/-- `scan-string`, where `swith` and `len` are the clauses that there are. -/
def scanString (mtext : Bytes) (fors : ScanFor) (swith len : Option Int) : Except (Fault Unit) Int :=
  let start := swith.getD 0
  if start < 0 then .error (.report "start-with is negative [%ld]" ())
  else
    match len with
    | none => scanStatus mtext fors start (mtext.length - start)
    | some len =>
      if len < 0 then .error (.report "length is negative [%ld]" ())
      else
        match rimNumAdd start len with
        | none => .error .undefined
        | some limit =>
          if limit > mtext.length then
            .error (.report "Scan area in string extends to byte [%ld] with string limit [%ld]" ())
          else scanStatus mtext fors start len

end RimStone
