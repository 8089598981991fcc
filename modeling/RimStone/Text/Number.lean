import RimStone.Lib.Digits
import RimStone.Text.Strings

/-!
# Numbers as texts

`rim_num2str` writes a number in a base into a new string, and `rim_str2num` reads one with
`strtoll`. The digits of a number come last first, so they are put into an array and are written
backwards.

`strtoll` is the one of the C standard: white space, a sign, a prefix that the base may have, and
as many digits as there are. What does not fit in a `rim_num` is taken modulo 2^64.
-/

namespace RimStone

def RIM_NUMBER_LENGTH : Nat := 70

def numberDigits : Bytes := ascii "0123456789abcdefghijklmnopqrstuvwxyz" ++ [0]

/-- The loop that takes the digits of `a`, the last one first. What was taken before is in
`mods`. -/
def modsLoop (base : Int) : Nat → Int → List Int → Except WriteFault (List Int)
  | 0, _, _ => .error .fuel
  | fuel + 1, a, mods =>
    if a = 0 then .ok mods
    else if mods.length < RIM_NUMBER_LENGTH then modsLoop base fuel (a.tdiv base) (mods ++ [a.tmod base])
    else .error .outside

/-- `a`, the number without its sign -/
def absNum (al : Int) : Int := if al < 0 then toRimNum (-al) else al

/-- The digits of a number. Zero has none here. -/
def numberMods (al base : Int) : Except WriteFault (List Int) :=
  if al = 0 then .ok [] else modsLoop base (RIM_NUMBER_LENGTH + 1) (absNum al) []

/-- The loop that writes `n` digits from the `k`-th on, backwards from `p`. -/
def writeMods (mods : List Int) : Nat → Nat → Bytes → Int → Except WriteFault Bytes
  | 0, _, res, _ => .ok res
  | n + 1, k, res, p => do
    let m ← inside mods[k]?
    let c ← inside (peekAt numberDigits m)
    let res ← inside (pokeAt res p c)
    writeMods mods n (k + 1) res (p - 1)

/-- A number is written to the string of `len` characters that was made for it. -/
def writeNumber (al : Int) (mods : List Int) (len : Nat) (b : StrBlock) : Except WriteFault StrBlock := do
  let res ← inside (pokeAt b.bytes len 0)
  if al = 0 then do
    let res ← inside (pokeAt res 0 48)
    .ok ⟨res, 1 + 1⟩
  else if al < 0 then do
    let res ← inside (pokeAt res 0 45)
    let res ← writeMods mods (len - 1) 0 res (len - 1)
    .ok ⟨res, len + 1⟩
  else do
    let res ← writeMods mods len 0 res (len - 1)
    .ok ⟨res, len + 1⟩

/-- What `rim_num2str` returns: the string or `NULL`, and `*res_len`. -/
structure NumStr where
  res : Option StrBlock
  resLen : Nat
  deriving DecidableEq, Repr

def rimNum2str (heap : Heap) (al base : Int) : Except WriteFault NumStr :=
  if base < 2 ∨ 36 < base then .ok ⟨none, 0⟩
  else do
    let mods ← numberMods al base
    let len := if al = 0 then 1 else (if al < 0 then 1 else 0) + mods.length
    let b ← rimRealloc heap [] (len + 1)
    let res ← writeNumber al mods len b
    .ok ⟨some res, len⟩

/-! ## Reading -/

/-- What a character is as a digit. Letters are digits from ten on, in either case. -/
def digitVal (c : UInt8) : Option Nat :=
  if 48 ≤ c ∧ c ≤ 57 then some (c.toNat - 48)
  else if 97 ≤ c ∧ c ≤ 122 then some (c.toNat - 87)
  else if 65 ≤ c ∧ c ≤ 90 then some (c.toNat - 55)
  else none

/-- The digit of a base that a character is. -/
def digitIn (base : Nat) (c : UInt8) : Option Nat := (digitVal c).filter (· < base)

def digitRun (base : Nat) : Bytes → List Nat × Bytes
  | [] => ([], [])
  | c :: s =>
    match digitIn base c with
    | some d => (d :: (digitRun base s).1, (digitRun base s).2)
    | none => ([], c :: s)

/-- A sign: whether it is a minus, and what is after it. -/
def signRun : Bytes → Bool × Bytes
  | 45 :: s => (true, s)
  | 43 :: s => (false, s)
  | s => (false, s)

/-- `0x` or `0X` before a hexadecimal digit -/
def hexPrefix : Bytes → Option Bytes
  | 48 :: x :: c :: s => if (x = 120 ∨ x = 88) ∧ (digitIn 16 c).isSome then some (c :: s) else none
  | _ => none

/-- The base of the digits, and what is after a prefix. Base 0 takes it from the text. -/
def baseRun (base : Nat) (s : Bytes) : Nat × Bytes :=
  if base = 0 ∨ base = 16 then
    match hexPrefix s with
    | some s => (16, s)
    | none => (if base = 16 then 16 else if s.head? = some 48 then 8 else 10, s)
  else (base, s)

/-- `errno` after `strtoll` -/
inductive StrtollErrno where
  | none
  /-- `ERANGE` -/
  | range
  deriving DecidableEq, Repr

/-- What `strtoll` answers: the number, the text from `*endptr` on, or nothing where no digit was
found, and `errno`. -/
structure Strtoll where
  val : Int
  numend : Option Bytes
  errno : StrtollErrno := .none
  deriving DecidableEq, Repr

/-- `strtoll` of the text `str` in a base that it has. -/
def strtoll (str : Bytes) (base : Nat) : Strtoll :=
  let (neg, s) := signRun (str.dropWhile isspace)
  let (base, s) := baseRun base s
  let (ds, rest) := digitRun base s
  if ds = [] then ⟨0, none, .none⟩
  else
    let val : Int := if neg then -(Lib.number base ds : Int) else Lib.number base ds
    if val < -2 ^ 63 then ⟨-2 ^ 63, some rest, .range⟩
    else if 2 ^ 63 ≤ val then ⟨2 ^ 63 - 1, some rest, .range⟩
    else ⟨val, some rest, .none⟩

/-- What `rim_str2num` sets its status to. -/
inductive NumStatus where
  /-- `RIM_OKAY` -/
  | okay
  /-- `RIM_ERR_INVALID` -/
  | errInvalid
  /-- `RIM_ERR_OVERFLOW` -/
  | errOverflow
  /-- `RIM_ERR_EXIST` -/
  | errExist
  /-- `RIM_ERR_TOO_MANY` -/
  | errTooMany
  deriving DecidableEq, Repr

/-- `rim_str2num` of a text, which ends before the first null. -/
def rimStr2num (str : Bytes) (base : Int) : Int × NumStatus :=
  if base ≠ 0 ∧ (base < 2 ∨ 36 < base) then (0, .errInvalid)
  else
    let r := strtoll str base.toNat
    match r.errno, r.numend with
    | .range, _ => (0, .errOverflow)
    | .none, none => (0, .errExist)
    | .none, some rest => if rest ≠ [] then (r.val, .errTooMany) else (r.val, .okay)

end RimStone
