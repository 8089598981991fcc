import RimStone.Source.Keyword
import RimStone.Text.Utf

/-!
# String constants

`is_constant_string` says whether a piece of a statement is a string literal, and counts the bytes of the string.
Where two `\u` are a surrogate pair they are written over with one `\U`. `make_mem` makes a string of a literal: an
array of characters that begins with the header, where the length is the number that was counted.

A text is its bytes without the null, and a text that is read at some place goes on with what is left of it.
-/

namespace RimStone

inductive ConstError where
  /-- Octal escape sequence out of range -/
  | octalRange
  /-- Invalid hexadecimal escape sequence -/
  | hexadecimal
  /-- Cannot interpret Unicode character, error -/
  | unicode (e : TextFault)
  /-- Invalid escape sequence -/
  | escape (c : UInt8)
  /-- Invalid escape sequence at the end -/
  | escapeAtEnd
  /-- Invalid extra character sequence at the end -/
  | extra
  /-- No valid string found, check syntax -/
  | noString
  /-- What `rim_find_keyword0` reports. -/
  | search (e : SourceError)
  /-- A loop goes on. -/
  | fuel
  deriving DecidableEq, Repr

def RIM_IS_OCTAL (c : UInt8) : Bool := 48 ≤ c && c ≤ 55

def isxdigit (c : UInt8) : Bool := (hexVal c).isSome

/-- An escape sequence: the characters of the text that it takes and the bytes of the string that it is counted as.
`text` is what stands there afterwards. -/
structure Escape where
  used : Nat
  bytes : Nat
  text : Bytes
  deriving DecidableEq, Repr

/-- A character, or the null that ends the text, of which `p` does not hold. -/
def nextIs (p : UInt8 → Bool) (s : Bytes) : Bool := s.head?.any p

/-- `X` of `printf`, for a digit -/
def upperHex (x : Nat) : UInt8 := .ofNat (if x ≤ 9 then 48 + x else 65 - 10 + x)

/-- What is written over two `\u`: `\U` with eight digits and an end and a beginning of a piece. -/
def surrogateText (u : Int) : Bytes :=
  let x := (u % 2 ^ 32).toNat
  [92, 85] ++ (List.range 8).map (fun i => upperHex (x / 16 ^ (7 - i) % 16)) ++ [34, 34]

def octalValue (c₁ c₂ c₃ : UInt8) : Nat := (c₁.toNat - 48) * 8 * 8 + (c₂.toNat - 48) * 8 + (c₃.toNat - 48)

/-- An octal escape, whose first digit is `cur`. -/
def octalEscape (cur : UInt8) (s : Bytes) : Except ConstError Escape :=
  let keep (n : Nat) : Escape := { used := n, bytes := 1, text := (92 :: cur :: s).take n }
  if !nextIs RIM_IS_OCTAL s then .ok (keep 2)
  else if !nextIs RIM_IS_OCTAL s.tail then .ok (keep 3)
  else if octalValue cur (s.headD 0) (s.tail.headD 0) > 255 then .error .octalRange
  else .ok (keep 4)

/-- A hexadecimal escape, behind its `x`. -/
def hexEscape (s : Bytes) : Except ConstError Escape :=
  let keep (n : Nat) : Escape := { used := n, bytes := 1, text := (92 :: 120 :: s).take n }
  if !nextIs isxdigit s then .error .hexadecimal
  else if !nextIs isxdigit s.tail then .ok (keep 3)
  else .ok (keep 4)

/-- A failure of the functions of Unicode, which is reported. -/
def orUnicode {α : Type} : Except TextFault α → Except ConstError α
  | .ok a => .ok a
  | .error e => .error (.unicode e)

/-- Whether the next `n` characters are hexadecimal digits. -/
def xdigits (n : Nat) (s : Bytes) : Bool := n ≤ s.length && (s.take n).all isxdigit

/-- `\U`, behind its `U` -/
def bigUnicodeEscape (s : Bytes) : Except ConstError Escape :=
  if xdigits 8 s then do
    let (rtot, totjv) ← orUnicode (rimUtfGetCode8 (85 :: s ++ [0]) 0)
    let utf ← orUnicode (rimDecodeUtf rtot)
    .ok { used := totjv, bytes := utf.length, text := (92 :: 85 :: s).take totjv }
  else .error .hexadecimal

/-- `\u`, behind its `u` -/
def unicodeEscape (s : Bytes) : Except ConstError Escape :=
  if xdigits 4 s then do
    let (rtot, totjv) ← orUnicode (rimUtfGetCode (117 :: s ++ [0]) 0)
    let utf ← orUnicode (rimDecodeUtf rtot)
    .ok {
      used := totjv
      bytes := utf.length
      text := if totjv = 12 then surrogateText rtot else (92 :: 117 :: s).take totjv }
  else .error .hexadecimal

/-- The simple escapes but the double quote, by their characters. -/
def simpleEscapes : Bytes := ascii "abfnrtv\\'"

def escape : Bytes → Except ConstError Escape
  | [] => .error .escapeAtEnd
  | cur :: s =>
    if cur = 34 ∨ cur ∈ simpleEscapes then .ok { used := 2, bytes := 1, text := [92, cur] }
    else if RIM_IS_OCTAL cur then octalEscape cur s
    else if cur = 120 then hexEscape s
    else if cur = 85 then bigUnicodeEscape s
    else if cur = 117 then unicodeEscape s
    else .error (.escape cur)

/-- Where the loop of `is_constant_string` ends: the bytes counted, whether the end of the literal was `found`, what
stands in the text up to here, and what is left of it. -/
structure ConstEnd where
  clen : Nat
  found : Bool
  done : Bytes
  left : Bytes
  deriving DecidableEq, Repr

/-- The loop of `is_constant_string`. -/
def constLoop : Nat → Bytes → Nat → Bytes → Except ConstError ConstEnd
  | 0, _, _, _ => .error .fuel
  | _ + 1, [], clen, done => .ok { clen, found := false, done, left := [] }
  | fuel + 1, c :: s, clen, done =>
    if c = 92 then do
      let e ← escape s
      constLoop fuel ((c :: s).drop e.used) (clen + e.bytes) (done ++ e.text)
    else if c = 34 then
      -- the end of a piece, which is the end unless another one begins
      let blanks := s.takeWhile isspace
      let rest := s.dropWhile isspace
      if nextIs (· == 34) rest then constLoop fuel rest.tail clen (done ++ 34 :: blanks ++ [34])
      else .ok { clen, found := true, done := done ++ 34 :: blanks, left := rest }
    else constLoop fuel s (clen + 1) (done ++ [c])

def RIM_KEYPLUS : Bytes := ascii "+"

/-- `is_constant_string` from the first character on that is no blank. -/
def constantFrom (s : Bytes) : Except ConstError (Option (Nat × Bytes)) :=
  if !nextIs (· == 34) s then .ok none
  else
    match rimFindKeyword0 s RIM_KEYPLUS false false with
    | .error e => .error (.search e)
    | .ok (some _) => .ok none
    | .ok none => do
      let r ← constLoop (s.length + 1) s.tail 0 []
      if r.left.dropWhile isspace ≠ [] then .error .extra
      else if r.found then .ok (some (r.clen, 34 :: r.done ++ r.left))
      else .error .noString

/-- `is_constant_string`, where `none` is `RIM_CONST_NOT`: the number of bytes and the text that stands there
afterwards. -/
def isConstantString (s : Bytes) : Except ConstError (Option (Nat × Bytes)) := do
  let r ← constantFrom (s.dropWhile isspace)
  .ok (r.map fun r => (r.1, s.takeWhile isspace ++ r.2))

/-- The string that `make_mem` makes: its header, `id` and `len`, and the text of the literal. -/
structure MemConst where
  id : Int
  len : Int
  clause : Bytes
  deriving DecidableEq, Repr

/-- The bytes of a number of the header, as the memory has them. -/
def numBytes (x : Int) : Bytes := (List.range 8).map fun i => .ofNat ((x % 2 ^ 64).toNat / 256 ^ i % 256)

/-- `rim_head` as the memory has it. -/
def MemConst.head (m : MemConst) : Bytes := numBytes m.id ++ numBytes m.len

/-- `shead`: the header as text. -/
def MemConst.shead (m : MemConst) : Bytes := m.head.flatMap fun b => [92, 120] ++ rimHexFromByte b.toNat

def MemConst.literal (m : MemConst) : Bytes := 34 :: m.shead ++ [34, 32] ++ m.clause

/-- `make_mem`, where `none` says that the clause is no literal. -/
def makeMem (clause : Bytes) : Except ConstError (Option MemConst) := do
  let r ← isConstantString (clause.dropWhile isspace)
  .ok (r.map fun r => { id := -1, len := r.1 + 1, clause := clause.takeWhile isspace ++ r.2 })

end RimStone
