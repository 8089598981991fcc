import RimStone.Memory.Chars

/-!
# Searching a source line

`rim_find_keyword0` finds a piece of text in a string, outside of quotes. A string here is its
bytes, without the null that ends it.
-/

namespace RimStone

/-- Errors in a source file, which `rim_report_error` reports. -/
inductive SourceError where
  | unterminatedString
  | unbalancedParentheses
  /-- Closing */ C comment found, but there was no opening /* comment -/
  | commentNotOpened
  /-- Opening C comment /* found on line, but it was never closed -/
  | commentNotClosed (line : Nat)
  /-- A character in front of the string is read. -/
  | undefined
  /-- A loop goes on. -/
  | fuel
  deriving DecidableEq, Repr

/-- What is counted on the way from the beginning of a string to a keyword in it. -/
structure Forth where
  prev : Option UInt8 := none
  quotes : Nat := 0
  leftPar : Nat := 0
  rightPar : Nat := 0
  deriving DecidableEq, Repr

namespace Forth

/-- `within_string` -/
def within (w : Forth) : Bool := w.quotes % 2 == 1

/-- A character of the string, where parentheses are counted if `paren`. -/
def go (paren : Bool) (w : Forth) (c : UInt8) : Forth :=
  let quotes := if c == 34 && w.prev != some 92 then w.quotes + 1 else w.quotes
  let outside := quotes % 2 == 0
  { prev := some c
    quotes
    leftPar := if paren && c == 40 && outside then w.leftPar + 1 else w.leftPar
    rightPar := if paren && c == 41 && outside then w.rightPar + 1 else w.rightPar }

end Forth

/-- The characters from the beginning of the string to the keyword. -/
def goForth (paren : Bool) (s : Bytes) : Forth := s.foldl (Forth.go paren) {}

/-- A keyword of one character: `l == 1`, where `l` is an `int` that keeps the low half of the length. -/
def oneChar (find : Bytes) : Bool := find.length % 0x100000000 == 1

/-- `l` with its sign. -/
def keywordLen (find : Bytes) : Int := Int.bmod find.length (2 ^ 32)

/-- A character of the string or the null that ends it, which is `none`. -/
def charAt (str : Bytes) (i : Int) : Except SourceError (Option UInt8) :=
  if i < 0 then .error .undefined else .ok str[i.toNat]?

/-- A space or the null is after the keyword, or a space is its end. -/
def endsWord (str find : Bytes) (f : Nat) : Except SourceError Bool := do
  let last ← charAt str (f + keywordLen find - 1)
  let behind ← charAt str (f + keywordLen find)
  .ok (last == some 32 || behind == none || behind == some 32)

/-- The loop of `rim_find_keyword0`: `strstr` looks from `beg` on and is at `f`, where `rest`
begins. -/
def findLoop (str find : Bytes) (hasSpaces paren : Bool) (beg f : Nat) : Bytes → Except SourceError (Option Nat)
  | [] => .ok none
  | c :: rest =>
    if !find.isPrefixOf (c :: rest) then findLoop str find hasSpaces paren beg (f + 1) rest
    else if oneChar find && f != beg && str[f - 1]? == some 39 && rest.head? == some 39 then
      match rest with
      | [] => .ok none
      | _ :: rest => findLoop str find hasSpaces paren (f + 2) (f + 2) rest
    else if hasSpaces && f != beg && str[f - 1]? != some 32 then
      findLoop str find hasSpaces paren (f + 1) (f + 1) rest
    else
      match if hasSpaces then endsWord str find f else .ok true with
      | .error e => .error e
      | .ok false => findLoop str find hasSpaces paren (f + 1) (f + 1) rest
      | .ok true =>
        let w := goForth paren (str.take f)
        if !w.within && w.leftPar == w.rightPar then .ok (some f)
        else findLoop str find hasSpaces paren (f + 1) (f + 1) rest

/-- `rim_find_keyword0`: where `find` is in `str`, if it is. -/
def rimFindKeyword0 (str find : Bytes) (hasSpaces paren : Bool) : Except SourceError (Option Nat) :=
  if find = [] then
    let w := goForth paren str
    if w.within then .error .unterminatedString
    else if w.leftPar ≠ w.rightPar then .error .unbalancedParentheses
    else .ok (some str.length)
  else findLoop str find hasSpaces paren 0 0 str

end RimStone
