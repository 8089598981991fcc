import RimStone.Source.Keyword
import RimStone.Text.Edit

/-!
# Splitting a string

`rim_break_down` splits a string at each delimiter that `rim_find_keyword0` finds. In the block of the string it
nulls the delimiter and the byte where the trimmed piece ends, copies the piece, and puts both bytes back. How
many allocations there is room for is a parameter; one that fails is reported, and then the function does not come
back and the block stays as it is.
-/

namespace RimStone

/-- Why `rim_break_down` does not come back. -/
inductive BreakFault where
  | undefined
  | source (e : SourceError)
  /-- Out of memory; the block as it is then. -/
  | outmem (b : Bytes)
  /-- Cannot copy from byte [%ld] when length is [%ld], or byte position is negative -/
  | badCopy (b : Bytes) (start l : Int)
  /-- A loop goes on. -/
  | fuel
  deriving DecidableEq, Repr

def inValue {α : Type} : Option α → Except BreakFault α
  | some a => .ok a
  | none => .error .undefined

/-- What `rim_find_keyword0` reports. -/
def inSearch {α : Type} : Except SourceError α → Except BreakFault α
  | .ok a => .ok a
  | .error e => .error (.source e)

/-- `rim_malloc` and `rim_realloc`: the room that is left. -/
def allocate (b : Bytes) : Nat → Except BreakFault Nat
  | 0 => .error (.outmem b)
  | room + 1 => .ok room

/-- `rim_strdupl (b + s, start, l)`: the room that is left, and the copy. -/
def BreakDown.rimStrdupl (room : Nat) (b : Bytes) (s : Nat) (start l : Int) : Except BreakFault (Nat × Bytes) :=
  if start < 0 ∨ start > l then .error (.badCopy b start l)
  else do
    let room ← allocate b room
    let size := (l + 1 - start).toNat
    if s + start.toNat + size ≤ b.length then .ok (room, (b.drop (s + start.toNat)).take size)
    else .error .undefined

/-- A null is written at a place, if there is one: the block, and what was there. -/
def nullAt (b : Bytes) : Option Nat → Option (Bytes × UInt8)
  | none => some (b, 0)
  | some p => do
    let c ← b[p]?
    let b ← poke b p 0
    some (b, c)

def putBack (b : Bytes) (c : UInt8) : Option Nat → Option Bytes
  | none => some b
  | some p => poke b p c

/-- The loop over white space before `end_piece`: where the last byte that is none is. -/
def lastPlainLoop (b : Bytes) : Nat → Option Nat
  | 0 => none
  | e + 1 => do
    let c ← b[e]?
    if isspace c then lastPlainLoop b e else some e

/-- The trimming of what is from `piece` to `end_piece`: where it begins and ends then. `end_piece` is `NULL` if
nothing is left. -/
def trimPiece (b : Bytes) (piece endPiece : Nat) : Option (Nat × Option Nat) := do
  let s ← trimFrontLoop (b.drop piece) 0
  let c ← b[piece + s]?
  let piece := if c = 34 then piece + s + 1 else piece + s -- get passed left quote
  if endPiece ≠ piece then do
    let e ← lastPlainLoop b endPiece
    let c ← b[e]?
    some (piece, some (if c = 34 then e else e + 1)) -- get passed right quote
  else some (piece, none)

/-- One pass of the loop of `rim_break_down`: the block, the room that is left, the piece, and `pos_delim`. -/
def breakPiece (delim b : Bytes) (room currValue : Nat) : Except BreakFault (Bytes × Nat × Bytes × Option Nat) := do
  let l ← inValue (strlen b currValue)
  let found ← inSearch (rimFindKeyword0 ((b.drop currValue).take l) delim false false)
  let posDelim := found.map (currValue + ·)
  let (b, firstOfDelim) ← inValue (nullAt b posDelim)
  let (piece, endPiece) ← inValue (trimPiece b currValue (posDelim.getD (currValue + l)))
  -- `end_piece != NULL && end_piece != pos_delim`
  let trimmed := endPiece.filter fun e => posDelim ≠ some e
  let (b, trimChar) ← inValue (nullAt b trimmed)
  let len : Int := (endPiece.map fun e : Nat => (e : Int) - piece).getD 0
  let (room, copy) ← BreakDown.rimStrdupl room b piece 0 len
  let b ← inValue (putBack b firstOfDelim posDelim)
  let b ← inValue (putBack b trimChar trimmed)
  .ok (b, room, copy, posDelim)

def MAX_BREAK_DOWN : Nat := 128

/-- The loop of `rim_break_down`, where `pieces` are the `curr_break` pieces so far. -/
def breakLoop (delim : Bytes) : Nat → Bytes → Nat → Nat → List Bytes → Nat → Except BreakFault (Bytes × List Bytes)
  | 0, _, _, _, _, _ => .error .fuel
  | fuel + 1, b, room, totBreak, pieces, currValue => do
    let (b, room, copy, posDelim) ← breakPiece delim b room currValue
    if totBreak ≤ pieces.length then .error .undefined
    else
      let pieces := pieces ++ [copy]
      match posDelim with
      | none => .ok (b, pieces)
      | some p =>
        if pieces.length ≥ totBreak then do
          let room ← allocate b room
          breakLoop delim fuel b room (totBreak + MAX_BREAK_DOWN) pieces (p + delim.length)
        else breakLoop delim fuel b room totBreak pieces (p + delim.length)

/-- `rim_break_down` of the string that begins a block: the block, and the pieces with their nulls. -/
def rimBreakDown (room : Nat) (b delim : Bytes) : Except BreakFault (Bytes × List Bytes) := do
  let room ← allocate b room
  let room ← allocate b room
  breakLoop delim (b.length + 1) b room MAX_BREAK_DOWN [] 0

end RimStone
