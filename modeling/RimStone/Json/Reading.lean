import RimStone.Json.Parser
import RimStone.Laws.Memory.Str

/-!
# What the parser reads

The parser without its memory: a reader has the text that is left, the names and indexes
of the levels, and the leaves it found, each with its type and value. A round moves on,
stops, or calls for a value; `Reads` is a whole call. Where the parser is in error or
undefined, there is none.
-/

namespace RimStone

structure JsonLevel where
  name : Option Bytes
  index : Int
  deriving DecidableEq, Repr

structure JsonLeaf where
  name : Bytes
  type : JsonType
  value : Bytes
  deriving DecidableEq, Repr

structure Reader where
  list : List JsonLevel
  listC : Int
  leaves : List JsonLeaf
  deriving DecidableEq, Repr

namespace Reader

variable (r : Reader)

def level : Option JsonLevel := if 0 ≤ r.listC then r.list[r.listC.toNat]? else none

def setLevel (l : JsonLevel) : Reader := { r with list := r.list.set r.listC.toNat l }

def nextIndex : Option Reader := do
  let l ← r.level
  some (r.setLevel { l with index := l.index + 1 })

end Reader

def JsonLevel.text (noenum : Bool) (l : JsonLevel) : Option Bytes := do
  let name ← l.name
  let quoted := 34 :: (name ++ [34])
  some (if noenum = false ∧ l.index ≠ -1 then quoted ++ 91 :: (jsonIndex l.index ++ [93]) else quoted)

def Reader.leafName (noenum : Bool) (r : Reader) : Option Bytes :=
  if r.listC = 0 then some [34, 34]
  else do
    let names ← (r.list.take r.listC.toNat).mapM (JsonLevel.text noenum)
    some ([46].intercalate names)

def Reader.addLeaf (noenum : Bool) (type : JsonType) (value : Bytes) (r : Reader) : Option Reader := do
  let name ← r.leafName noenum
  some { r with listC := r.listC - 1, leaves := r.leaves ++ [{ name, type, value }] }

/-- The string in quotes at the front of `v`: what is left between the quotes, and the
bytes it took. -/
def readString (dec : Bool) (v : Bytes) : Option (Bytes × Nat) :=
  match rimTextToUtf v true dec false with
  | .ok t => some ((t.val.drop 1).take (t.last - 1), t.last + 1)
  | .error _ => none

def jsonLiteralOf : JsonToken → Option (Bytes × JsonType)
  | .true => some (ascii "true", .bool)
  | .false => some (ascii "false", .bool)
  | .null => some (ascii "null", .null)
  | _ => none

/-- The number or literal at the front of `v`: its type, and the bytes it takes. -/
def readScalar (v : Bytes) : Option (JsonType × Nat) :=
  match jsonLiteralOf (jsonToken (v.headD 0)) with
  | some (lit, type) => if lit.isPrefixOf v then some (type, lit.length) else none
  | none =>
    match rimJsonNum v with
    | .ok (some (rv, n)) => some (if rv then .real else .number, n)
    | _ => none

/-- What a round does: it goes on, it ends the call (with a number or a literal, or not), or
it calls for a value and then goes on. -/
inductive ReadAct where
  | move (e : Expected) (r : Reader) (rest : Bytes)
  | stop (r : Reader) (rest : Bytes) (scalar : Bool)
  | call (r : Reader) (rest : Bytes) (e : Expected)
  deriving Repr

/-- One round at the text `v`. -/
def readStep (dec noenum : Bool) (e : Expected) (r : Reader) (v : Bytes) : Option ReadAct :=
  match jsonToken (v.headD 0) with
  | .begObject =>
    if e.noValue = none then some (.move { e with name := true, isobj := true } r v.tail) else none
  | .endObject =>
    if e.colon = false ∧ e.commaOrEndArray = false ∧ e.name = false then
      some (.stop { r with listC := r.listC - 1 } v.tail false)
    else none
  | .begArray =>
    if e.noValue = none then do
      let r ← Reader.nextIndex { r with listC := r.listC - 1 }
      some (.call r v.tail { e with isarr := true, commaOrEndArray := true })
    else none
  | .endArray =>
    if e.colon = false ∧ e.commaOrEndObject = false ∧ e.name = false then do
      let l ← r.level
      some (.stop (r.setLevel { l with index := -1 }) v.tail false)
    else none
  | .colon =>
    if e.commaOrEndArray = false ∧ e.commaOrEndObject = false ∧ e.name = false then
      some (.call r v.tail { e with colon := false, commaOrEndObject := true })
    else none
  | .comma =>
    if e.colon = false ∧ e.name = false then
      if e.isobj then
        some (.move { e with commaOrEndArray := false, commaOrEndObject := false, name := true } r v.tail)
      else if e.isarr then do
        let r ← r.nextIndex
        some (.call r v.tail { e with commaOrEndArray := true, commaOrEndObject := false })
      else none
    else none
  | .white => some (.move e r v.tail)
  | .quote =>
    if e.colon = false ∧ e.commaOrEndArray = false ∧ e.commaOrEndObject = false then do
      let (s, n) ← readString dec v
      if e.name then do
        let l ← r.level
        some (.move { colon := true, isarr := e.isarr, isobj := e.isobj } (r.setLevel { l with name := some s })
          (v.drop n))
      else do
        let r ← r.addLeaf noenum .string (cstr s)
        some (.stop r (v.drop n) false)
    else none
  | .unknown => none
  | _ =>
    if e.noValue = none then do
      let (type, n) ← readScalar v
      let r ← r.addLeaf noenum type (v.take n)
      some (.stop r (v.drop n) true)
    else none

/-- A call at depth `d` that expects `e`: from the text `v` to the text that it leaves, and
whether it ended with a number or a literal. -/
inductive Reads (dec noenum : Bool) : Nat → Expected → Reader → Bytes → Reader → Bytes → Bool → Prop where
  | eof {d : Nat} {e : Expected} {r : Reader} :
      Reads dec noenum d e r [0] { r with listC := r.listC - 1 } [0] false
  | move {d : Nat} {e e' : Expected} {r r₁ r' : Reader} {v v₁ v' : Bytes} {b : Bool}
      (hstep : readStep dec noenum e r v = some (.move e' r₁ v₁)) (hrest : Reads dec noenum d e' r₁ v₁ r' v' b) :
      Reads dec noenum d e r v r' v' b
  | stop {d : Nat} {e : Expected} {r r' : Reader} {v v' : Bytes} {b : Bool}
      (hstep : readStep dec noenum e r v = some (.stop r' v' b)) : Reads dec noenum d e r v r' v' b
  | call {d : Nat} {e e' : Expected} {r r₁ r₂ r' : Reader} {v v₁ v₂ v' : Bytes} {b b₂ : Bool}
      (hstep : readStep dec noenum e r v = some (.call r₁ v₁ e')) (hdepth : d + 1 < RIM_JSON_MAX_NESTED)
      (hlevel : r₁.listC + 1 < (RIM_JSON_MAX_NESTED : Int) - 1)
      (hvalue : Reads dec noenum (d + 1) {} { r₁ with listC := r₁.listC + 1 } v₁ r₂ v₂ b₂)
      (hrest : Reads dec noenum d e' r₂ v₂ r' v' b) :
      Reads dec noenum d e r v r' v' b

def Reader.start : Reader where
  list := List.replicate RIM_JSON_MAX_NESTED { name := none, index := -1 }
  listC := 0
  leaves := []

/-- The text that may be left at the end: white space, and nothing after a number or a
literal. -/
def JsonEnds (v : Bytes) (scalar : Bool) : Prop :=
  if scalar then v = [0] else ∃ w, (∀ c ∈ w, isspace c = true) ∧ v = w ++ [0]

def RimJson.leaves (json : RimJson) : List JsonLeaf :=
  json.nodes.map fun n => { name := n.name, type := n.type, value := cstr (json.data.drop n.str) }

end RimStone
