import Mathlib.Data.List.AList
import Mathlib.Data.List.DropRight
import RimStone.Lib.Lines
import RimStone.Source.Output
import RimStone.Source.Types

/-!
# Variables and blocks

`v1.c` knows in which block it is from the braces of the code that it writes: `oprintf` gives each line to `check_level`
when the line is complete. The variables of all blocks are in one hash, under a name that begins with the level of their
block and with how many blocks of that level were closed before it, so that a variable is not found any more when its
block is closed. Nothing is taken from the hash.

The hash is a map here. What the checks only warn of is left out, and so is the room in the buffer of the code.
-/

namespace RimStone

def RIM_MAX_DECNAME : Nat := 200

/-- `RIM_MAX_CODE_LEVEL`; `rim_resurr` has one element more. -/
def RIM_MAX_CODE_LEVEL : Nat := 30

structure RimVar where
  name : Bytes
  rname : Bytes
  type : DefType
  lnum : Nat
  used : Bool
  deriving DecidableEq, Repr

/-- What `find_var` tells of a variable. -/
structure VarFound where
  type : DefType
  line : Nat
  rname : Option Bytes
  deriving DecidableEq, Repr

inductive ScopeError where
  | search (e : SourceError)
  /-- behind the end of `rim_resurr` -/
  | outside
  /-- Variable [] of type [] is already defined on line [], cannot create a variable with the same name but of type [] -/
  | defined (rname : Option Bytes) (ot : DefType) (ol : Nat) (type : DefType)
  /-- Process-scope string variable [] can only be assigned with set-string, and can only be created with process-scope
  clause if it doesn't already exist -/
  | processScope (rname : Option Bytes)
  /-- Cannot use name [] for a variable because it is reserved -/
  | reserved (var : Bytes)
  deriving DecidableEq, Repr

/-- The code so far and where its last line begins (`oline_prev_line_beg`), with `rim_level`, `rim_resurr` and
`rim_varh`. -/
structure ScopeState where
  out : Oline := {}
  lineBeg : Nat := 0
  level : Nat := 0
  resurr : Nat → Nat := fun _ => 0
  varh : AList fun _ : Bytes => RimVar := ∅

namespace ScopeState

/-! ## Names -/

/-- `math_fun_n`, `math_fun`, `str_fun` and `c_name` -/
def reservedNames : List Bytes :=
  ["abn", "num", "isinf", "isnan",
   "dbl", "sin", "cos", "tan", "asin", "acos", "atan", "sinh", "cosh", "tanh", "asinh", "acosh", "atanh", "exp", "exp2",
   "log", "log10", "log2", "sqrt", "cbrt", "abd", "ceil", "floor", "round", "trunc", "erf", "erfc", "lgamma",
   "atan2", "pow", "hypot", "fmod", "copysign", "ldexp", "nextafter",
   "strlen",
   "auto", "break", "case", "char", "const", "continue", "default", "do", "double", "else", "enum", "extern", "float",
   "for", "goto", "if", "int", "long", "register", "return", "short", "signed", "sizeof", "static", "struct", "switch",
   "typedef", "union", "unsigned", "void", "volatile", "while"].map ascii

/-- `rim_resurr[lev]` -/
def resurrAt (s : ScopeState) (lev : Nat) : Except ScopeError Nat :=
  if lev ≤ RIM_MAX_CODE_LEVEL then .ok (s.resurr lev) else .error .outside

/-- A name with its level and its resurrection. -/
def decorated (lev resurr : Nat) (name : Bytes) : Bytes :=
  ascii (Nat.repr lev) ++ 95 :: (ascii (Nat.repr resurr) ++ 43 :: name)

/-- `snprintf` of a decorated name into `size` bytes -/
def decname (size lev resurr : Nat) (name : Bytes) : Bytes := (decorated lev resurr name).take (size - 1)

/-- `rname` of a variable that is found -/
def realName (v : RimVar) : Option Bytes :=
  if v.rname ≠ [] then some v.rname else if 43 ∈ v.name then some ((v.name.dropWhile (· != 43)).drop 1) else none

/-- The loop of `find_var` over the levels below `lev`. -/
def findVarLoop (s : ScopeState) (name : Bytes) : Nat → Except ScopeError (ScopeState × Option VarFound)
  | 0 => .ok (s, none)
  | lev + 1 => do
    let resurr ← s.resurrAt lev
    let key := decname (RIM_MAX_DECNAME + 1) lev resurr name
    match s.varh.lookup key with
    | some v => .ok ({ s with varh := s.varh.insert key { v with used := true } }, some ⟨v.type, v.lnum, realName v⟩)
    | none => findVarLoop s name lev

def findVar (s : ScopeState) (name : Bytes) : Except ScopeError (ScopeState × Option VarFound) :=
  s.findVarLoop ((name.dropWhile isspace).rdropWhile isspace) (s.level + 1)

/-- `add_var`, on line `lnum` of the source: whether the variable was there. An empty `realname` is `NULL`. -/
def addVar (s : ScopeState) (lnum : Nat) (var : Bytes) (type : DefType) (realname : Bytes) (watched : Bool) :
    Except ScopeError (ScopeState × Bool) := do
  let (s, found) ← s.findVar var
  match found with
  | some v =>
    if !cmpType type v.type then .error (.defined v.rname v.type v.line type)
    else if (type == .string && v.type == .stringstatic) || (type == .stringstatic && v.type == .string) then
      .error (.processScope v.rname)
    else .ok (s, true)
  | none =>
    if var ∈ reservedNames then .error (.reserved var)
    else do
      let resurr ← s.resurrAt s.level
      let name := decname RIM_MAX_DECNAME s.level resurr var
      let v : RimVar := { name, rname := realname, type, lnum, used := !watched }
      .ok ({ s with varh := s.varh.insert name v }, false)

/-! ## Blocks -/

def up (s : ScopeState) : ScopeState := { s with level := s.level + 1 }

/-- A right brace is passed; below level 0 there is none. -/
def down (s : ScopeState) : Except ScopeError ScopeState := do
  let resurr ← s.resurrAt s.level
  .ok { s with resurr := Function.update s.resurr s.level (resurr + 1), level := s.level - 1 }

/-- Which brace is first, and whether it is a left one. -/
def firstOf : Option Nat → Option Nat → Option (Nat × Bool)
  | some cbl, some cbr => if cbl < cbr then some (cbl, true) else some (cbr, false)
  | some cbl, none => some (cbl, true)
  | none, some cbr => some (cbr, false)
  | none, none => none

/-- The loop of `check_level` -/
def checkLoop : Nat → Bytes → ScopeState → Except ScopeError ScopeState
  | 0, _, _ => .error (.search .fuel)
  | fuel + 1, prline, s => do
    let cbl ← (rimFindKeyword0 prline [123] false false).mapError .search
    let cbr ← (rimFindKeyword0 prline [125] false false).mapError .search
    match firstOf cbl cbr with
    | none => .ok s
    | some (cb, left) => do
      let s ← if left then .ok s.up else s.down
      let prline := prline.drop (cb + 1)
      if prline = [] then .ok s else checkLoop fuel prline s

def checkLevel (prline : Bytes) (s : ScopeState) : Except ScopeError ScopeState := do
  let comm ← (rimFindKeyword0 prline [47, 47] false false).mapError .search
  let prline := prline.take (comm.getD prline.length)
  checkLoop (prline.length + 1) prline s

/-- `oprintf`, of the text that its format makes. -/
def oprintf (g : GenFile) (lnum : Nat) (s : ScopeState) (text : Bytes) : Except ScopeError ScopeState :=
  let out := g.oprintf lnum s.out text
  if text.contains 10 then do
    let s ← checkLevel (out.oline.drop s.lineBeg) { s with out }
    .ok { s with lineBeg := out.oline.length }
  else .ok { s with out }

/-- The directive in front of a line of the source. -/
def beginLine (g : GenFile) (lnum : Nat) (s : ScopeState) : Except ScopeError ScopeState :=
  let out := g.beginLine lnum s.out
  if g.emitLine lnum && s.out.canWrite lnum then do
    let s ← checkLevel (out.oline.drop s.lineBeg) { s with out }
    .ok { s with lineBeg := out.oline.length }
  else .ok s

end ScopeState

inductive ScopeOp where
  | source (lnum : Nat)
  /-- Lines of code are written: the first one in pieces, and its end, `row`, with the lines behind it. -/
  | code (lnum : Nat) (pieces : List Bytes) (row : Bytes) (rows : List Bytes)
  /-- `check_level` of a text that is not written, as `do-once` calls it -/
  | level (text : Bytes)
  /-- `add_var` -/
  | add (lnum : Nat) (var : Bytes) (type : DefType) (realname : Bytes) (watched : Bool)
  /-- `find_var` -/
  | find (name : Bytes)
  deriving DecidableEq, Repr

/-- What is done, as far as there is no error. -/
def ScopeState.exec (g : GenFile) (s : ScopeState) : ScopeOp → Except ScopeError ScopeState
  | .source lnum => s.beginLine g lnum
  | .code lnum pieces row rows => do
    let s ← pieces.foldlM (ScopeState.oprintf g lnum) s
    ScopeState.oprintf g lnum s (Lib.unlines 10 (row :: rows))
  | .level text => ScopeState.checkLevel text s
  | .add lnum var type realname watched => (s.addVar lnum var type realname watched).map (·.1)
  | .find name => (s.findVar name).map (·.1)

end RimStone
