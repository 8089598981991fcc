import RimStone.Request.Input
import RimStone.Text.ReplaceString

/-!
# The path of a request

When the parameters of the query string are set, `rim_get_input` puts the path of the URL together in a static buffer,
`full_path`. Behind the application path, which the program is compiled with, comes the request, and behind that come
segments with a name and a value. `rim_decorate_path` makes a name of the request, in another static buffer.

The environment's strings have a null behind them. An index into a buffer that is not in it is undefined, and so is a
result there; to give a status of the response is left out, and to decode a value, as a command-line program does.
-/

namespace RimStone

def RIM_MAX_PATH : Nat := 2512

/-- `while (len > 0 && b[len - 1] == '/') { b[len - 1] = 0; len--; }` -/
def cutSlashes (b : Bytes) : Nat → Option (Bytes × Nat)
  | 0 => some (b, 0)
  | len + 1 => do
    let c ← b[len]?
    if c = 47 then do
      let b ← poke b len 0
      cutSlashes b len
    else some (b, len + 1)

/-- `!strncasecmp (s, t, n)` -/
def sameStart : Nat → Bytes → Bytes → Option Bool
  | 0, _, _ => some true
  | n + 1, a :: s, c :: t => if tolower a ≠ tolower c then some false else if a = 0 then some true else sameStart n s t
  | _ + 1, _, _ => none

/-- `strchrnul (b + i, c)` -/
def strchrnul (b : Bytes) (i : Nat) (c : UInt8) : Option Nat := do
  match ← strchr b i c with
  | some j => some j
  | none => do
    let n ← strlen b i
    some (i + n)

/-! ## The name of a request -/

/-- `while (ereq != use_p && *ereq != '/') ereq--;` -/
def backToSlash (b : Bytes) (useP : Nat) : Nat → Option Nat
  | 0 => if useP = 0 then some 0 else none
  | ereq + 1 =>
    if ereq + 1 = useP then some useP
    else do
      let c ← b[ereq + 1]?
      if c = 47 then some (ereq + 1) else backToSlash b useP ereq

/-- The loop of `rim_decorate_path`, which writes at least one byte in each round. -/
def decorateLoop (b : Bytes) (ereq reqnameLen : Int) : Nat → Nat → Bytes → Nat → Option (Bytes × Nat)
  | 0, _, _, _ => none
  | fuel + 1, pbeg, pres, i =>
    if (pbeg : Int) ≠ ereq ∧ (i : Int) ≤ reqnameLen - 3 then do
      let c ← b[pbeg]?
      if c = 47 then do
        let pres ← poke pres i 95
        let pres ← poke pres (i + 1) 95
        decorateLoop b ereq reqnameLen fuel (pbeg + 1) pres (i + 2)
      else do
        let pres ← poke pres i (if c = 45 then 95 else c)
        decorateLoop b ereq reqnameLen fuel (pbeg + 1) pres (i + 1)
    else some (pres, i)

/-- The name of the request in front of `ereq`. -/
def decorateTo (reqname : Bytes) (reqnameLen : Int) (b : Bytes) (useP : Nat) (ereq : Int) : Option Bytes := do
  let (pres, i) ← decorateLoop b ereq reqnameLen (reqnameLen.toNat + 1) useP reqname 0
  poke pres i 0

/-- `rim_decorate_path`: the name of the request, with where the parameters are, or nothing if there is no request. -/
def rimDecoratePath (reqname : Bytes) (reqnameLen : Int) (b : Bytes) (p : Nat) (pLen : Int) :
    Option (Option (Bytes × Option Nat)) := do
  let c ← b[p]?
  let useP := if c ≠ 47 then p else p + 1
  let pLen := if c ≠ 47 then pLen else pLen - 1
  match ← strchr b useP 61 with
  | none => do
    let pres ← decorateTo reqname reqnameLen b useP (useP + pLen)
    some (some (pres, none))
  | some eq => do
    let ereq ← backToSlash b useP eq
    if ereq = useP then some none
    else do
      let pres ← decorateTo reqname reqnameLen b useP ereq
      some (some (pres, some ereq))

/-! ## The parameters -/

/-- The loop over the rest of a segment, up to its first `=`: where the value is. -/
def parNameLoop : Nat → Bytes → Nat → Option (Bytes × Option Nat)
  | 0, b, _ => some (b, none)
  | n + 1, b, i => do
    let c ← b[i]?
    let b ← if c = 45 then poke b i 95 else some b
    if c = 61 then do
      let b ← poke b i 0
      some (b, some (i + 1))
    else parNameLoop n b (i + 1)

/-- The slash behind a segment, if there is one, becomes a null. -/
def endSegment (b : Bytes) (nextPar : Nat) (c : UInt8) : Option Bytes := if c ≠ 0 then poke b nextPar 0 else some b

section Params

variable {δ : Type} (str2num : Bytes → Option Int) (str2dbl : Bytes → Option δ)

/-- The parameter `name` is set to the value that is trimmed where it is. -/
def setValue (pars : List (RimIpar δ)) (b name : Bytes) (value valLen : Nat) :
  Except InputFault (Bytes × List (RimIpar δ)) := do
  let par ← rimFindPar pars name
  let (b, v, _) ← inContent (rimTrimPtr b value valLen)
  let sv ← inContent (textAt b v)
  let q ← inContent pars[par]?
  let q ← rimCheckWebParamType str2num str2dbl name { q with tval := .value sv } sv
  .ok (b, pars.set par q)

/-- The loop over the segments, of which the next one is behind `p`. -/
def segmentLoop : Nat → Bytes → Nat → List (RimIpar δ) → Except InputFault (List (RimIpar δ))
  | 0, _, _, _ => .error .undefined
  | fuel + 1, b, p, pars => do
    let ipar := p + 1
    let nextPar ← inContent (strchrnul b ipar 47)
    let iparLen := nextPar - ipar
    if iparLen = 0 then .ok pars
    else do
      let c ← inContent b[nextPar]?
      let b ← inContent (endSegment b nextPar c)
      let (b, value) ← inContent (parNameLoop iparLen b ipar)
      let name ← inContent (textAt b ipar)
      match value with
      | none => do
        let fullPath ← inContent (textAt b 0)
        .error (.report "Value missing (with =) for name [%s] in URL path [%s]" [name, fullPath])
      | some value => do
        let (b, pars) ← setValue str2num str2dbl pars b name value (nextPar - value)
        if c ≠ 0 then segmentLoop fuel b nextPar pars else .ok pars

/-- There is no request at `p`. -/
def missingRequest (b : Bytes) (p : Nat) : Option Bool := do
  let c ← b[p]?
  if c ≠ 47 then some true
  else do
    let d ← b[p + 1]?
    some (d == 0 || d == 63)

/-- The request at `p`, with the segments that are behind it. -/
def requestAt (reqname b : Bytes) (p : Nat) (pLen : Int) (path : Bytes) (pars : List (RimIpar δ)) :
    Except InputFault (Bytes × List (RimIpar δ)) := do
  match ← inContent (rimDecoratePath reqname RIM_MAX_REQ_NAME_LEN b p pLen) with
  | none => .error (.report "URL path [%s] is incorrect (request name is missing)" [path])
  | some (reqname, p) => do
    let name ← inContent (textAt reqname 0)
    match p with
    | none => .ok (name, pars)
    | some p => do
      let pars ← segmentLoop str2num str2dbl (b.length + 1) b p pars
      .ok (name, pars)

/-- From the path in its buffer, the name of the request, and the parameters. -/
def pathRequest (app reqname b : Bytes) (fullPathLen : Nat) (pars : List (RimIpar δ)) :
    Except InputFault (Bytes × List (RimIpar δ)) := do
  let path ← inContent (textAt b 0)
  let same ← inContent (sameStart app.length (app ++ [0]) b)
  if !same then .error (.report "URL path [%s] must begin with application path [%s]" [path, app])
  else do
    let missing ← inContent (missingRequest b app.length)
    if missing then .error (.report "URL path [%s] is missing a request path" [path])
    else requestAt str2num str2dbl reqname b app.length (fullPathLen - app.length) path pars

/-- What `rim_get_input` does with the path: it is put together, with the length that `snprintf` answers. -/
def inputPath (app fullPath reqname scriptName pathInfo : Bytes) (pars : List (RimIpar δ)) :
    Except InputFault (Bytes × List (RimIpar δ)) := do
  let snLen := Int.bmod scriptName.length (2 ^ 32)
  let (script, _) ← inContent (cutSlashes (scriptName ++ [0]) snLen.toNat)
  let script ← inContent (textAt script 0)
  let text := script ++ pathInfo
  let b ← inContent (memcpy fullPath 0 (text.take (RIM_MAX_PATH / 2 - 1) ++ [0]))
  let (b, fullPathLen) ← inContent (cutSlashes b text.length)
  pathRequest str2num str2dbl app reqname b fullPathLen pars

end Params

end RimStone
