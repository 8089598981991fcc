import RimStone.Text.Edit

/-!
# Input of a request

The end of `rim_get_input` decodes a query string where it is, into names and values that
end with nulls, and then sets one input parameter after the other. An input parameter is
one that the application uses; its value comes from a string, by its type.

The conversions of a string to a number, `rim_str2num`, and to a double, `rim_str2dbl`,
are parameters of the model.
-/

namespace RimStone

def RIM_MAX_REQ_NAME_LEN : Nat := 512

/-- `type` of an input parameter -/
inductive ParamType where
  /-- `RIM_DEFSTRING` -/
  | string
  /-- `RIM_DEFNUMBER` -/
  | number
  /-- `RIM_DEFDOUBLE` -/
  | double
  /-- `RIM_DEFBOOL` -/
  | bool
  | other
  deriving DecidableEq, Repr

/-- `tval` of an input parameter -/
inductive ParamValue (δ : Type) where
  | none
  | value (v : Bytes)
  | numval (n : Int)
  | dblval (d : δ)
  | logic (b : Bool)
  deriving DecidableEq, Repr

structure RimIpar (δ : Type) where
  name : Bytes
  type : ParamType := .string
  set : Bool := false
  tval : ParamValue δ := .none
  alloc : Bool := true
  deriving DecidableEq, Repr

/-- How the handling of a request ends early. -/
inductive InputFault where
  /-- `rim_report_error`, with the format and what is put into it -/
  | report (format : String) (args : List Bytes)
  | undefined
  deriving DecidableEq, Repr

/-- A read or write that may be outside of a block. -/
def inContent {α : Type} : Option α → Except InputFault α
  | some a => .ok a
  | none => .error .undefined

section Params

variable {δ : Type} (str2num : Bytes → Option Int) (str2dbl : Bytes → Option δ)

def rimFindPar (pars : List (RimIpar δ)) (n : Bytes) : Except InputFault Nat :=
  match pars.findIdx? fun p => p.name = n with
  | none => .error (.report "Parameter [%s] was set by the request URL, but is never used by the application" [n])
  | some i =>
    match pars[i]? with
    | none => .error .undefined
    | some p =>
      if p.set then .error (.report "Parameter [%s] was set more than once by the request URL" [n]) else .ok i

/-- `rim_check_web_param_type` of a parameter that has the string `sv`. -/
def rimCheckWebParamType (n : Bytes) (p : RimIpar δ) (sv : Bytes) : Except InputFault (RimIpar δ) :=
  match p.type with
  | .string => .ok { p with alloc := false, set := true }
  | .number =>
    match str2num sv with
    | some v => .ok { p with tval := .numval v, set := true }
    | none => .error (.report "Parameter [%s] is a number, but input data [%s] is not a number" [n, sv])
  | .double =>
    match str2dbl sv with
    | some v => .ok { p with tval := .dblval v, set := true }
    | none => .error (.report "Parameter [%s] is a double, but input data [%s] is not a double" [n, sv])
  | .bool =>
    if sv = ascii "true" then .ok { p with tval := .logic true, set := true }
    else if sv = ascii "false" then .ok { p with tval := .logic false, set := true }
    else .error (.report "Parameter [%s] is a boolean, but input data [%s] is not a boolean" [n, sv])
  | .other =>
    .error (.report "Parameter [%s] is not of string type, but request URL tries to set its value to a string" [n])

/-- The parameter `n` is set to `v`. -/
def setPar (pars : List (RimIpar δ)) (n v : Bytes) : Except InputFault (List (RimIpar δ)) := do
  let i ← rimFindPar pars n
  let p ← inContent pars[i]?
  let p ← rimCheckWebParamType str2num str2dbl n { p with tval := .value v } v
  .ok (pars.set i p)

end Params

def rimCharFromHex (c : UInt8) : Int :=
  let x := charVal c
  if x > 57 then if x ≥ 97 then x - 97 + 10 else x - 65 + 10 else x - 48

/-- The decoding loop of `rim_get_input`, from `i` on: the block, how much was written,
and how many parameters there are. -/
def decodeLoop : Nat → Bytes → Nat → Nat → Bool → Bool → Nat → Except InputFault (Bytes × Nat × Nat)
  | 0, _, _, _, _, _, _ => .error .undefined
  | fuel + 1, content, i, j, hadEqual, isname, num => do
    let c ← inContent content[i]?
    if c = 0 then .ok (content, j, num)
    else do
      let c := if c = 43 then 32 else c
      let content ← inContent (poke content i c)
      if isname ∧ c = 45 then do
        let content ← inContent (poke content j 95)
        decodeLoop fuel content (i + 1) (j + 1) hadEqual isname num
      else if c = 37 then do
        let x ← inContent content[i + 1]?
        let y ← inContent content[i + 2]?
        let content ← inContent (poke content j (UInt8.ofInt (rimCharFromHex x * 16 + rimCharFromHex y)))
        decodeLoop fuel content (i + 3) (j + 1) hadEqual isname num
      else if c = 38 then
        if hadEqual then do
          let content ← inContent (poke content j 0)
          decodeLoop fuel content (i + 1) (j + 1) false true num
        else
          .error (.report "Malformed URL request, encountered ampersand without prior name=value" [])
      else if c = 61 then do
        let content ← inContent (poke content j 0)
        decodeLoop fuel content (i + 1) (j + 1) true false (num + 1)
      else do
        let content ← inContent (poke content j c)
        decodeLoop fuel content (i + 1) (j + 1) hadEqual isname num

/-- The query string is decoded, and two nulls end it. -/
def decodeContent (content : Bytes) : Except InputFault (Bytes × Nat) := do
  let (content, j, num) ← decodeLoop (content.length + 1) content 0 0 false true 0
  let content ← inContent (poke content j 0)
  let content ← inContent (poke content (j + 1) 0)
  .ok (content, num)

section Params

variable {δ : Type} (str2num : Bytes → Option Int) (str2dbl : Bytes → Option δ)

/-- The loop over names and values, from `j` on. -/
def paramLoop : Nat → Bytes → Nat → List (RimIpar δ) → Except InputFault (List (RimIpar δ))
  | 0, _, _, pars => .ok pars
  | num + 1, content, j, pars => do
    let nameLength ← inContent (strlen content j)
    let n := (content.drop j).take nameLength
    let par ← rimFindPar pars n
    let j := j + nameLength + 1
    let valueLen ← inContent (strlen content j)
    let v := j
    let j := j + valueLen + 1
    let (content, v, _) ← inContent (rimTrimPtr content v valueLen)
    let svLen ← inContent (strlen content v)
    let sv := (content.drop v).take svLen
    let p ← inContent pars[par]?
    let p ← rimCheckWebParamType str2num str2dbl n { p with tval := .value sv } sv
    paramLoop num content j (pars.set par p)

/-- What `rim_get_input` does with a query string. -/
def inputParams (content : Bytes) (pars : List (RimIpar δ)) : Except InputFault (List (RimIpar δ)) := do
  let (content, num) ← decodeContent content
  paramLoop str2num str2dbl num content 0 pars

end Params

end RimStone
