import Mathlib.Data.List.FinRange
import Mathlib.Logic.Function.Basic
import RimStone.Request.Input

/-!
# Parameters from request to request

The parameters of an application stand in one table, which no request clears: `rim_get_input`
only says of each that it is not set. Then it goes over the names and values of the URL, and
what the request handlers do with `set-param` and `get-param` comes after that. The value of a
parameter is a pointer, a number, a double or a boolean in one union; a string from the URL is a
pointer into the input buffer until it is asked for. The next request overwrites that buffer.

How a URL is taken apart is in `Request.Input`. Here it is a list of names and of places in the
input buffer, which may end with an error. A request has the text at each place of the buffer.
-/

namespace RimStone

inductive RimType where
  /-- `RIM_DEFSTRING` -/
  | string
  /-- `RIM_DEFSTRINGSTATIC`, a process-scope string -/
  | stringStatic
  /-- `RIM_DEFNUMBER` -/
  | number
  /-- `RIM_DEFDOUBLE` -/
  | double
  /-- `RIM_DEFBOOL` -/
  | bool
  /-- A tree, a list, a message and so on. -/
  | object (code : Nat)
  deriving DecidableEq, Repr

/-- `cmp_type` with `RIM_DEFSTRING` -/
def RimType.isString : RimType → Bool
  | .string | .stringStatic => true
  | _ => false

/-- `tval.value`: `NULL` is `given 0`. -/
inductive SprmPointer where
  | input (place : Nat)
  /-- What `rim_strdup` made of a text. -/
  | copy (text : Bytes)
  /-- What `set-param` was given. -/
  | given (val : Nat)
  deriving DecidableEq, Repr

/-- `tval`, by the member that was written last -/
inductive SprmValue (δ : Type) where
  | value (p : SprmPointer)
  | numval (x : Int)
  | dblval (d : δ)
  | logic (b : Bool)
  deriving DecidableEq, Repr

/-- An element of `_rim_sprm_par` -/
structure SprmPar (δ : Type) where
  name : Bytes
  type : RimType
  set : Bool := false
  tval : SprmValue δ := .value (.given 0)
  alloc : Bool := false

/-- The parameters of an application, as they are compiled into the table. A process-scope
variable counts by its type without the scope. -/
structure SprmDecl where
  name : Bytes
  type : RimType
  normal : type ≠ .stringStatic

/-- The table, and the text at each place of the input buffer. -/
structure SprmState (n : Nat) (δ : Type) where
  par : Fin n → SprmPar δ
  buffer : Nat → Bytes

/-- `set-param` and `get-param` of a parameter, by its number. -/
inductive ParamOp (n : Nat) (δ : Type) where
  | setNumber (i : Fin n) (x : Int)
  | setDouble (i : Fin n) (d : δ)
  | setBool (i : Fin n) (b : Bool)
  /-- `rim_set_input` -/
  | setInput (i : Fin n) (val : Nat) (type : RimType)
  | getNumber (i : Fin n) (defval : Option Int)
  | getDouble (i : Fin n) (defval : Option δ)
  | getBool (i : Fin n) (defval : Option Bool)
  /-- `rim_get_input_param` -/
  | getInput (i : Fin n) (type : RimType) (defval : Option Nat)

/-- What `get-param` gives. -/
inductive ParamAnswer (δ : Type) where
  | number (x : Int)
  | double (d : δ)
  | bool (b : Bool)
  /-- A pointer that `set-param` was given, or the default of a string. -/
  | pointer (val : Nat)
  | copy (text : Bytes)
  deriving DecidableEq, Repr

structure ParamRequest (n : Nat) (δ : Type) where
  buffer : Nat → Bytes
  pairs : List (Bytes × Nat)
  /-- The URL has an error after these. -/
  fault : Option InputFault
  ops : List (ParamOp n δ)

/-- What a request gives: the answers of `get-param`, and the error that ended it. -/
structure ParamResponse (δ : Type) where
  answers : List (ParamAnswer δ)
  fault : Option InputFault
  deriving DecidableEq

namespace SprmState

variable {n : Nat} {δ : Type}

def update (st : SprmState n δ) (i : Fin n) (p : SprmPar δ) : SprmState n δ :=
  { st with par := Function.update st.par i p }

/-- `rim_paramhash`, which has the number of each name -/
def rimParamhash (st : SprmState n δ) (name : Bytes) : Option (Fin n) :=
  (List.finRange n).find? fun i => (st.par i).name = name

def rimFindPar (st : SprmState n δ) (name : Bytes) : Except InputFault (Fin n) :=
  match st.rimParamhash name with
  | none => .error (.report "Parameter [%s] was set by the request URL, but is never used by the application" [name])
  | some i =>
    if (st.par i).set then .error (.report "Parameter [%s] was set more than once by the request URL" [name])
    else .ok i

section

variable (str2num : Bytes → Int × Bool) (str2dbl : Bytes → δ × Bool)

/-- `rim_check_web_param_type` of the parameter that has the string `sv`: also what is left of it
where there is an error -/
def rimCheckWebParamType (name : Bytes) (p : SprmPar δ) (sv : Bytes) : SprmPar δ × Option InputFault :=
  match p.type with
  | .string => ({ p with alloc := false, set := true }, none)
  | .number =>
    let (x, ok) := str2num sv
    if ok then ({ p with tval := .numval x, set := true }, none)
    else ({ p with tval := .numval x },
      some (.report "Parameter [%s] is a number, but input data [%s] is not a number" [name, sv]))
  | .double =>
    let (d, ok) := str2dbl sv
    if ok then ({ p with tval := .dblval d, set := true }, none)
    else ({ p with tval := .dblval d },
      some (.report "Parameter [%s] is a double, but input data [%s] is not a double" [name, sv]))
  | .bool =>
    if sv = ascii "true" then ({ p with tval := .logic true, set := true }, none)
    else if sv = ascii "false" then ({ p with tval := .logic false, set := true }, none)
    else (p, some (.report "Parameter [%s] is a boolean, but input data [%s] is not a boolean" [name, sv]))
  | .stringStatic | .object _ =>
    (p, some (.report "Parameter [%s] is not of string type, but request URL tries to set its value to a string" [name]))

/-- A name of the URL, and the place of its value. -/
def setPair (st : SprmState n δ) (name : Bytes) (place : Nat) : SprmState n δ × Option InputFault :=
  match st.rimFindPar name with
  | .error e => (st, some e)
  | .ok i =>
    let (p, fault) :=
      rimCheckWebParamType str2num str2dbl name { st.par i with tval := .value (.input place) } (st.buffer place)
    (st.update i p, fault)

def setPairs (st : SprmState n δ) : List (Bytes × Nat) → SprmState n δ × Option InputFault
  | [] => (st, none)
  | (name, place) :: pairs =>
    match st.setPair str2num str2dbl name place with
    | (st, none) => st.setPairs pairs
    | (st, some e) => (st, some e)

/-- `rim_get_input`, from which on no parameter is set -/
def rimGetInput (st : SprmState n δ) (req : ParamRequest n δ) : SprmState n δ × Option InputFault :=
  let cleared : SprmState n δ := { par := fun i => { st.par i with set := false }, buffer := req.buffer }
  match cleared.setPairs str2num str2dbl req.pairs with
  | (st, none) => (st, req.fault)
  | (st, some e) => (st, some e)

end

/-- A number, a double or a boolean that is set, or the default. -/
def getPlain {α : Type} (p : SprmPar δ) (member : SprmValue δ → Option α) (defval : Option α) : Except InputFault α :=
  if p.set then inContent (member p.tval)
  else match defval with
    | some x => .ok x
    | none => .error (.report "Trying to obtain value of parameter [%s] that was not set" [p.name])

/-- `tval.numval` -/
def numval : SprmValue δ → Option Int
  | .numval x => some x
  | _ => none

/-- `tval.dblval` -/
def dblval : SprmValue δ → Option δ
  | .dblval d => some d
  | _ => none

/-- `tval.logic` -/
def logic : SprmValue δ → Option Bool
  | .logic b => some b
  | _ => none

/-- `tval.value` -/
def value : SprmValue δ → Option SprmPointer
  | .value p => some p
  | _ => none

/-- The text that a pointer to a string leads to, for `rim_strdup`. A pointer that is given is not
to memory of the input. -/
def inputText (buffer : Nat → Bytes) : SprmPointer → Option Bytes
  | .input place => some (buffer place)
  | _ => none

/-- A pointer that `get-param` gives. -/
def SprmPointer.answer : SprmPointer → Option (ParamAnswer δ)
  | .given val => some (.pointer val)
  | .copy text => some (.copy text)
  | .input _ => none

/-- A parameter that is not set, in `rim_get_input_param` -/
def getUnset (p : SprmPar δ) (type : RimType) (defval : Option Nat) : Except InputFault (ParamAnswer δ) :=
  if type ≠ .string then .error (.report "Trying to get the value of parameter [%s], but it was not set" [p.name])
  else match defval with
    | some val => .ok (.pointer val)
    | none => .error (.report "Trying to get the value of parameter [%s], but it was not set" [p.name])

/-- A string that is set, in `rim_get_input_param` -/
def getString (st : SprmState n δ) (i : Fin n) (v : SprmPointer) : Except InputFault (SprmState n δ × ParamAnswer δ) :=
  if !(st.par i).alloc then do
    let text ← inContent (inputText st.buffer v)
    .ok (st.update i { st.par i with tval := .value (.copy text), alloc := true }, .copy text)
  else do
    let answer ← inContent (SprmPointer.answer v)
    .ok (st, answer)

/-- An object that is set, in `rim_get_input_param` -/
def getObject (st : SprmState n δ) (i : Fin n) (v : SprmPointer) : Except InputFault (SprmState n δ × ParamAnswer δ) :=
  if v = .given 0 then .error (.report "Parameter [%s] is not set" [(st.par i).name])
  else do
    let answer ← inContent (SprmPointer.answer v)
    .ok (st, answer)

def rimGetInputParam (st : SprmState n δ) (i : Fin n) (type : RimType) (defval : Option Nat) :
    Except InputFault (SprmState n δ × ParamAnswer δ) :=
  if !(st.par i).set then do
    let answer ← getUnset (st.par i) type defval
    .ok (st, answer)
  else do
    let v ← inContent (value (st.par i).tval)
    if type = .string then st.getString i v else st.getObject i v

/-- A `set-param` or `get-param`. -/
def exec (st : SprmState n δ) : ParamOp n δ → Except InputFault (SprmState n δ × Option (ParamAnswer δ))
  | .setNumber i x => .ok (st.update i { st.par i with tval := .numval x, set := true }, none)
  | .setDouble i d => .ok (st.update i { st.par i with tval := .dblval d, set := true }, none)
  | .setBool i b => .ok (st.update i { st.par i with tval := .logic b, set := true }, none)
  | .setInput i val type => .ok (st.update i { st.par i with tval := .value (.given val), type, alloc := true, set := true }, none)
  | .getNumber i defval => do
    let x ← getPlain (st.par i) numval defval
    .ok (st, some (.number x))
  | .getDouble i defval => do
    let d ← getPlain (st.par i) dblval defval
    .ok (st, some (.double d))
  | .getBool i defval => do
    let b ← getPlain (st.par i) logic defval
    .ok (st, some (.bool b))
  | .getInput i type defval => do
    let (st, answer) ← st.rimGetInputParam i type defval
    .ok (st, some answer)

/-- The operations of a request, up to one that ends it. -/
def execAll (st : SprmState n δ) : List (ParamOp n δ) → SprmState n δ × ParamResponse δ
  | [] => (st, ⟨[], none⟩)
  | op :: ops =>
    match st.exec op with
    | .error e => (st, ⟨[], some e⟩)
    | .ok (st, answer) =>
      let (st, resp) := st.execAll ops
      (st, { resp with answers := answer.toList ++ resp.answers })

def request (str2num : Bytes → Int × Bool) (str2dbl : Bytes → δ × Bool) (st : SprmState n δ) (req : ParamRequest n δ) :
    SprmState n δ × ParamResponse δ :=
  match st.rimGetInput str2num str2dbl req with
  | (st, some e) => (st, ⟨[], some e⟩)
  | (st, none) => st.execAll req.ops

end SprmState

end RimStone
