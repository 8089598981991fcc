import RimStone.Text.Utf

/-!
# The JSON parser

`rim_json_new` reads a copy of a text where it is, and makes a list of nodes, one for each
string, number or literal. A call reads one value; it calls itself for what follows a
colon, a comma in an array or an opening bracket, and goes on with the byte at which that
call stopped. What the calls share are the file-level variables, `JsonState`. What one
call expects next are its flags, `Expected`.

The variables are set by the root call, but for `nulled`, the byte that was replaced with
a null to end a number or a literal. It goes from one document to the next. (So does the
`name_len` of a level, but a `name` is `NULL` until its length is set again.)

Where the program reads or writes outside of the text or of the list of levels, it is
undefined, and so it is where it copies a name that is `NULL`.
-/

namespace RimStone

def RIM_JSON_MAX_NESTED : Nat := 32

/-- The type of a node, `RIM_JSON_TYPE_..` -/
inductive JsonType where
  | string
  | number
  | real
  | bool
  | null
  deriving DecidableEq, Repr

inductive RimJsonErr where
  | RIM_ERR_JSON_UNKNOWN
  | RIM_ERR_JSON_NUMBER
  | RIM_ERR_JSON_COLON_EXPECTED
  | RIM_ERR_JSON_NAME_EXPECTED
  | RIM_ERR_JSON_COMMA_END_OBJECT_EXPECTED
  | RIM_ERR_JSON_COMMA_END_ARRAY_EXPECTED
  | RIM_ERR_JSON_UNRECOGNIZED
  | RIM_ERR_JSON_SYNTAX
  | RIM_ERR_JSON_DEPTH
  /-- a message of `rim_text_to_utf` -/
  | utf (e : RimUtfErr)
  deriving DecidableEq, Repr

inductive JsonFault where
  | undefined
  /-- `rim_report_error`: the length given and the length allocated -/
  | report (len vlen : Nat)
  deriving DecidableEq, Repr

/-- A read or a write, which is undefined outside of its block. -/
def inText {α : Type} : Option α → Except JsonFault α
  | some a => .ok a
  | none => .error .undefined

/-- `rim_jsonn`: a node has its normalized name and type. Its value is the string that
begins at `str` in the text. -/
structure RimJsonn where
  name : Bytes
  type : JsonType
  str : Nat
  deriving DecidableEq, Repr

/-- `json_node`: the name of a level, where it is in the text, and the index of the array
at this level. -/
structure JsonNode where
  name : Option Nat
  nameLen : Int
  index : Int
  deriving DecidableEq, Repr

structure JsonState where
  val : Bytes
  i : Nat
  list : List JsonNode
  listC : Int
  nodes : List RimJsonn
  nulled : UInt8
  errm : Option RimJsonErr
  ec : Int
  lineEc : Nat
  lastLineEc : Nat
  depth : Nat
  deriving DecidableEq, Repr

structure Expected where
  commaOrEndArray : Bool := false
  commaOrEndObject : Bool := false
  colon : Bool := false
  name : Bool := false
  isarr : Bool := false
  isobj : Bool := false
  deriving DecidableEq, Repr

namespace JsonState

variable (st : JsonState)

/-- `ec = *i; errm = ..` -/
def fail (e : RimJsonErr) : JsonState := { st with ec := st.i, errm := some e }

/-- `list[list_c]` -/
def level : Except JsonFault JsonNode := if 0 ≤ st.listC then inText st.list[st.listC.toNat]? else .error .undefined

/-- `list[list_c] = ..` -/
def setLevel (l : JsonNode) : JsonState := { st with list := st.list.set st.listC.toNat l }

/-- `list[list_c].index++` -/
def nextIndex : Except JsonFault JsonState := do
  let l ← st.level
  .ok (st.setLevel { l with index := l.index + 1 })

end JsonState

def jsonIndex (a : Int) : Bytes := (Nat.toDigits 10 a.toNat).map fun c => UInt8.ofNat c.toNat

/-- What `rim_json_fullname` writes for one level. -/
def jsonLevelName (val : Bytes) (noenum : Bool) (l : JsonNode) : Except JsonFault Bytes := do
  let name ← inText l.name
  if 0 ≤ l.nameLen ∧ name + l.nameLen.toNat ≤ val.length then
    let quoted := 34 :: ((val.drop name).take l.nameLen.toNat ++ [34])
    if noenum = false ∧ l.index ≠ -1 then .ok (quoted ++ 91 :: (jsonIndex l.index ++ [93]))
    else .ok quoted
  else .error .undefined

def rimJsonFullname (st : JsonState) (noenum : Bool) : Except JsonFault Bytes := do
  if st.listC = 0 then .ok [34, 34]
  else do
    let names ← (st.list.take st.listC.toNat).mapM (jsonLevelName st.val noenum)
    .ok ([46].intercalate names)

def rimAddJson (noenum : Bool) (type : JsonType) (str : Nat) (st : JsonState) :
    Except JsonFault JsonState := do
  let name ← rimJsonFullname st noenum
  .ok { st with nodes := st.nodes ++ [{ name, type, str }] }

/-! ## Numbers -/

/-- `while (isdigit(val[i])) i++` -/
def skipDigits (v : Bytes) (i : Nat) : Nat := i + ((v.drop i).takeWhile isdigit).length

/-- The exponent in `rim_json_num`, and its end. `isdbl` tells of a fraction before it. -/
def rimJsonExp (v : Bytes) (i : Nat) (isdbl : Bool) : Except JsonFault (Option (Bool × Nat)) := do
  let c ← inText v[i]?
  if c = 101 ∨ c = 69 then do
    let s ← inText v[i + 1]?
    let exp := if s = 43 ∨ s = 45 then i + 2 else i + 1
    let d ← inText v[exp]?
    .ok (if isdigit d then some (true, skipDigits v exp) else none)
  else .ok (some (isdbl, i))

/-- The fraction in `rim_json_num`, from the first byte after the integer. -/
def rimJsonFrac (v : Bytes) (edig : Nat) : Except JsonFault (Option (Bool × Nat)) := do
  let c ← inText v[edig]?
  if c = 46 then do
    let d ← inText v[edig + 1]?
    if isdigit d then rimJsonExp v (skipDigits v (edig + 1)) true else .ok none
  else rimJsonExp v edig false

/-- `rim_json_num`: whether the number at the front of `v` is real (`rv`, which is never
2), and where it ends. -/
def rimJsonNum (v : Bytes) : Except JsonFault (Option (Bool × Nat)) := do
  let c ← inText v[0]?
  let dig := if c = 45 then 1 else 0
  let edig := skipDigits v dig
  let d ← inText v[dig]?
  if !isdigit d then .ok none
  else if d = 48 ∧ edig ≠ dig + 1 then .ok none
  else rimJsonFrac v edig

/-! ## Values -/

/-- What the `switch` tells apart. -/
inductive JsonToken where
  | begObject
  | endObject
  | begArray
  | endArray
  | colon
  | comma
  | white
  | quote
  | number
  | true
  | false
  | null
  | unknown
  deriving DecidableEq, Repr

/-- The `switch` on a byte. -/
def jsonToken (c : UInt8) : JsonToken :=
  if c = 123 then .begObject
  else if c = 125 then .endObject
  else if c = 91 then .begArray
  else if c = 93 then .endArray
  else if c = 58 then .colon
  else if c = 44 then .comma
  else if c = 32 ∨ c = 9 ∨ c = 10 ∨ c = 13 then .white
  else if c = 34 then .quote
  else if c = 45 ∨ isdigit c then .number
  else if c = 116 then .true
  else if c = 102 then .false
  else if c = 110 then .null
  else .unknown

def flagErr (flags : List (Bool × RimJsonErr)) : Option RimJsonErr := (flags.find? (·.1)).map (·.2)

/-- What is expected before a value can begin. -/
def Expected.noValue (e : Expected) : Option RimJsonErr :=
  flagErr [(e.colon, .RIM_ERR_JSON_COLON_EXPECTED), (e.commaOrEndArray, .RIM_ERR_JSON_COMMA_END_ARRAY_EXPECTED),
    (e.commaOrEndObject, .RIM_ERR_JSON_COMMA_END_OBJECT_EXPECTED), (e.name, .RIM_ERR_JSON_NAME_EXPECTED)]

/-- One round of the loop: the flags, unless it goes to `endj`, and the variables. -/
abbrev JsonStep := Except JsonFault (Option Expected × JsonState)

/-- The next byte, which is not read again after it was replaced with a null. -/
def jsonChar (st : JsonState) : Except JsonFault (UInt8 × JsonState) := do
  let nchar ← if st.nulled ≠ 0 then .ok st.nulled else inText st.val[st.i]?
  let st := { st with nulled := 0 }
  .ok (nchar, if nchar = 10 then { st with lineEc := st.lineEc + 1, lastLineEc := st.i } else st)

/-- `case '{'` -/
def jsonBegObject (e : Expected) (st : JsonState) : JsonStep :=
  match flagErr [(e.colon, .RIM_ERR_JSON_COLON_EXPECTED), (e.name, .RIM_ERR_JSON_NAME_EXPECTED),
    (e.commaOrEndArray, .RIM_ERR_JSON_COMMA_END_ARRAY_EXPECTED),
    (e.commaOrEndObject, .RIM_ERR_JSON_COMMA_END_OBJECT_EXPECTED)] with
  | some err => .ok (none, st.fail err)
  | none => .ok (some { e with name := true, isobj := true }, { st with i := st.i + 1 })

/-- `case '}'` -/
def jsonEndObject (e : Expected) (st : JsonState) : JsonStep :=
  match flagErr [(e.colon, .RIM_ERR_JSON_COLON_EXPECTED),
    (e.commaOrEndArray, .RIM_ERR_JSON_COMMA_END_ARRAY_EXPECTED), (e.name, .RIM_ERR_JSON_NAME_EXPECTED)] with
  | some err => .ok (none, st.fail err)
  | none => .ok (none, { st with listC := st.listC - 1, i := st.i + 1 })

/-- `case '['`. The array is that of the level before. -/
def jsonBegArray (value : JsonState → Except JsonFault JsonState) (e : Expected) (st : JsonState) : JsonStep :=
  match e.noValue with
  | some err => .ok (none, st.fail err)
  | none => do
    let st ← JsonState.nextIndex { st with i := st.i + 1, listC := st.listC - 1 }
    let st ← value st
    .ok (if st.ec ≠ -1 then none else some { e with isarr := true, commaOrEndArray := true }, st)

/-- `case ']'` -/
def jsonEndArray (e : Expected) (st : JsonState) : JsonStep :=
  match flagErr [(e.colon, .RIM_ERR_JSON_COLON_EXPECTED),
    (e.commaOrEndObject, .RIM_ERR_JSON_COMMA_END_OBJECT_EXPECTED), (e.name, .RIM_ERR_JSON_NAME_EXPECTED)] with
  | some err => .ok (none, st.fail err)
  | none => do
    let l ← st.level
    .ok (none, { st.setLevel { l with index := -1 } with i := st.i + 1 })

/-- `case ':'` -/
def jsonColon (value : JsonState → Except JsonFault JsonState) (e : Expected) (st : JsonState) : JsonStep :=
  match flagErr [(e.commaOrEndArray, .RIM_ERR_JSON_COMMA_END_ARRAY_EXPECTED),
    (e.commaOrEndObject, .RIM_ERR_JSON_COMMA_END_OBJECT_EXPECTED), (e.name, .RIM_ERR_JSON_NAME_EXPECTED)] with
  | some err => .ok (none, st.fail err)
  | none => do
    let st ← value { st with i := st.i + 1 }
    .ok (if st.ec ≠ -1 then none else some { e with colon := false, commaOrEndObject := true }, st)

/-- `case ','` -/
def jsonComma (value : JsonState → Except JsonFault JsonState) (e : Expected) (st : JsonState) : JsonStep :=
  match flagErr [(e.colon, .RIM_ERR_JSON_COLON_EXPECTED), (e.name, .RIM_ERR_JSON_NAME_EXPECTED)] with
  | some err => .ok (none, st.fail err)
  | none =>
    let e := { e with commaOrEndArray := false, commaOrEndObject := false }
    let st := { st with i := st.i + 1 }
    if e.isobj then .ok (some { e with name := true }, st)
    else if e.isarr then do
      let st ← st.nextIndex
      let st ← value st
      .ok (if st.ec ≠ -1 then none else some { e with commaOrEndArray := true }, st)
    else .ok (none, st.fail .RIM_ERR_JSON_UNRECOGNIZED)

/-- `lstr`, the length of a string, which is an `int`. -/
def stringLength (t : TextEnd) : Int := (t.last : Int).bmod (2 ^ 32)

/-- `case '"'`. Where there is an error it is the
error of `rim_text_to_utf`, without `ec`; what that function had decoded is not read. -/
def jsonQuote (dec noenum : Bool) (e : Expected) (st : JsonState) : JsonStep :=
  match flagErr [(e.colon, .RIM_ERR_JSON_COLON_EXPECTED),
    (e.commaOrEndArray, .RIM_ERR_JSON_COMMA_END_ARRAY_EXPECTED),
    (e.commaOrEndObject, .RIM_ERR_JSON_COMMA_END_OBJECT_EXPECTED)] with
  | some err => .ok (none, st.fail err)
  | none =>
    match rimTextToUtf (st.val.drop st.i) true dec false with
    | .error .undefined => .error .undefined
    | .error (.err err) => .ok (none, { st with errm := some (.utf err) })
    | .ok t => do
      let val ← inText (poke (st.val.take st.i ++ t.val) (st.i + t.last) 0)
      let str := st.i + 1
      let i : Int := st.i + stringLength t + 1
      if i < 0 then .error .undefined
      else if e.name then do
        let l ← st.level
        .ok (some { e with name := false, colon := true },
          { st.setLevel { l with name := some str, nameLen := stringLength t - 1 } with val, i := i.toNat })
      else do
        let st ← rimAddJson noenum .string str { st with val }
        .ok (none, { st with i := i.toNat, listC := st.listC - 1 })

/-- The end of a number or a literal, of `n` bytes. -/
def jsonScalar (noenum : Bool) (type : JsonType) (n : Nat) (st : JsonState) : JsonStep := do
  let tb ← inText st.val[st.i + n]?
  let val ← inText (poke st.val (st.i + n) 0)
  let st ← rimAddJson noenum type st.i { st with val, nulled := tb }
  .ok (none, { st with i := st.i + n, listC := st.listC - 1 })

/-- `case '-'`, `case '0' ... '9'` -/
def jsonNumber (noenum : Bool) (e : Expected) (st : JsonState) : JsonStep :=
  match e.noValue with
  | some err => .ok (none, st.fail err)
  | none => do
    match ← rimJsonNum (st.val.drop st.i) with
    | none => .ok (none, st.fail .RIM_ERR_JSON_NUMBER)
    | some (rv, r) => jsonScalar noenum (if rv then .real else .number) r st

/-- `case 't'`, `case 'f'` and `case 'n'` -/
def jsonLiteral (noenum : Bool) (literal : Bytes) (type : JsonType) (e : Expected) (st : JsonState) : JsonStep :=
  match e.noValue with
  | some err => .ok (none, st.fail err)
  | none =>
    if strncmp literal.length (st.val.drop st.i) literal ≠ 0 then .ok (none, st.fail .RIM_ERR_JSON_UNKNOWN)
    else jsonScalar noenum type literal.length st

/-- One round of the loop, where `value` is what a call of `rim_json_new` for the next value
does. -/
def rimJsonStep (dec noenum : Bool) (value : JsonState → Except JsonFault JsonState) (e : Expected)
    (st : JsonState) : JsonStep := do
  let (nchar, st) ← jsonChar st
  match jsonToken nchar with
  | .begObject => jsonBegObject e st
  | .endObject => jsonEndObject e st
  | .begArray => jsonBegArray value e st
  | .endArray => jsonEndArray e st
  | .colon => jsonColon value e st
  | .comma => jsonComma value e st
  | .white => .ok (some e, { st with i := st.i + 1 })
  | .quote => jsonQuote dec noenum e st
  | .number => jsonNumber noenum e st
  | .true => jsonLiteral noenum (ascii "true") .bool e st
  | .false => jsonLiteral noenum (ascii "false") .bool e st
  | .null => jsonLiteral noenum (ascii "null") .null e st
  | .unknown => .ok (none, st.fail .RIM_ERR_JSON_UNRECOGNIZED)

/-- `endj` of a call -/
def JsonState.endj (st : JsonState) : JsonState := { st with depth := st.depth - 1 }

/-- A call of `rim_json_new`, where `loop` is its loop. -/
def rimJsonValue (loop : Expected → JsonState → Except JsonFault JsonState) (st : JsonState) :
    Except JsonFault JsonState :=
  let st := { st with depth := st.depth + 1 }
  if st.depth ≥ RIM_JSON_MAX_NESTED then .ok (st.fail .RIM_ERR_JSON_DEPTH).endj
  else
    let st := { st with listC := st.listC + 1 }
    if st.listC ≥ (RIM_JSON_MAX_NESTED : Int) - 1 then .ok (st.fail .RIM_ERR_JSON_DEPTH).endj
    else do
      let st ← loop {} st
      .ok st.endj

/-- The loop of a call, up to `endj`. Nothing is said of it when `fuel` is used up. -/
def rimJsonLoop (dec noenum : Bool) (len : Nat) : Nat → Expected → JsonState → Except JsonFault JsonState
  | 0, _, _ => .error .undefined
  | fuel + 1, e, st =>
    if st.i < len then do
      match ← rimJsonStep dec noenum (rimJsonValue (rimJsonLoop dec noenum len fuel)) e st with
      | (some e, st) => rimJsonLoop dec noenum len fuel e st
      | (none, st) => .ok st
    else .ok { st with listC := st.listC - 1 }

/-- A document and how it is parsed: `len` is -1 where it is not given. -/
structure JsonDoc where
  text : Bytes
  len : Option Nat := none
  dec : Bool := true
  noenum : Bool := false
  deriving DecidableEq, Repr

/-- `rim_mem_get_len` of the copy, a null after it. -/
def JsonDoc.vlen (d : JsonDoc) : Nat := d.text.length

def JsonDoc.upTo (d : JsonDoc) : Nat := d.len.getD d.vlen

/-- What a root call answers: `code` is -1, or where the error is. The nodes are those of
the text as the parser left it. -/
structure RimJson where
  code : Int
  errc : Int
  errl : Nat
  errm : Option RimJsonErr
  nodes : List RimJsonn
  data : Bytes
  deriving DecidableEq, Repr

def JsonDoc.start (d : JsonDoc) (nulled : UInt8) : JsonState where
  val := d.text ++ [0]
  i := 0
  list := List.replicate RIM_JSON_MAX_NESTED { name := none, nameLen := 0, index := -1 }
  listC := -1
  nodes := []
  nulled := nulled
  errm := none
  ec := -1
  lineEc := 1
  lastLineEc := 0
  depth := 0

/-- The end of a root call: white space may follow the value, and nothing else. -/
def rimJsonEnd (len : Nat) (st : JsonState) : Except JsonFault JsonState := do
  let i := st.i + ((st.val.drop st.i).takeWhile isspace).length
  let _ ← inText st.val[i]?
  let st := { st with i }
  .ok (if st.ec = -1 ∧ st.i < len then st.fail .RIM_ERR_JSON_SYNTAX else st)

/-- `rim_json_new`, the root call: what it answers, and `nulled` after it. -/
def rimJsonNew (nulled : UInt8) (d : JsonDoc) : Except JsonFault (RimJson × UInt8) := do
  if d.upTo > d.vlen then .error (.report d.upTo d.vlen)
  else do
    let st ← rimJsonValue (rimJsonLoop d.dec d.noenum d.upTo (d.upTo + 1)) (d.start nulled)
    let st ← rimJsonEnd d.upTo st
    .ok ({ code := st.ec, errc := st.ec - st.lastLineEc, errl := st.lineEc, errm := st.errm,
           nodes := st.nodes, data := st.val }, st.nulled)

def rimJsonAll : UInt8 → List JsonDoc → Except JsonFault (List RimJson × UInt8)
  | nulled, [] => .ok ([], nulled)
  | nulled, d :: docs => do
    let (json, nulled) ← rimJsonNew nulled d
    let (rest, nulled) ← rimJsonAll nulled docs
    .ok (json :: rest, nulled)

end RimStone
