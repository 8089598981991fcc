import Mathlib.Data.List.DropRight
import RimStone.Client.Read
import RimStone.Lib.Frames

/-!
# Requests to a FastCGI server

`rim_cli_request` of `rcli.c` from the moment its socket is connected until
`fc_server_read` takes over. What it sends are records: one that begins the request, one
with the environment, which is put together in a block whose size was computed before,
an empty one of that kind, and the body in pieces with an empty one after them.

A request has no timeout. Lengths are of type `int`; a length or a sum that does not fit
has no result, nor has an access outside a block. The socket takes what it is offered in
pieces of its own choice and may fail; `sent` is what it took.

The rules of FastCGI come first: how a text is read as records, and the content of an
environment record as names and values.
-/

namespace RimStone

open RimStone.Lib

/-! ## Records, names and values -/

def RIM_CLI_BEG_REQ : UInt8 := 1

def RIM_CLI_PARAM : UInt8 := 4

def RIM_CLI_STDIN : UInt8 := 5

def RIM_CLI_MAX_LEN : Nat := 0xffff

structure FcRecord where
  type : UInt8
  content : Bytes
  deriving DecidableEq, Repr

/-- The first record of a text: version 1, request 1, no padding. -/
def FcRecord.decode (text : Bytes) : Option (FcRecord × Bytes) := do
  let header ← FcLocal.fcHeaderOf (text.take 8)
  let len := header.contLen1.toNat * 256 + header.contLen0.toNat
  let rest := text.drop 8
  if header.ver = RIM_CLI_VER_1 ∧ header.reqId1 = 0 ∧ header.reqId0 = 1 ∧ header.padLen = 0 ∧ len ≤ rest.length then
    some (⟨header.type, rest.take len⟩, rest.drop len)
  else none

/-- The length that a text begins with: one byte below 128, or four bytes of which the
first has its top bit set. -/
def NameValue.length : Bytes → Option (Nat × Bytes)
  | [] => none
  | b3 :: rest =>
    if b3.toNat < 128 then some (b3.toNat, rest)
    else match rest with
      | b2 :: b1 :: b0 :: rest =>
        some ((b3.toNat - 128) * 2 ^ 24 + b2.toNat * 2 ^ 16 + b1.toNat * 2 ^ 8 + b0.toNat, rest)
      | _ => none

/-- The first name and value of a text: both lengths, the name, the value. -/
def NameValue.decode (text : Bytes) : Option ((Bytes × Bytes) × Bytes) := do
  let (n, text) ← NameValue.length text
  let (v, text) ← NameValue.length text
  if n + v ≤ text.length then some ((text.take n, (text.drop n).take v), text.drop (n + v)) else none

/-! ## A request -/

/-- A string of C: the bytes before the null. -/
structure CString where
  bytes : Bytes
  noNull : (0 : UInt8) ∉ bytes
  deriving DecidableEq, Repr

/-- What `rim_cli_request` is given. The body is `content_len` bytes. -/
structure RimCli where
  reqMethod : CString
  appPath : CString
  req : CString
  urlParams : Option CString := none
  contentType : Option CString := none
  contentLen : Nat := 0
  reqBody : Option Bytes := none
  env : Option (List CString) := none
  contentLen_lt : contentLen < 2 ^ 31
  reqBody_length : ∀ b ∈ reqBody, b.length = contentLen

/-- What `rim_cli_request` returns without reading a reply. -/
inductive CliReturn where
  /-- `RIM_CLI_ERR_SOCK_WRITE` -/
  | errSockWrite
  /-- `RIM_CLI_ERR_OUT_MEM` -/
  | errOutMem
  /-- `RIM_CLI_ERR_ENV_ODD` -/
  | errEnvOdd
  /-- `RIM_CLI_ERR_ENV_TOO_LONG` -/
  | errEnvTooLong
  deriving DecidableEq, Repr

/-- What `fc_local` has for a request. -/
structure FcSend where
  sock : List Taken
  sent : Bytes := []
  paramLen : Nat := 0
  env : Bytes := []
  envNlen : List Nat := []
  envVlen : List Nat := []
  envP : Nat := 0
  queryString : Option Bytes := none
  pathInfo : Bytes := []
  deriving DecidableEq, Repr

/-- Code that may return early from `rim_cli_request`. -/
abbrev CliM := ExceptT CliReturn (StateT FcSend Option)

namespace FcSend

def defined {α : Type} (x : Option α) : CliM α := fun l => x.map fun a => (.ok a, l)

/-- `if (cond) RIM_CLI_RET (rc)` -/
def retIf (cond : Bool) (rc : CliReturn) : CliM Unit := if cond then throw rc else pure ()

def strlen (s : Bytes) : CliM Nat := defined (FcLocal.addInt 0 s.length)

/-- `n` bytes of a string with its null -/
def readString (s : Bytes) (n : Nat) : Option Bytes :=
  if n ≤ s.length + 1 then some ((s ++ [0]).take n) else none

/-- `rim_write_socket`, and to return if it fails -/
def rimWriteSocket (buf : Bytes) : CliM Unit := do
  let l ← get
  let (sock, put, all) := Taken.write buf l.sock
  set { l with sock, sent := l.sent ++ put }
  retIf (!all) .errSockWrite

def buildHdr (contentLen : Nat) (type : UInt8) : Bytes :=
  [RIM_CLI_VER_1, type, 0, 1, UInt8.ofNat (contentLen >>> 8), UInt8.ofNat contentLen, 0, 0]

def beginRequest : Bytes := [0, 1, 0, 0, 0, 0, 0, 0]

/-! ### The payload of the URL -/

/-- From `p` to the first question mark, or to the end. -/
def questionLoop : Bytes → Nat → Nat
  | [], p => p
  | c :: s, p => if c ≠ 63 then questionLoop s (p + 1) else p

/-- The loop of `parse_payload`: from the end back to a slash, and from there to the
question mark. -/
def payloadLoop (q : Bytes) : Nat → Nat
  | 0 => 0
  | l + 1 => if q[l]? = some 47 then questionLoop (q.drop (l + 1)) (l + 1) else payloadLoop q l

section

variable (mem : Nat → Bool)

/-- `parse_payload`: the lengths of the query string and of the path. -/
def parsePayload (queryStringL pathInfoL : Nat) : CliM (Nat × Nat) := do
  let l ← get
  match l.queryString with
  | none => pure (queryStringL, pathInfoL)
  | some [] => pure (queryStringL, pathInfoL)
  | some q => do
    let queryStringL ← strlen q
    let lPayload := payloadLoop q queryStringL
    if lPayload > 0 then do
      let query := if lPayload < q.length then q.drop (lPayload + 1) else []
      let queryStringL := if lPayload < q.length then queryStringL - (lPayload + 1) else 0
      retIf (!mem (query.length + 1)) .errOutMem
      let pathInfoL' ← defined (FcLocal.addInt pathInfoL lPayload)
      retIf (!mem (pathInfoL' + 1)) .errOutMem
      modify fun l => { l with queryString := some query, pathInfo := l.pathInfo.take pathInfoL ++ q.take lPayload }
      pure (queryStringL, pathInfoL')
    else pure (queryStringL, pathInfoL)

/-! ### The environment -/

def rimSizeEnv (nameLen valLen : Nat) : CliM Unit := do
  let l ← get
  let p ← defined (FcLocal.addInt l.paramLen (if nameLen < 0x80 then 1 else 4))
  let p ← defined (FcLocal.addInt p (if valLen < 0x80 then 1 else 4))
  let p ← defined (FcLocal.addInt p nameLen)
  let p ← defined (FcLocal.addInt p valLen)
  set { l with paramLen := p }

def lenHdr (len : Nat) : Bytes :=
  if len < 0x80 then [UInt8.ofNat len]
  else [UInt8.ofNat (len >>> 24) ||| 0x80, UInt8.ofNat (len >>> 16), UInt8.ofNat (len >>> 8), UInt8.ofNat len]

/-- `memcpy` to where the environment goes on -/
def copyEnv (src : Bytes) : CliM Unit := do
  let l ← get
  let env ← defined (memcpy l.env l.envP src)
  let envP ← defined (FcLocal.addInt l.envP src.length)
  set { l with env, envP }

def rimSendEnv (name : Bytes) (nameLen : Nat) (val : Bytes) (valLen : Nat) : CliM Unit := do
  copyEnv (lenHdr nameLen ++ lenHdr valLen)
  copyEnv (← defined (readString name nameLen))
  copyEnv (← defined (readString val valLen))

/-- `query_string != NULL && query_string[0] != 0` -/
def hasQuery (l : FcSend) : Bool := l.queryString.any (· ≠ [])

def sizeQuery (has : Bool) (queryStringL : Nat) : CliM Unit :=
  if has then rimSizeEnv 12 queryStringL else pure ()

def sendQuery (has : Bool) (query : Bytes) (queryStringL : Nat) : CliM Unit :=
  if has then rimSendEnv (ascii "QUERY_STRING") 12 query queryStringL else pure ()

/-- The loop over `env` that computes its size, and keeps the lengths. -/
def sizeEnvLoop : List CString → CliM Unit
  | n :: v :: env => do
    let nlen ← strlen n.bytes
    let vlen ← strlen v.bytes
    modify fun l => { l with envNlen := l.envNlen ++ [nlen], envVlen := l.envVlen ++ [vlen] }
    rimSizeEnv nlen vlen
    sizeEnvLoop env
  | _ => pure ()

/-- The loop over `env` that writes it, with the lengths that were kept. -/
def sendEnvLoop : Nat → List CString → CliM Unit
  | i, n :: v :: env => do
    let l ← get
    let nlen ← defined l.envNlen[i]?
    let vlen ← defined l.envVlen[i]?
    rimSendEnv n.bytes nlen v.bytes vlen
    sendEnvLoop (i + 1) env
  | _, _ => pure ()

/-- The size of `env`. -/
def sizeEnv (env : Option (List CString)) : CliM Unit :=
  match env with
  | none => pure ()
  | some env => do
    retIf (env.length % 2 ≠ 0) .errEnvOdd
    retIf (!mem (env.length / 2 * 4)) .errOutMem
    sizeEnvLoop env

/-! ### The body -/

/-- The body and its type, where the request has all of them. -/
def bodyOf (r : RimCli) : Option (Bytes × Bytes) :=
  match r.reqBody, r.contentType with
  | some body, some type => if r.contentLen = 0 ∨ type.bytes = [] then none else some (body, type.bytes)
  | _, _ => none

/-- `snprintf (clen, sizeof (clen), "%d", content_len)`, where `clen` has 30 bytes. -/
def contentLength (r : RimCli) : Bytes := (ascii (Nat.repr r.contentLen)).take 29

/-- The length of the type of the body, if there is one. -/
def contentTypeL : Option (Bytes × Bytes) → CliM Nat
  | some (_, type) => strlen type
  | none => pure 0

/-- The size of what says how long the body is and of what type, if there is one. -/
def sizeBody (body : Option (Bytes × Bytes)) (clenLen contTypeL : Nat) : CliM Unit :=
  match body with
  | some _ => do
    rimSizeEnv 14 clenLen
    rimSizeEnv 12 contTypeL
  | none => pure ()

/-- What says how long the body is and of what type, if there is one. -/
def sendBody (body : Option (Bytes × Bytes)) (clen : Bytes) (contTypeL : Nat) : CliM Unit :=
  match body with
  | some (_, type) => do
    rimSendEnv (ascii "CONTENT_LENGTH") 14 clen clen.length
    rimSendEnv (ascii "CONTENT_TYPE") 12 type contTypeL
  | none => pure ()

/-- The loop over the body: what is left of it, and how many bytes that is. -/
def stdinLoop : Nat → Bytes → Nat → CliM Unit
  | 0, _, reqBodyLen => if reqBodyLen > 0 then defined none else pure ()
  | fuel + 1, ibody, reqBodyLen =>
    if reqBodyLen > 0 then do
      let currPacketLen := if reqBodyLen > RIM_CLI_MAX_LEN - 8 then RIM_CLI_MAX_LEN - 8 else reqBodyLen
      rimWriteSocket (buildHdr currPacketLen RIM_CLI_STDIN)
      let packet ← defined (if currPacketLen ≤ ibody.length then some (ibody.take currPacketLen) else none)
      rimWriteSocket packet
      stdinLoop fuel (ibody.drop currPacketLen) (reqBodyLen - currPacketLen)
    else pure ()

variable (garbage : Nat → UInt8)

/-- The environment of a request, in the order of the source: first the sizes, then a
block of that size, then what goes into it. -/
def sendParams (r : RimCli) : CliM Unit := do
  let body := bodyOf r
  let clen := contentLength r
  let contTypeL ← contentTypeL body
  let reqMethodL ← strlen r.reqMethod.bytes
  modify fun l => { l with queryString := r.urlParams.map (·.bytes), pathInfo := r.req.bytes }
  let (queryStringL, pathInfoL) ← parsePayload mem 0 (← strlen r.req.bytes)
  let appPathL ← strlen r.appPath.bytes
  let l ← get
  let query := l.queryString.getD []
  rimSizeEnv 14 reqMethodL
  rimSizeEnv 11 appPathL
  rimSizeEnv 9 pathInfoL
  sizeQuery l.hasQuery queryStringL
  sizeBody body clen.length contTypeL
  sizeEnv mem r.env
  let paramLen := (← get).paramLen
  retIf (paramLen ≥ RIM_CLI_MAX_LEN - 8) .errEnvTooLong
  rimWriteSocket (buildHdr paramLen RIM_CLI_PARAM)
  retIf (!mem paramLen) .errOutMem
  modify fun l => { l with env := (List.range paramLen).map garbage, envP := 0 }
  rimSendEnv (ascii "REQUEST_METHOD") 14 r.reqMethod.bytes reqMethodL
  rimSendEnv (ascii "SCRIPT_NAME") 11 r.appPath.bytes appPathL
  rimSendEnv (ascii "PATH_INFO") 9 l.pathInfo pathInfoL
  sendQuery l.hasQuery query queryStringL
  sendBody body clen contTypeL
  sendEnvLoop 0 (r.env.getD [])
  let l ← get
  rimWriteSocket (l.env.take l.envP)
  rimWriteSocket (buildHdr 0 RIM_CLI_PARAM)

/-- `rim_cli_request` from a connected socket to `fc_server_read`. -/
def rimCliSend (r : RimCli) : CliM Unit := do
  rimWriteSocket (buildHdr 8 RIM_CLI_BEG_REQ ++ beginRequest)
  sendParams mem garbage r
  match bodyOf r with
  | some (body, _) => do
    stdinLoop r.contentLen body r.contentLen
    rimWriteSocket (buildHdr 0 RIM_CLI_STDIN)
  | none => pure ()

end

end FcSend

/-! ## What a request says -/

/-- A payload of a URL as a path and a query: the path goes to the first question mark
after the last slash. Without a slash it is all query. -/
def splitPayload (u : Bytes) : Bytes × Bytes :=
  if 47 ∈ u then
    let last := u.rtakeWhile (· ≠ 47)
    (u.rdropWhile (· ≠ 47) ++ last.takeWhile (· ≠ 63), (last.dropWhile (· ≠ 63)).drop 1)
  else ([], u)

def NameValue.size (p : Bytes × Bytes) : Nat :=
  (if p.1.length < 128 then 1 else 4) + (if p.2.length < 128 then 1 else 4) + p.1.length + p.2.length

namespace RimCli

/-- The names and values of `env`. -/
def envPairs : List CString → List (Bytes × Bytes)
  | n :: v :: env => (n.bytes, v.bytes) :: envPairs env
  | _ => []

def payload (r : RimCli) : Bytes × Bytes := splitPayload ((r.urlParams.map (·.bytes)).getD [])

def queryPairs (r : RimCli) : List (Bytes × Bytes) :=
  if r.payload.2 = [] then [] else [(ascii "QUERY_STRING", r.payload.2)]

/-- How long the body is, and its type, if there is a body. -/
def bodyPairs (r : RimCli) : List (Bytes × Bytes) :=
  match FcSend.bodyOf r with
  | some (_, type) => [(ascii "CONTENT_LENGTH", ascii (Nat.repr r.contentLen)), (ascii "CONTENT_TYPE", type)]
  | none => []

def pairs (r : RimCli) : List (Bytes × Bytes) :=
  (ascii "REQUEST_METHOD", r.reqMethod.bytes) :: (ascii "SCRIPT_NAME", r.appPath.bytes) ::
    (ascii "PATH_INFO", r.req.bytes ++ r.payload.1) ::
    (r.queryPairs ++ (r.bodyPairs ++ envPairs (r.env.getD [])))

def envSize (r : RimCli) : Nat := (r.pairs.map NameValue.size).sum

end RimCli

end RimStone
