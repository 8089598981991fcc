import RimStone.Request.Input
import RimStone.Text.Strings

/-!
# The body of a request

`rim_get_input` reads the body of a request into a buffer of a fixed size, or into one that it
allocates, and then chooses where the query string goes: after a body that is a query string
itself, or into the buffer for URLs. To read or write outside of a buffer, or through a null
pointer, is undefined.

The parts of a multipart body are cut up between the two. What that comes to is a parameter: an
error, or the number of bytes that it left in the buffer for URLs.
-/

namespace RimStone

/-- `RIM_MAX_SIZE_OF_BODY`, the size of `rim_inp_body` -/
def RIM_MAX_SIZE_OF_BODY : Nat := 32768

/-- `RIM_MAX_SIZE_OF_URL`, the size of `rim_inp_url` -/
def RIM_MAX_SIZE_OF_URL : Nat := 4096

/-- The number that digits stand for, after those before. -/
def digitsLoop : Nat → Bytes → Nat
  | n, [] => n
  | n, c :: s => if isdigit c then digitsLoop (10 * n + (c.toNat - 48)) s else n

/-- `strtol (s, NULL, 10)`: a number that is too large is the largest one, with its sign -/
def strtol (s : Bytes) : Int :=
  match s.dropWhile isspace with
  | 45 :: s => max (-(digitsLoop 0 s : Int)) (-2 ^ 63)
  | 43 :: s => min (digitsLoop 0 s : Int) (2 ^ 63 - 1)
  | s => min (digitsLoop 0 s : Int) (2 ^ 63 - 1)

def atoi (s : Bytes) : Int := toInt32 (strtol s)

/-- What a request has, and what it is to be taken with. -/
structure BodyInput where
  /-- `REQUEST_METHOD` -/
  reqMethod : Bytes
  /-- `QUERY_STRING` -/
  qry : Bytes
  /-- `CONTENT_TYPE` -/
  contType : Bytes
  /-- `CONTENT_LENGTH` -/
  contLen : Bytes
  /-- `max_upload_size` -/
  maxUpload : Int
  /-- `rim_finished_output` -/
  finishedOutput : Bool
  /-- What each read gives, if it asks for that much. -/
  reads : List Bytes
  /-- What the parts of a multipart body come to: `new_url_ptr`, or an error. -/
  multipart : Except (String × List Bytes) Nat

namespace BodyInput

def isQueryString (inp : BodyInput) : Bool := sameCase inp.contType (ascii "application/x-www-form-urlencoded")

def isMultipart (inp : BodyInput) : Bool :=
  match strcasestr inp.contType (ascii "multipart/form-data;") with
  | none => false
  | some i => i == 0 || (inp.contType[i - 1]?.any fun c => c == 59 || isspace c)

/-- `is_post || is_put || is_patch` -/
def isPost (inp : BodyInput) : Bool :=
  sameCase inp.reqMethod (ascii "POST") || sameCase inp.reqMethod (ascii "PUT") || sameCase inp.reqMethod (ascii "PATCH")

/-- The method is `OPTIONS`. -/
def isOptions (inp : BodyInput) : Bool := sameCase inp.reqMethod (ascii "OPTIONS")

/-- `cont_len_byte`, from the headers -/
def contLenByte (inp : BodyInput) : Int := if inp.contType ≠ [] ∧ inp.contLen ≠ [] then atoi inp.contLen else 0

end BodyInput

/-- The loop of `rim_gen_util_read`, after `total` bytes were read: the buffer, and whether there
was enough. -/
def readBodyLoop (content : Bytes) (len total : Int) : List Bytes → Except InputFault (Bytes × Bool)
  | [] => .ok (content, !(total < len))
  | chunk :: reads =>
    if total < len then
      let got := chunk.take (len - total).toNat
      if got = [] then .ok (content, false)
      else do
        let content ← inContent (memcpyAt content total got)
        readBodyLoop content len (total + got.length) reads
    else .ok (content, true)

def rimGenUtilRead (finishedOutput : Bool) (content : Bytes) (len : Int) (reads : List Bytes) :
    Except InputFault (Bytes × Bool) := do
  if finishedOutput then
    let content ← inContent (pokeAt content 0 0)
    .ok (content, true)
  else
    let (content, enough) ← readBodyLoop content len 0 reads
    if enough then
      let content ← inContent (pokeAt content len 0)
      .ok (content, true)
    else .ok (content, false)

/-- The buffer that `content` points to, if it is not `NULL`. -/
abbrev Content := Option Bytes

/-- `content` is the buffer for URLs, and has no text. -/
def emptyUrl (url : Bytes) : Except InputFault Content := do
  let url ← inContent (pokeAt url 0 0)
  .ok (some url)

def readContent (inp : BodyInput) (url body : Bytes) : Except InputFault Content :=
  let contLenByte := inp.contLenByte
  if inp.contType = [] then emptyUrl url
  else if contLenByte = 0 then .ok none
  else if !inp.isQueryString ∧ contLenByte ≥ inp.maxUpload then
    .error (.report "Upload file size too large [%ld]" [ascii (toString contLenByte)])
  else if inp.isQueryString ∧ contLenByte ≥ RIM_MAX_SIZE_OF_URL then
    .error (.report "Query string larger than the limit of [%d] bytes (1)" [ascii (toString RIM_MAX_SIZE_OF_URL)])
  else do
    let newBody := if contLenByte + 32 < RIM_MAX_SIZE_OF_BODY then body else List.replicate (contLenByte + 32).toNat 0
    let (content, enough) ← rimGenUtilRead inp.finishedOutput newBody contLenByte inp.reads
    if !enough then .error (.report "Error reading request body" [])
    else do
      let content ← inContent (pokeAt content (contLenByte + 1) 0)
      let content ← inContent (pokeAt content contLenByte 0)
      .ok (some content)

/-- The buffer that the query string goes to, and how much is in it. -/
def chooseContent (inp : BodyInput) (url : Bytes) (content : Content) : Except InputFault (Content × Int) :=
  let contLenByte := inp.contLenByte
  if !inp.isPost then
    if !inp.isQueryString then do
      let content ← emptyUrl url
      .ok (content, 0)
    else .ok (content, contLenByte)
  else if inp.contType ≠ [] then
    if inp.contLen = [] then .error (.report "Missing content length" [])
    else if contLenByte = 0 then .error (.report "Content length is zero" [])
    else if inp.isMultipart then
      match inp.multipart with
      | .error (format, args) => .error (.report format args)
      | .ok newUrlPtr => .ok (some url, newUrlPtr)
    else if !inp.isQueryString then do
      let content ← emptyUrl url
      .ok (content, 0)
    else .ok (content, contLenByte)
  else if contLenByte ≠ 0 then .error (.report "Content-length found without Content-Type" [])
  else .ok (content, contLenByte)

/-- The query string goes after what is in the buffer. -/
def appendQuery (inp : BodyInput) (content : Content) (contLenByte : Int) : Except InputFault Content :=
  if inp.qry = [] then .ok content
  else if contLenByte + inp.qry.length + 3 ≥ RIM_MAX_SIZE_OF_URL then
    .error (.report "URL too long [%ld]" [ascii (toString (contLenByte + inp.qry.length + 3))])
  else do
    let content ← inContent content
    if 0 < contLenByte then do
      let content ← inContent (pokeAt content contLenByte 38)
      let content ← inContent (memcpyAt content (contLenByte + 1) (inp.qry ++ [0]))
      .ok (some content)
    else do
      let content ← inContent (memcpyAt content contLenByte (inp.qry ++ [0]))
      .ok (some content)

/-- `rim_get_input`, up to the query string. With the method `OPTIONS` there is nothing more to do
after the body. -/
def rimGetInputBody (inp : BodyInput) (url body : Bytes) : Except InputFault Content := do
  if inp.reqMethod = [] then .error (.report "REQUEST_METHOD environment variable is not found" [])
  else
    let content ← readContent inp url body
    if inp.isOptions then .ok content
    else
      let (content, contLenByte) ← chooseContent inp url content
      appendQuery inp content contLenByte

end RimStone
