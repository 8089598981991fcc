import Mathlib.Data.List.Infix
import RimStone.Request.Cookies

/-!
# What is sent to the client

A request sends header lines, an empty line and a body. Three flags of `rim_input_req` keep track of
that: `sent_header`, once the header lines are out or taken care of, `data_was_output`, once the
empty line is, and `disable_output`, once a file is sent. `sent` is what was sent, write by write.

Each operation is as the statement that calls it makes it. An error that it reports ends the request:
what follows is `rim_shut` only. To report an error while one is reported ends the process, and has no
state here.
-/

namespace RimStone

def RIM_MAX_HTTP_HEADER : Nat := 32

inductive Sent where
  /-- a header line `name: value` -/
  | line (name value : Bytes)
  | blank
  | body (text : Bytes)
  deriving DecidableEq, Repr

def Sent.text : Sent → Bytes
  | .line name value => name ++ ascii ": " ++ value ++ [13, 10]
  | .blank => [13, 10]
  | .body text => text

structure RimHeader where
  ctype : Bytes := ascii "text/html;charset=utf-8"
  disp : Option Bytes := none
  fileName : Option Bytes := none
  cacheControl : Option Bytes := none
  etag : Int := 0
  statusId : Int := 0
  statusText : Option Bytes := none
  /-- `control` and `value`, up to the first null -/
  custom : List (Bytes × Bytes) := []
  deriving DecidableEq, Repr

/-- What `rim_input_req` has for the output. -/
structure OutReq where
  sentHeader : Bool := false
  dataWasOutput : Bool := false
  disableOutput : Bool := false
  silent : Bool := false
  isShut : Bool := false
  /-- `rim_finished_output` -/
  finishedOutput : Bool := false
  /-- `rim_report_error_is_in_report` -/
  isInReport : Bool := false
  /-- The program is at `end_point`, with only `rim_shut` to come. -/
  atEnd : Bool := false
  cookies : List RimCookie := []
  header : Option RimHeader := none
  ifNoneMatch : Option Bytes := none
  sent : List Sent := []
  deriving DecidableEq, Repr

/-- What `send-file` finds of a file. -/
structure FileView where
  /-- `st_mtime`, if `stat` succeeds -/
  mtime : Option Int := none
  opens : Bool := true
  /-- what `lseek` to the end gives -/
  size : Option Nat := none
  /-- what `read` gives -/
  data : Option Bytes := none
  deriving DecidableEq, Repr

/-- `send-file` -/
structure SendFile where
  fname : Bytes
  header : RimHeader
  file : FileView
  deriving DecidableEq, Repr

namespace OutReq

variable (r : OutReq)

/-- `rim_gen_write`, to the client -/
def rimGenWrite (s : Sent) : OutReq := if r.finishedOutput then r else { r with sent := r.sent ++ [s] }

def rimGenAddHeader (n v : Bytes) : OutReq := if r.silent then r else r.rimGenWrite (.line n v)

def rimGenSetContentType (v : Bytes) : OutReq := r.rimGenAddHeader (ascii "Content-Type") v

def rimGenSetContentLength (v : Bytes) : OutReq := r.rimGenAddHeader (ascii "Content-length") v

def rimGenSetStatus (st : Int) (line : Bytes) : OutReq :=
  r.rimGenAddHeader (ascii "Status") (ascii (toString st) ++ ascii " " ++ line)

def addHeaders (headers : List (Bytes × Bytes)) : OutReq := headers.foldl (fun r h => r.rimGenAddHeader h.1 h.2) r

/-- The `Set-Cookie` headers of `rim_gen_header_end`. -/
def cookieHeaders : List (Bytes × Bytes) :=
  (r.cookies.filter (·.isSetByProgram)).map fun c => (ascii "Set-Cookie", c.data)

def rimGenHeaderEnd : OutReq :=
  if r.dataWasOutput then r
  else if r.silent then { r with dataWasOutput := true }
  else { (r.addHeaders r.cookieHeaders).rimGenWrite .blank with dataWasOutput := true }

def cacheHeaders (cacheControl : Option Bytes) : List (Bytes × Bytes) :=
  match cacheControl with
  | some cacheControl => [(ascii "Cache-Control", cacheControl)]
  | none => [(ascii "Cache-Control", ascii "max-age=0, no-cache"), (ascii "Pragma", ascii "no-cache")]

/-- The status of `rim_send_header`. -/
def headerStatus (h : RimHeader) : Int × Bytes :=
  match h.statusText with
  | some text => if h.statusId ≠ 0 then (h.statusId, text) else (200, ascii "OK")
  | none => (200, ascii "OK")

/-- `rim_send_header`: without a header it is the default one. -/
def rimSendHeader : OutReq :=
  let h := r.header.getD {}
  (((r.rimGenSetContentType h.ctype).addHeaders (cacheHeaders h.cacheControl)).rimGenSetStatus
    (headerStatus h).1 (headerStatus h).2).addHeaders (h.custom.take RIM_MAX_HTTP_HEADER)

def rimOutputHttpHeader : OutReq :=
  if r.sentHeader then r
  else if r.disableOutput then r
  else rimSendHeader { r with sentHeader := true }

/-- A write to the client or to the error stream of the server. -/
def rimGenWriteTo (iserr : Bool) (text : Bytes) : OutReq := if iserr then r else r.rimGenWrite (.body text)

def rimWriteAfterHeader (iserr : Bool) (text : Bytes) : OutReq := r.rimGenHeaderEnd.rimGenWriteTo iserr text

def rimWriteWeb (iserr : Bool) (text : Bytes) : OutReq :=
  if r.sentHeader then r.rimWriteAfterHeader iserr text
  else if !r.isInReport then r.rimOutputHttpHeader.rimWriteAfterHeader iserr text
  else r.rimGenWriteTo iserr text

/-- `rim_header_err` and, where it is 1, the header of an error. -/
def errorHeader (st : Int) (line : Bytes) : OutReq :=
  if r.sentHeader then r.rimGenHeaderEnd
  else (((({ r with sentHeader := true } : OutReq).rimGenSetStatus st line).rimGenSetContentType
    (ascii "text/html;charset=utf-8"))).rimGenHeaderEnd

def rimServerError : OutReq := r.errorHeader 500 (ascii "Internal Server Error")

def rimCantFindFile : OutReq := r.errorHeader 404 (ascii "Not Found")

def rimBadRequest : OutReq := r.errorHeader 400 (ascii "Bad Request")

/-- `RIM_GENERR` -/
def generr : Bytes := ascii "Your request has produced an error. Please check error log for more details.\x0a"

/-- `_rim_report_error`, which goes on at `end_point` -/
def rimReportError : OutReq :=
  { (({ r with isInReport := true } : OutReq).rimServerError).rimGenWrite (.body generr) with atEnd := true }

/-- `rim_puts` and `rim_printf` when they do not write to a string: `text` is what is left after
formatting and encoding -/
def rimOutput (iserr : Bool) (text : Bytes) : OutReq :=
  if r.disableOutput then r.rimReportError else r.rimWriteWeb iserr text

/-- `send-file` of a file that the client has -/
def notModified (h : RimHeader) : OutReq :=
  ((r.rimGenAddHeader (ascii "Status") (ascii "304 Not Modified")).addHeaders (cacheHeaders h.cacheControl)).rimGenHeaderEnd

def dispName (disp : Bytes) (fileName : Option Bytes) : Bytes :=
  snprintf 500 (disp ++ match fileName with
    | some fileName => ascii "; filename*=UTF8''" ++ fileName.flatMap RimEnc.url.char
    | none => [])

/-- The `Etag` header. -/
def etagHeader (h : RimHeader) (tstamp : Int) : List (Bytes × Bytes) :=
  if h.etag = 1 then [(ascii "Etag", ascii (toString tstamp))] else []

/-- The header of `send-file` for a file without a content type: output is not disabled for it -/
def htmlHeader (h : RimHeader) (tstamp : Int) : OutReq :=
  { ({ r.addHeaders (etagHeader h tstamp) with disableOutput := false } : OutReq).rimOutputHttpHeader with
    disableOutput := r.disableOutput }

/-- The header of `send-file` for a file with a content type -/
def fileHeader (h : RimHeader) (tstamp : Int) (fsize : Nat) : OutReq :=
  { ((((r.rimGenSetContentType h.ctype).rimGenSetContentLength (ascii (toString fsize))).addHeaders
      (h.disp.toList.map fun disp => (ascii "Content-Disposition", dispName disp h.fileName))).addHeaders
      (cacheHeaders h.cacheControl)).addHeaders (etagHeader h tstamp ++ h.custom.take RIM_MAX_HTTP_HEADER) with
    sentHeader := true }

/-- `send-file` of a file that can be read, from where its size is known -/
def sendContents (a : SendFile) (tstamp : Int) (fsize : Nat) : OutReq :=
  if r.ifNoneMatch.any fun etag => strtol etag = tstamp then r.notModified a.header
  else
    match a.file.data with
    | none => r.rimCantFindFile
    | some str =>
      if str.length ≠ fsize then r.rimCantFindFile
      else if a.header.ctype = [] then (r.htmlHeader a.header tstamp).rimWriteWeb false str
      else (r.fileHeader a.header tstamp fsize).rimWriteWeb false str

/-- `rim_out_file` from where the output is disabled -/
def sendFile (a : SendFile) : OutReq :=
  if ascii ".." <:+: a.fname then r.rimCantFindFile
  else
    match a.file.mtime with
    | none => r.rimCantFindFile
    | some tstamp =>
      if !a.file.opens then r.rimCantFindFile
      else
        match a.file.size with
        | none => r.rimCantFindFile
        | some fsize => r.sendContents a tstamp fsize

def rimOutFile (a : SendFile) : OutReq :=
  if r.disableOutput then r.rimReportError
  else if r.sentHeader then r.rimReportError
  else ({ r with disableOutput := true } : OutReq).sendFile a

def rimShut : OutReq :=
  if r.sentHeader && !r.dataWasOutput then ({ r with isShut := true } : OutReq).rimGenHeaderEnd
  else { r with isShut := true }

/-- What `OPTIONS` is answered with, besides the status. -/
def optionsHeaders : List (Bytes × Bytes) :=
  [(ascii "Allow", ascii "OPTIONS, GET, POST, PATCH, PUT, DELETE"),
    (ascii "Access-Control-Allow-Methods", ascii "OPTIONS, GET, POST, PATCH, PUT, DELETE"),
    (ascii "Cache-Control", ascii "max-age: 86400")]

/-- The answer of `rim_get_input` to `OPTIONS`, after which the request is at its end -/
def optionsAnswer : OutReq :=
  { ((r.rimGenSetStatus 204 (ascii "No Content")).addHeaders optionsHeaders).rimGenHeaderEnd with atEnd := true }

end OutReq

/-- What a request does for its output. -/
inductive OutOp where
  /-- `out-header`, with `use` or `default` -/
  | outHeader (header : Option RimHeader)
  /-- output that is not to a string -/
  | output (iserr : Bool) (text : Bytes)
  | sendFile (a : SendFile)
  | badRequest
  | reportError
  | setCookie (a : SetCookie)
  | deleteCookie (name : Bytes) (path : Option Bytes) (secure : Bytes)
  /-- `OPTIONS`, before anything else -/
  | options
  | shut
  deriving DecidableEq, Repr

namespace OutReq

def orReport (r : OutReq) (cookies : Except InputFault (List RimCookie)) : OutReq :=
  match cookies with
  | .ok cookies => { r with cookies := cookies }
  | .error _ => r.rimReportError

def exec (r : OutReq) (op : OutOp) : Option OutReq :=
  if r.isShut then none
  else
    match op with
    | .shut => some r.rimShut
    | op =>
      if r.atEnd then none
      else
        match op with
        | .outHeader header => some ({ r with header := header.or r.header } : OutReq).rimOutputHttpHeader
        | .output iserr text => some (r.rimOutput iserr text)
        | .sendFile a => some (r.rimOutFile a)
        | .badRequest => some r.rimBadRequest
        | .reportError => some r.rimReportError
        | .setCookie a => some (r.orReport (rimSetCookie r.dataWasOutput r.cookies a))
        | .deleteCookie name path secure => some (r.orReport ((rimDeleteCookie r.cookies name path secure).map (·.1)))
        | .options => if r.sentHeader || r.dataWasOutput then none else some r.optionsAnswer
        | .shut => none

/-- A request that came with cookies, and maybe with `If-None-Match`. -/
def start (cookies : List RimCookie) (ifNoneMatch : Option Bytes) : OutReq where
  cookies := cookies
  ifNoneMatch := ifNoneMatch

end OutReq

end RimStone
