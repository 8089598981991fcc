import RimStone.Request.Body

/-!
# The cookies of a request

`req->cookies` holds the cookies that came with the request, and those that the program has set or
deleted since. Each is a text: `name=value`, and then attributes, each behind a semicolon. A cookie
is found by how its text starts, and its value and path are cut out of the text again. The texts of
cookies that are set or deleted are printed into buffers of a fixed size, which cut them off.
-/

namespace RimStone

def RIM_MAX_COOKIES : Nat := 256

def RIM_MAX_COOKIE_SIZE : Nat := 2048

/-- `snprintf` into a buffer of `size` bytes, one of which is for the null -/
def snprintf (size : Nat) (text : Bytes) : Bytes := text.take (size - 1)

/-- `rim_cookies` -/
structure RimCookie where
  data : Bytes
  isSetByProgram : Bool := false
  deriving DecidableEq, Repr

/-- A byte that is neither for names nor for values. -/
def ctlByte (c : UInt8) : Bool := c < 33 || c == 127

/-- A byte that may be in the name of a cookie. -/
def nameByte (c : UInt8) : Bool := !ctlByte c && !(ascii "()@,;:\\\"/[]?=\x7b\x7d").contains c

/-- A byte that may be in the value of a cookie. A quote may be at either end only. -/
def valueByte (inside : Bool) (c : UInt8) : Bool := !ctlByte c && !(ascii ",;\\").contains c && !(c == 34 && inside)

/-- The rest of the value of a cookie from where it is invalid. -/
def invalidValue (first : Bool) : Bytes → Option Bytes
  | [] => none
  | c :: s => if valueByte (!first && s ≠ []) c then invalidValue false s else some (c :: s)

/-- The checks of `rim_check_set_cookie`. -/
def checkCookieName (name : Bytes) : Except InputFault Unit :=
  if name.dropWhile nameByte ≠ [] then
    .error (.report "Cookie name [%s] is invalid at [%s]" [name, name.dropWhile nameByte])
  else if name = [] then .error (.report "Cookie name is empty" [])
  else .ok ()

def checkCookieValue (val : Bytes) : Except InputFault Unit :=
  match invalidValue true val with
  | some rest => .error (.report "Cookie value [%s] is invalid at [%s]" [val, rest])
  | none => if val = [] then .error (.report "Cookie value is empty" []) else .ok ()

def checkCookieClauses (secure samesite httponly : Bytes) : Except InputFault Unit :=
  if secure ≠ ascii "Secure; " ∧ secure ≠ [] then
    .error (.report "Cookie 'secure' can be only on or off, it is [%s]" [secure])
  else if httponly ≠ ascii "HttpOnly; " ∧ httponly ≠ [] then
    .error (.report "Cookie HttpOnly can be only on or off, it is [%s]" [httponly])
  else if samesite ≠ [] ∧ samesite ≠ ascii "Strict" ∧ samesite ≠ ascii "Lax" ∧ samesite ≠ ascii "None" then
    .error (.report "Cookie SameSite can be only empty, Strict, Lax or None" [])
  else .ok ()

/-- `safety_clause`, of 200 bytes -/
def safetyClause (secure samesite httponly : Bytes) : Bytes :=
  snprintf 200 (ascii "; " ++ secure ++ httponly ++
    if samesite ≠ [] then ascii "SameSite=" ++ samesite else [])

def rimCheckSetCookie (name val secure samesite httponly : Bytes) : Except InputFault Bytes := do
  checkCookieName name
  checkCookieValue val
  checkCookieClauses secure samesite httponly
  return safetyClause secure samesite httponly

/-- What `rim_find_cookie` gives. -/
structure FoundCookie where
  ind : Option Nat := none
  val : Bytes := []
  path : Option Bytes := none
  exp : Option Bytes := none
  deriving DecidableEq, Repr

/-- Whether the text of a cookie starts with the name, and then `=`. -/
def isNamed (name data : Bytes) : Bool := data.take name.length == name && data[name.length]? == some 61

/-- What is behind `key`, such as `; Path=`, and before the next semicolon. -/
def cookieAttr (val key : Bytes) : Option Bytes :=
  (strcasestr val key).map fun p => (val.drop (p + key.length)).takeWhile (· != 59)

/-- The parts of a cookie whose text behind `name=` is `val`. -/
def foundCookie (ci : Nat) (val : Bytes) : FoundCookie where
  ind := some ci
  val := val.takeWhile (· != 59)
  path := cookieAttr val (ascii "; Path=")
  exp := cookieAttr val (ascii "; Expires=")

def findCookieLoop (name : Bytes) : List RimCookie → Nat → FoundCookie
  | [], _ => {}
  | c :: cookies, ci =>
    if isNamed name c.data then foundCookie ci (c.data.drop (name.length + 1)) else findCookieLoop name cookies (ci + 1)

def rimFindCookie (cookies : List RimCookie) (name : Bytes) : FoundCookie := findCookieLoop name cookies 0

/-- What `set-cookie` is called with. -/
structure SetCookie where
  name : Bytes
  value : Bytes
  path : Option Bytes := none
  expires : Option Bytes := none
  samesite : Bytes := ascii "Strict"
  httponly : Bytes := ascii "HttpOnly; "
  secure : Bytes := []
  deriving DecidableEq, Repr

/-- An attribute that is left out when it is empty, or a null pointer. -/
def clause (key : String) (text : Option Bytes) : Bytes :=
  match text with
  | none | some [] => []
  | some text => ascii key ++ text

/-- The text of a cookie that is set, in each of the four formats. -/
def SetCookie.text (a : SetCookie) : Bytes :=
  a.name ++ ascii "=" ++ a.value ++ clause "; Path=" a.path ++ clause "; Expires=" a.expires ++
    safetyClause a.secure a.samesite a.httponly

def rimSetCookie (dataWasOutput : Bool) (cookies : List RimCookie) (a : SetCookie) :
    Except InputFault (List RimCookie) := do
  if dataWasOutput then
    throw (.report "Cookie can only be set before any data is output, and either before or after header is output." [])
  let _ ← rimCheckSetCookie a.name a.value a.secure a.samesite a.httponly
  let cookie : RimCookie := ⟨snprintf (RIM_MAX_COOKIE_SIZE + 1) a.text, true⟩
  match (rimFindCookie cookies a.name).ind with
  | none =>
    if cookies.length + 1 ≥ RIM_MAX_COOKIES then
      throw (.report "Too many cookies [%ld]" [ascii (toString (cookies.length + 1))])
    return cookies ++ [cookie]
  | some ind => return cookies.set ind cookie

/-- The text of a cookie that is deleted. -/
def deleteText (name : Bytes) (rpath : Option Bytes) (secure : Bytes) : Bytes :=
  name ++ ascii "=deleted" ++ (match rpath with | none => [] | some path => ascii "; Path=" ++ path) ++
    ascii "; Max-Age=0; Expires=Thu, 01 Jan 1970 01:01:01 GMT" ++ safetyClause secure [] []

/-- The path that a cookie is deleted with: the one given, or else the one that it has. -/
def deletePath (cookies : List RimCookie) (name : Bytes) (path : Option Bytes) : Option Bytes :=
  path.or (rimFindCookie cookies name).path

/-- `rim_delete_cookie`, in a buffer of 300 bytes. Without an index it is `RIM_ERR_EXIST`. -/
def rimDeleteCookie (cookies : List RimCookie) (name : Bytes) (path : Option Bytes) (secure : Bytes) :
    Except InputFault (List RimCookie × Option Nat) := do
  match (rimFindCookie cookies name).ind with
  | none => return (cookies, none)
  | some ci =>
    let _ ← rimCheckSetCookie name (ascii "deleted") secure [] []
    return (cookies.set ci ⟨snprintf 300 (deleteText name (deletePath cookies name path) secure), true⟩, some ci)

/-- The loop of `rim_get_input` over `HTTP_COOKIE`. -/
def cookieLoop : Nat → Bytes → List RimCookie → Except InputFault (List RimCookie)
  | 0, _, _ => .error .undefined
  | fuel + 1, cookie, cookies =>
    if cookies.length ≥ RIM_MAX_COOKIES then
      .error (.report "Too many cookies [%ld]" [ascii (toString cookies.length)])
    else
      match cookie.dropWhile (· != 59) with
      | [] => .ok (cookies ++ [⟨cookie, false⟩])
      | _ :: ew => cookieLoop fuel (ew.dropWhile isspace) (cookies ++ [⟨cookie.takeWhile (· != 59), false⟩])

/-- `req->cookies` as `rim_get_input` makes it of `HTTP_COOKIE`. -/
def receiveCookies (cookie : Bytes) : Except InputFault (List RimCookie) :=
  if cookie = [] then .ok [] else cookieLoop (cookie.length + 1) cookie []

/-- A call with the cookies of a request. -/
inductive CookieOp where
  /-- `rim_set_cookie`, with `data_was_output` as it is then -/
  | set (dataWasOutput : Bool) (a : SetCookie)
  /-- `rim_delete_cookie` -/
  | delete (name : Bytes) (path : Option Bytes) (secure : Bytes)
  /-- `rim_find_cookie` -/
  | find (name : Bytes)
  deriving DecidableEq, Repr

/-- What a call leaves of the cookies, when it does not fail. -/
def cookieExec (cookies : List RimCookie) : CookieOp → Except InputFault (List RimCookie)
  | .set dataWasOutput a => rimSetCookie dataWasOutput cookies a
  | .delete name path secure => (rimDeleteCookie cookies name path secure).map (·.1)
  | .find _ => .ok cookies

end RimStone
