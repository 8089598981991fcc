import RimStone.Request.Cookies
import RimStone.Laws.Memory.Str

/-!
# Time shifted

`rim_time` points the environment to a time zone on its own stack, has a time broken down in that zone, adds to each
field, and has the sums made a time again. The library of C is a parameter: what it makes of a time, of fields and of a
format depends on the zone of the environment. Its `mktime` takes the numbers that the fields stand for, so that it can
be asked for sums that no field holds.
-/

namespace RimStone

/-- `struct tm` -/
structure Tm where
  sec : Int
  min : Int
  hour : Int
  mday : Int
  mon : Int
  year : Int
  isdst : Int := -1
  wday : Int := 0
  yday : Int := 0
  deriving DecidableEq, Repr

/-- The library's part. In the zone `tz`, `localtime` breaks a time down, `mktime` makes fields a time and normalises
them, and `strftime` writes them; the first two can fail. -/
structure TimeLib where
  /-- `time(NULL)` -/
  now : Int
  localtime (tz : Bytes) (t : Int) : Option Tm
  mktime (tz : Bytes) (tm : Tm) : Option (Int × Tm)
  strftime (tz format : Bytes) (tm : Tm) : Bytes

/-- What `rim_time` is given. -/
structure TimeCall where
  curr : Int := -1
  timezone : Bytes := ascii "GMT"
  format : Option Bytes := none
  year : Int := 0
  month : Int := 0
  day : Int := 0
  hour : Int := 0
  min : Int := 0
  sec : Int := 0

/-- `Error converting [%d-%d-%d] to time_t time since Epoch`, `Error in storing time to buffer, buffer is too small [%d]` -/
inductive TimeError where
  | converting
  | bufferTooSmall (size : Nat)
  deriving DecidableEq, Repr

/-- How `rim_time` ends: with a null pointer followed, with an error, or with a string and its length. -/
inductive TimeResult where
  | crash
  | error (e : TimeError)
  | ok (buffer : Bytes) (len : Nat)
  deriving DecidableEq, Repr

/-- What the environment's `TZ` refers to: what `rim_get_tz` keeps, or the buffer of `rim_time`, which is gone when that
is over. -/
inductive TzSetting where
  | own
  | setGm (text : Bytes)
  deriving DecidableEq, Repr

def GMT_BUFFER_SIZE : Nat := 50

namespace TimeCall

variable (c : TimeCall)

/-- `snprintf (set_gm, sizeof(set_gm), "TZ=%s", timezone)` -/
def setGm : Bytes := snprintf 200 (ascii "TZ=" ++ cstr c.timezone)

def start (lib : TimeLib) : Int := if c.curr = -1 then lib.now else c.curr

def added (tm : Tm) : Tm where
  sec := tm.sec + c.sec
  min := tm.min + c.min
  hour := tm.hour + c.hour
  mday := tm.mday + c.day
  mon := tm.mon + c.month
  year := tm.year + c.year

/-- The fields of `future`, which are `int`. -/
def future (tm : Tm) : Tm where
  sec := toInt32 (c.added tm).sec
  min := toInt32 (c.added tm).min
  hour := toInt32 (c.added tm).hour
  mday := toInt32 (c.added tm).mday
  mon := toInt32 (c.added tm).mon
  year := toInt32 (c.added tm).year

/-- `format==NULL ? "%a, %d %b %Y %H:%M:%S %Z":format` -/
def formatText : Bytes := cstr (c.format.getD (ascii "%a, %d %b %Y %H:%M:%S %Z"))

end TimeCall

/-- `strftime` into a buffer: the length, or 0 if there is no room for the text and its null. -/
def strftimeLen (max : Nat) (text : Bytes) : Nat := if text.length < max then text.length else 0

/-- `rim_time`, and what `TZ` refers to then. -/
def rimTime (lib : TimeLib) (c : TimeCall) : TimeResult × TzSetting :=
  let tz := c.setGm.drop 3
  match lib.localtime tz (c.start lib) with
  | none => (.crash, .setGm c.setGm)
  | some tm =>
    match lib.mktime tz (c.future tm) with
    | none => (.error .converting, .own)
    | some (t, future) =>
      -- a time of -1 is taken for a failure
      if t = -1 then (.error .converting, .own)
      else
        let text := lib.strftime tz c.formatText future
        let timeSucc := strftimeLen (GMT_BUFFER_SIZE - 1) text
        if timeSucc = 0 then (.error (.bufferTooSmall GMT_BUFFER_SIZE), .setGm c.setGm)
        else (.ok (text ++ [0]) (timeSucc + 1), .own)

end RimStone
