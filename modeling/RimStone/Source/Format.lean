import RimStone.Source.Keyword
import RimStone.Source.Types

/-!
# Formats

`check_format` reads the format of a print statement and its parameters side by side: each placeholder takes a
parameter, and the code of the parameters is appended to a list that was allocated for the length of the format. What
a parameter is, is found by `is_constant_string` and `check_var`, which are arguments here; a placeholder knows what
it takes.

A format and a parameter are texts without nulls.
-/

namespace RimStone

inductive FormatFault where
  /-- `rim_report_error` -/
  | reported
  | outside
  | fuel
  deriving DecidableEq, Repr

/-! ## Placeholders -/

inductive ParamKind where
  | string | double | number | character
  deriving DecidableEq, Repr

/-- `is_len_format`: the length of `[0-9]*f`, with a `.` and digits for a double; 0 if the text is not so. -/
def isLenFormat (s f : Bytes) (isd : Bool) : Nat :=
  let digits := s.dropWhile isdigit
  let point := if isd ∧ digits.head? = some 46 then digits.tail.dropWhile isdigit else digits
  if f.isPrefixOf point then s.length - point.length + f.length else 0

/-- The placeholders that are checked for in one place. -/
structure Family where
  names : List Bytes
  isd : Bool
  kind : ParamKind
  deriving DecidableEq, Repr

def Family.len (family : Family) (s : Bytes) : Option Nat :=
  match family.names.find? (·.isPrefixOf s) with
  | some f => some f.length
  | none => family.names.findSome? fun f => if isLenFormat s f family.isd = 0 then none else some (isLenFormat s f family.isd)

/-- The families, in the order in which they are checked for. -/
def families : List Family :=
  [{ names := [ascii "s"], isd := false, kind := .string },
    { names := [ascii "f", ascii "e", ascii "g"], isd := true, kind := .double },
    { names := [ascii "ld", ascii "lo", ascii "lx"], isd := false, kind := .number },
    { names := [ascii "hd", ascii "hu", ascii "ho", ascii "hx"], isd := false, kind := .number },
    { names := [ascii "hhd", ascii "hho", ascii "hhu", ascii "hhx"], isd := false, kind := .number }]

/-- The placeholder behind a percent sign, and its length. -/
def placeholder (s : Bytes) : Option (ParamKind × Nat) :=
  match families.findSome? fun family => (family.len s).map (family.kind, ·) with
  | some found => some found
  | none => if s.head? = some 99 then some (.character, 1) else none

/-! ## Parameters -/

/-- What is found out of a parameter; a reported error is none. -/
structure Checks where
  /-- `is_constant_string`, and what the text then is -/
  constant : Bytes → Option (Bool × Bytes)
  /-- `check_var`, and what the text then is -/
  var : Bytes → Option (DefType × Bytes)

/-- The text of a parameter of a type that is taken. -/
def Checks.ofType (checks : Checks) (par : Bytes) (takes : DefType → Bool) : Option Bytes := do
  let (t, par) ← checks.var par
  if takes t then some par else none

/-- The text of a parameter that a placeholder takes. -/
def Checks.take (checks : Checks) (kind : ParamKind) (par : Bytes) : Option Bytes :=
  match kind with
  | .string => do
    let (isConst, par) ← checks.constant par
    if isConst then some par else checks.ofType par fun t => cmpType t .string
  | .double => checks.ofType par fun t => cmpType t .double
  | .number => checks.ofType par fun t => cmpType t .number || cmpType t .bool
  | .character => checks.ofType par fun t => cmpType t .number

/-- `find_keyword` for a comma, and `carve_statement`: the parameter, and those behind it -/
def carveComma (par : Bytes) : Bytes × Option Bytes :=
  match rimFindKeyword0 par [44] false true with
  | .ok (some k) => (par.take k, some (par.drop (k + 1)))
  | _ => (par, none)

/-! ## The list -/

/-- `*list`, of `mlist` bytes, with `clist` -/
structure FormatList where
  block : Bytes
  clist : Nat
  deriving DecidableEq, Repr

/-- `mlist` -/
def formatRoom (format : Bytes) : Nat := 200 + format.length * 15

def listItem (par : Bytes) : Bytes := [44, 32] ++ par ++ [32]

/-- What `snprintf` writes to `n` bytes. -/
def snprintfBytes (text : Bytes) (n : Nat) : Bytes := if n = 0 then [] else text.take (n - 1) ++ [0]

/-- `clist += snprintf (*list+clist, mlist-clist, ", %s ", par)`. Where `clist` is more than `mlist`, the size is no
bound. -/
def FormatList.add (l : FormatList) (par : Bytes) : Except FormatFault FormatList :=
  if l.clist ≤ l.block.length then
    let bytes := snprintfBytes (listItem par) (l.block.length - l.clist)
    .ok { block := l.block.take l.clist ++ bytes ++ l.block.drop (l.clist + bytes.length)
          clist := l.clist + (listItem par).length }
  else .error .outside

/-! ## The check -/

def reported {α : Type} : Option α → Except FormatFault α
  | some a => .ok a
  | none => .error .reported

/-- The parameter that is next and those behind it: a comma is found unless the last placeholder was a percent sign. -/
def carveNext (perc : Bool) (par nc : Option Bytes) : Option Bytes × Option Bytes :=
  if perc then (par, nc) else
    match par with
    | some par => (some (carveComma par).1, (carveComma par).2)
    | none => (none, nc)

/-- The loop of `check_format`: what is left of the format, the parameter that is next and what is behind it, and
whether the last placeholder was a percent sign. -/
def formatLoop (checks : Checks) : Nat → Bytes → Option Bytes → Option Bytes → Bool → FormatList → Except FormatFault FormatList
  | 0, _, _, _, _, _ => .error .fuel
  | fuel + 1, next, par, nc, perc, list =>
    let next := next.dropWhile (· != 37)
    let carved := carveNext perc par nc
    if next = [] then if carved.1 = none then .ok list else .error .reported
    else
      match carved.1 with
      | none => .error .reported
      | some par =>
        if next.tail.head? = some 37 then formatLoop checks fuel next.tail.tail (some par) carved.2 true list
        else do
          let (kind, len) ← reported (placeholder next.tail)
          let text ← reported (checks.take kind par)
          let list ← list.add text
          formatLoop checks fuel (next.tail.drop len) carved.2 carved.2 false list

/-- `check_format`; `fresh` is what the memory of the list has in it. -/
def checkFormat (checks : Checks) (fresh : Nat → UInt8) (mtext : Bytes) (comma : Option Bytes) : Except FormatFault FormatList :=
  formatLoop checks (mtext.length + 1) mtext comma none false
    { block := (List.range (formatRoom mtext)).map fresh, clist := 0 }

end RimStone
