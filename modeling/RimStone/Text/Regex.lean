import RimStone.Laws.Memory.Str
import RimStone.Memory.Chars

/-!
# Search by regular expression

`rim_regex` calls the matcher on the text, and again on what is behind the match, until there is no match or nothing
is left. With a replacement it makes a result: the text between the matches, and for each match the replacement, in
which a backslash and one or two digits stand for a subexpression of the match. The matcher is a library's; what it is
here is the function of a text that gives the match and its subexpressions, `subexp`.

The texts are those up to the null. A loop has `fuel`, and nothing is said of it where that is used up.
-/

namespace RimStone

/-- `regmatch_t`: where a subexpression is, or -1 -/
structure Regmatch where
  so : Int
  eo : Int
  deriving DecidableEq, Repr

/-- `rim_pcre2_regexec`, with no flags -/
abbrev Regexec := Bytes → Option (List Regmatch)

inductive RegexFault where
  | undefined
  | fuel
  deriving DecidableEq, Repr

/-- An access to memory, which is undefined outside of its block. -/
def inRegex {α : Type} : Option α → Except RegexFault α
  | some a => .ok a
  | none => .error .undefined

/-- `last_look_here + eo` -/
def lookBehind (look : Bytes) (eo : Int) : Except RegexFault Bytes :=
  inRegex (if 0 ≤ eo ∧ eo ≤ look.length then some (look.drop eo.toNat) else none)

/-! ## The result -/

/-- `*res`, of `res_allocated` bytes, with `res_needed` and `replace_res_len` -/
structure RegexRes where
  block : Bytes
  needed : Int
  len : Nat
  deriving DecidableEq, Repr

def RegexRes.start : RegexRes := { block := [0], needed := 1, len := 0 }

/-- `RIM_ALLOC_REPLACE`. What `rim_realloc` adds is not read before it is written. -/
def RegexRes.alloc (r : RegexRes) (addlen : Int) : RegexRes :=
  let needed := r.needed + (addlen + 1)
  if r.block.length ≤ needed then
    { r with needed, block := r.block ++ List.replicate ((needed + 512).toNat - r.block.length) 0 }
  else { r with needed }

/-- What `strncpy (.., text + so, n)` writes: `n` bytes, nulls where the text ends before. -/
def strncpy (text : Bytes) (so n : Int) : Option Bytes :=
  if n = 0 then some []
  else if 0 ≤ so ∧ so ≤ text.length ∧ 0 ≤ n then some ((text.drop so.toNat).take n.toNat ++ List.replicate (n.toNat - (text.length - so.toNat)) 0)
  else none

/-- Room for `n` bytes, `n` bytes of a text, and a null. -/
def RegexRes.copy (r : RegexRes) (text : Bytes) (so n : Int) : Except RegexFault RegexRes := inRegex do
  let r := r.alloc n
  let bytes ← strncpy text so n
  let block ← memcpy r.block r.len bytes
  let block ← poke block (r.len + bytes.length) 0
  some { r with block, len := r.len + bytes.length }

/-! ## The replacement -/

def digitOf (c : UInt8) : Nat := c.toNat - 48

/-- `actsub` and `sdig` for a backslash with the digit `d` and what is behind it; `sdig` is what it was before. -/
def subReference (sub : Nat) (sdig : Bool) (d : UInt8) (v : Bytes) : Nat × Bool :=
  let two := digitOf d * 10 + digitOf (v.headD 0)
  let sdig := if sub > 9 ∧ isdigit (v.headD 0) then (if two > sub then true else sdig) else true
  (if sdig then (if digitOf d > sub then 0 else digitOf d) else two, sdig)

/-- The search for a reference: how many bytes are passed, and `actsub` and `sdig` where there is one. -/
def referenceLoop (sub : Nat) : Bool → Bytes → Nat × Option (Nat × Bool)
  | sdig, c :: d :: v =>
    if c = 92 ∧ isdigit d then
      let (actsub, sdig) := subReference sub sdig d v
      if actsub < 1 then
        let (n, ref) := referenceLoop sub sdig v
        (n + 2, ref)
      else (0, some (actsub, sdig))
    else
      let (n, ref) := referenceLoop sub sdig (d :: v)
      (n + 1, ref)
  | _, v => (v.length, none)

/-- The replacement for one match, from `current_replace` on. -/
def replaceLoop (sub : Nat) (look : Bytes) (subexp : List Regmatch) : Nat → Bytes → RegexRes → Except RegexFault RegexRes
  | 0, _, _ => .error .fuel
  | fuel + 1, current, r =>
    match referenceLoop sub false current with
    | (n, none) => r.copy current 0 n
    | (n, some (actsub, sdig)) => do
      let r ← r.copy current 0 n
      let m ← inRegex subexp[actsub]?
      let r ← r.copy look m.so (m.eo - m.so)
      replaceLoop sub look subexp fuel (current.drop (n + if sdig then 2 else 3)) r

/-! ## The search -/

/-- What is done with a match: `last_look_here` goes behind it, and it is replaced. -/
def regexMatch (sub : Nat) (replace : Option Bytes) (look : Bytes) (subexp : List Regmatch) (r : RegexRes) :
    Except RegexFault (Bytes × RegexRes) := do
  let m ← inRegex subexp[0]?
  let r ← match replace with
    | none => .ok r
    | some replace => do
      let r ← r.copy look 0 m.so
      replaceLoop sub look subexp (replace.length + 1) replace r
  let look ← lookBehind look m.eo
  .ok (look, r)

/-- The loop over the matches: `tot_match`, what is left of the text, and the result. -/
def regexLoop (exec : Regexec) (sub : Nat) (replace : Option Bytes) (single : Bool) :
    Nat → Bytes → Nat → RegexRes → Except RegexFault (Nat × Bytes × RegexRes)
  | 0, _, _, _ => .error .fuel
  | fuel + 1, look, tot, r =>
    if look = [] then .ok (tot, look, r)
    else
      match exec look with
      | none => .ok (tot, look, r)
      | some subexp => do
        let (look, r) ← regexMatch sub replace look subexp r
        if single then .ok (tot + 1, look, r) else regexLoop exec sub replace single fuel look (tot + 1) r

/-- The end of the result: what is left of the text, with its null. It is the bytes of the length that is set. -/
def RegexRes.finish (r : RegexRes) (rest : Bytes) : Except RegexFault Bytes := inRegex do
  let r := r.alloc rest.length
  let block ← memcpy r.block r.len (rest ++ [0])
  some (block.take (r.len + rest.length))

/-- `rim_regex`, for a pattern with `sub` subexpressions that could be compiled: how many matches there are, and the
result -/
def rimRegex (exec : Regexec) (sub : Nat) (lookHere : Bytes) (replace : Option Bytes) (single : Bool) (fuel : Nat) :
    Except RegexFault (Nat × Option Bytes) := do
  let (tot, rest, r) ← regexLoop exec sub (replace.map cstr) single fuel (cstr lookHere) 0 RegexRes.start
  match replace with
  | none => .ok (tot, none)
  | some _ => do
    let res ← r.finish rest
    .ok (tot, some res)

end RimStone
