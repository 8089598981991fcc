import RimStone.Database.Session
import RimStone.Request.Body
import RimStone.Text.ReplaceString

/-!
# The text of a prepared statement

`rim_db_prep_text` writes the text of a query with what a vendor has for a parameter in the place of
`'%s'`. A text is its bytes before the null. `block` is what `rim_malloc` answers.

`rim_lite_escape` copies a string and doubles its backslashes, and then its quotes, where they are. `frm` and `dst` are the
memory from each on.
-/

namespace RimStone

/-- The loop of `rim_count_substring`. -/
def countLoop (search : Bytes → Bytes → Option Nat) (find : Bytes) (len : Nat) : Nat → Bytes → Nat → Option Nat
  | 0, _, _ => none
  | fuel + 1, tmp, count =>
    match search tmp find with
    | some i => countLoop search find len fuel (tmp.drop (i + len)) (count + 1)
    | none => some count

def rimCountSubstring (str find : Bytes) (lenFind : Nat) (caseSensitive : Bool) : Option Nat :=
  if find = [] then some 0
  else
    let len := if lenFind ≠ 0 then lenFind else find.length
    countLoop (if caseSensitive then strstr else strcasestr) find len (str.length + 1) str 0

def RIM_LOOK_S : Bytes := ascii "'%s'"

/-- What is written for parameter `p`. -/
def paramMark (db : DbVendor) (p : Nat) : Bytes :=
  match db with
  | .mariadb | .sqlite => ascii "?"
  | .postgres => 36 :: ascii (Nat.repr p)

def prepSize (db : DbVendor) (t : Bytes) (tot : Nat) : Nat :=
  match db with
  | .mariadb | .sqlite => t.length + 1
  | .postgres => t.length + tot * 6 + 1

/-- The mark is written; `sprintf` writes a null behind it. -/
def writeMark (db : DbVendor) (p : Nat) (block : Bytes) (n : Nat) : Option Bytes :=
  match db with
  | .mariadb | .sqlite => poke block n 63
  | .postgres => memcpy block n (paramMark db p ++ [0])

/-- The loop: `n` is where the next byte goes, `p` is the number of the next parameter. It leaves off after as many
as PostgreSQL supports. -/
def prepLoop (db : DbVendor) : Nat → Bytes → Bytes → Nat → Nat → Option Bytes
  | 0, _, _, _, _ => none
  | fuel + 1, t, block, n, p =>
    match strstr t RIM_LOOK_S with
    | some f => do
      let block ← memcpy block n (t.take f)
      let n := n + f
      let block ← writeMark db p block n
      let n := n + (paramMark db p).length
      let block ← poke block n 0
      let t := t.drop (f + 4)
      if p + 1 > 65535 then some block else prepLoop db fuel t block n (p + 1)
    | none => memcpy block n (t ++ [0])

/-- `rim_db_prep_text`: the text that it answers. -/
def rimDbPrepText (db : DbVendor) (t block : Bytes) : Except (Fault Unit) Bytes :=
  match rimCountSubstring t RIM_LOOK_S 4 false with
  | none => .error .undefined
  | some tot =>
    if tot = 0 then .ok t
    else
      match prepLoop db (t.length + 1) t block 0 1 with
      | some block => .ok (block.takeWhile (· ≠ 0))
      | none => .error .undefined

/-! ## Escaping a string for SQLite -/

/-- `rim_replace_string (to, 2 * *len + 1, find, subst, 1, NULL, 1)` -/
def liteReplace (dst : Bytes) (len : Nat) (find subst : String) : Option (Bytes × Int) := do
  let (dst, _, res) ← rimReplaceString dst
    { find := ascii find, subst := ascii subst, strsize := 2 * len + 1, all := true, caseSensitive := true }
  some (dst, res)

/-- `rim_lite_escape`: the answer, and what `dst` and `*len` are after it. -/
def rimLiteEscape (frm dst : Bytes) (len : Nat) : Option (Int × Bytes × Int) := do
  if len + 1 ≤ frm.length then do
    let dst ← memcpy dst 0 (frm.take (len + 1))
    let (dst, res) ← liteReplace dst len "\\" "\\\\"
    if res = -1 then some (1, dst, len)
    else do
      let (dst, res) ← liteReplace dst len "'" "''"
      if res = -1 then some (1, dst, res) else some (0, dst, res)
  else none

end RimStone
