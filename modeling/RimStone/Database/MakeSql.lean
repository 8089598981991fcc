import RimStone.Database.PrepText

/-!
# A statement with data in it

`rim_make_SQL` puts its arguments into the text of a statement, each in the place of one `'%s'`. It escapes an argument
into a scratch buffer, which is the same for all of them, trims it there, and copies it between two quotes.

What `rim_db_escape` writes in front of its null is a parameter. `block` is what `rim_malloc` answers,
  and `scratch` what is
in the buffer before, on the stack or from `rim_malloc`. The answer is the text with its null, as long as it is set to be.
-/

namespace RimStone

/-- `max_inlen` and `max_arglen`, which begin with 0. -/
def sqlLengths (args : List Bytes) : Nat × Nat :=
  args.foldl (fun len arg => (len.1 + 2 * arg.length, if arg.length ≥ len.2 then arg.length else len.2)) (0, 0)

/-- `sarg` has 2048 bytes; another buffer is allocated where an argument may need more. -/
def sqlScratchSize (args : List Bytes) : Nat :=
  let maxArglen := 2 * (sqlLengths args).2 + 1
  if maxArglen ≤ 2048 then 2048 else maxArglen

/-- `while (len_of != 0 && isspace (*(val + len_of - 1))) len_of--;` -/
def sqlTrimRight (val : Bytes) : Nat → Option Nat
  | 0 => some 0
  | lenOf + 1 => do
    let c ← val[lenOf]?
    if isspace c then sqlTrimRight val lenOf else some (lenOf + 1)

/-- `while (*val != 0 && isspace (*val)) val++;` -/
def sqlTrimLeft : Bytes → Nat → Option Nat
  | [], _ => none
  | c :: val, i => if c ≠ 0 ∧ isspace c = true then sqlTrimLeft val (i + 1) else some i

/-- `*(val + len_of) = 0`, where the argument has any bytes -/
def sqlEndValue (val : Bytes) (len lenOf : Nat) : Option Bytes := if len ≠ 0 then poke val lenOf 0 else some val

/-- An argument in the scratch buffer: where its value begins, and how many bytes are copied from there. -/
def sqlArgument (escape : Bytes → Bytes) (scratch arg : Bytes) : Option (Bytes × Nat × Nat) := do
  let scratch ← memcpy scratch 0 (escape arg ++ [0])
  let lenOf ← sqlTrimRight scratch (escape arg).length
  let scratch ← sqlEndValue scratch (escape arg).length lenOf
  let val ← sqlTrimLeft scratch 0
  some (scratch, val, lenOf)

/-- `memcpy (curr, val, len_of)`, from the scratch buffer -/
def sqlCopy (block : Bytes) (n : Nat) (scratch : Bytes) (val lenOf : Nat) : Option Bytes :=
  if val + lenOf ≤ scratch.length then memcpy block n ((scratch.drop val).take lenOf) else none

/-- The text in front of a placeholder with its quote, the argument, and a quote. -/
def sqlWrite (block : Bytes) (n : Nat) (before scratch : Bytes) (val lenOf : Nat) : Option Bytes := do
  let block ← memcpy block n before
  let block ← sqlCopy block (n + before.length) scratch val lenOf
  poke block (n + before.length + lenOf) 39

/-- What is behind the last placeholder, and a null. -/
def sqlFinish (numOfPercents : Int) (cformat block : Bytes) (n : Nat) : Except (Fault Unit) Bytes :=
  match do
    let block ← memcpy block n cformat
    poke block (n + cformat.length) 0 with
  | none => .error .undefined
  | some block =>
    if numOfPercents ≠ 0 then
      .error (.report ("Too few non-NULL input parameters in input parameter list for SQL statement [%s], " ++
        "expected [%ld] non-NULL run-time arguments") ())
    else .ok (block.take (n + cformat.length + 1))

def sqlLoop (escape : Bytes → Bytes) : List Bytes → Int → Bytes → Bytes → Bytes → Nat → Except (Fault Unit) Bytes
  | [], numOfPercents, _, cformat, block, n => sqlFinish numOfPercents cformat block n
  | arg :: args, numOfPercents, scratch, cformat, block, n =>
    if numOfPercents - 1 < 0 then
      .error (.report ("Too many input parameters in input parameter list for SQL statement [%s], " ++
        "expected [%ld] input parameters") ())
    else
      match sqlArgument escape scratch arg with
      | none => .error .undefined
      | some (scratch, val, lenOf) =>
        match strstr cformat RIM_LOOK_S with
        | none => .error (.report "SQL not properly formatted (could not find '%%s' placeholder), text [%s], argument [%.100s]" ())
        | some pholder =>
          match sqlWrite block n (cformat.take (pholder + 1)) scratch val lenOf with
          | none => .error .undefined
          | some block =>
            sqlLoop escape args (numOfPercents - 1) scratch (cformat.drop (pholder + 4)) block
              (n + (pholder + 1) + lenOf + 1)

def rimMakeSQL (escape : Bytes → Bytes) (format : Bytes) (args : List Bytes) (scratch block : Bytes) :
    Except (Fault Unit) Bytes :=
  match rimCountSubstring format RIM_LOOK_S 4 true, rimCountSubstring format (ascii "'") 1 true with
  | some countPercents, some countSingleQuote =>
    if countSingleQuote % 2 ≠ 0 then .error (.report "Unbalanced single quotes in query [%s]" ())
    else sqlLoop escape args countPercents scratch format block 0
  | _, _ => .error .undefined

end RimStone
