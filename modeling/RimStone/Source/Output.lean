import RimStone.Source.Keyword

/-!
# Output lines

A line that begins with `@` or `!` is output. `rim_gen_c_code` writes it as a comment and as a call of `rim_puts` with
the line as a literal, where a placeholder stands for the length. All code goes through `oprintf`, which puts `#line`
directives between the lines, and in the end the code is rid of calls without text and of empty lines, and
`convert_puts` writes the lengths over the placeholders.

The code is the bytes of `oline`; the text in front of some place is read backwards, from its last byte. A line of the
source has no null and no line break, and the parts of `oprintf` for the room in the buffer and for the level of the
blocks, which do not change the code, are left out.
-/

namespace RimStone

/-! ## Replacing and measuring -/

/-- `rim_replace_string` of all occurrences by a text that is no longer, so that there is room. `skip` bytes belong to
an occurrence that was replaced. -/
def replaceString (find subst : Bytes) : Nat → Bytes → Bytes
  | _, [] => []
  | skip + 1, _ :: s => replaceString find subst skip s
  | 0, c :: s =>
    if find.isPrefixOf (c :: s) then subst ++ replaceString find subst (find.length - 1) s
    else c :: replaceString find subst 0 s

/-- What `convert_puts` writes over, whose length is `elen`. -/
def RIM_EMPTY_LONG_PLAIN_ZERO : Bytes := ascii "RIM_EMPTY_LONG_PLAIN_ZERO"

/-- `%*ld` with the width `elen` -/
def lengthText (totstr : Nat) : Bytes :=
  let digits := ascii (Nat.repr totstr)
  List.replicate (RIM_EMPTY_LONG_PLAIN_ZERO.length - digits.length) 32 ++ digits

/-- `while (i-- != pline) if (isspace (*i)) continue; else break;` from a place with `behind` in front of it: the
character where it stops, and what is in front of that. -/
def backOverBlanks (behind : Bytes) : Except SourceError (UInt8 × Bytes) :=
  match behind.dropWhile isspace with
  | [] => .error .undefined
  | c :: r => .ok (c, r)

/-- The loop over the literal, at `i`: the number of characters, and what is in front of where it ends. -/
def backOverLiteral : Nat → Bytes → Except SourceError (Nat × Bytes)
  | totstr, c :: d :: r =>
    if d = 0 then .ok (totstr, d :: r)
    else if d = 92 then backOverLiteral (totstr + 1) r
    else if c = 34 then .ok (totstr, d :: r)
    else backOverLiteral (totstr + 1) (d :: r)
  | _, _ => .error .undefined

inductive Ahead where
  /-- no literal, so that the placeholder stays -/
  | other
  /-- the text begins, where `convert_puts` returns -/
  | nothing
  | literal (totstr : Nat)
  deriving DecidableEq, Repr

/-- `convert_puts` at a placeholder with `behind` in front of it. -/
def lookAhead (behind : Bytes) : Except SourceError Ahead := do
  let (c, r) ← backOverBlanks behind
  if c ≠ 44 then .ok .other
  else if r = [] then .ok .nothing
  else do
    let (c, r) ← backOverBlanks r
    if c ≠ 34 then .ok .other
    else if r = [] then .ok .nothing
    else do
      let (totstr, r) ← backOverLiteral 0 r
      let (c, _) ← backOverBlanks r
      .ok (if c ≠ 44 then .other else .literal totstr)

/-- The loop of `convert_puts`, with `behind` in front of the place it has come to. `text` is what goes over the next
bytes. -/
def convertLoop : Bytes → Bytes → Bytes → Except SourceError Bytes
  | _, behind, [] => .ok behind.reverse
  | o :: text, behind, _ :: s => convertLoop text (o :: behind) s
  | [], behind, c :: s =>
    if !RIM_EMPTY_LONG_PLAIN_ZERO.isPrefixOf (c :: s) then convertLoop [] (c :: behind) s
    else do
      match ← lookAhead behind with
      | .other => convertLoop RIM_EMPTY_LONG_PLAIN_ZERO.tail (c :: behind) s
      | .nothing => .ok (behind.reverse ++ c :: s)
      | .literal totstr => convertLoop (lengthText totstr).tail ((lengthText totstr).headD c :: behind) s

def convertPuts (pline : Bytes) : Except SourceError Bytes := convertLoop [] [] pline

/-! ## The output of code -/

/-- What is in front of a literal, behind it and behind the placeholder. -/
def putsOpen : Bytes := ascii "rim_puts (RIM_NOENC, \""
def putsClose : Bytes := ascii "\", "
def putsEnd : Bytes := ascii ", false);"

def putsNothing : Bytes := putsOpen ++ putsClose ++ RIM_EMPTY_LONG_PLAIN_ZERO ++ putsEnd

/-- The loop that makes line breaks single: `lsub` is the length before. -/
def singleLines : Nat → Nat → Bytes → Bytes
  | 0, _, oline => oline
  | fuel + 1, lsub, oline =>
    let oline := replaceString [10, 10] [10] 0 oline
    if lsub = oline.length then oline else singleLines fuel oline.length oline

/-- `oprintf (NULL)`: the code as it is written out. -/
def flushCode (oline : Bytes) : Except SourceError Bytes :=
  let oline := replaceString (putsNothing ++ [10]) [] 0 oline
  let oline := replaceString putsNothing [] 0 oline
  let oline := replaceString [10, 10] [10] 0 oline
  convertPuts (singleLines (oline.length + 1) oline.length oline)

/-- What the code is generated for: whether there are `#line` directives (`no_rim_line`), the path they name, from
`rim_valid_rim_dir` and `rim_valid_rim_name`, and what `rim_basename` makes of it. -/
structure GenFile where
  noRimLine : Bool
  path : Bytes
  base : Bytes
  deriving DecidableEq, Repr

/-- The code so far, with the state of `oprintf`: `oline_prev_line`, and where and for which line the last directive was
written. -/
structure Oline where
  oline : Bytes := []
  prevLine : Bool := false
  lastPos : Nat := 0
  lastLine : Nat := 0
  deriving DecidableEq, Repr

/-- `RIM_EMIT_LINE` -/
def GenFile.emitLine (g : GenFile) (lnum : Nat) : Bool := !g.noRimLine && 0 < lnum

/-- A `#line` directive, without its line break. -/
def GenFile.directive (g : GenFile) (lnum : Nat) : Bytes :=
  ascii "#line " ++ ascii (Nat.repr lnum) ++ ascii " \"" ++ g.path ++ [34]

/-- `can_write_line_number` -/
def Oline.canWrite (o : Oline) (lnum : Nat) : Bool := !(o.oline.length = o.lastPos && o.lastLine = lnum)

/-- `oprintf`, of the text that its format makes. -/
def GenFile.oprintf (g : GenFile) (lnum : Nat) (o : Oline) (text : Bytes) : Oline :=
  let o :=
    if o.prevLine && g.emitLine lnum then
      if o.canWrite lnum then
        { oline := o.oline ++ g.directive lnum ++ [10], prevLine := false, lastPos := o.oline.length, lastLine := lnum }
      else { o with prevLine := false }
    else o
  { o with oline := o.oline ++ text, prevLine := o.prevLine || text.contains 10 }

/-- The directive in front of a line of the source, where `oprintf` writes no other one. -/
def GenFile.beginLine (g : GenFile) (lnum : Nat) (o : Oline) : Oline :=
  if g.emitLine lnum && o.canWrite lnum then
    let oline := o.oline ++ [10] ++ g.directive lnum ++ [10]
    { oline, prevLine := true, lastPos := oline.length, lastLine := lnum }
  else o

/-- What is written for a character of an output line. -/
def outputChar (c : UInt8) : Bytes := if c = 34 then [92, 34] else if c = 92 then [92, 92] else [c]

/-- A line of a source is shorter. -/
def RIM_FILE_LINE_LEN : Nat := 65536

/-- An output line of the source: its number, the `@` or `!` it begins with, and the text. -/
structure OutputLine where
  lnum : Nat
  mark : UInt8
  text : Bytes
  deriving DecidableEq, Repr

/-- The literal of an output line, within its quotes: the line and a line break. -/
def literalText (text : Bytes) : Bytes := text.flatMap outputChar ++ ascii "\\n"

/-- `rim_gen_c_code` with an output line without inline code. `place` says what is written where the length of a literal
belongs. -/
def GenFile.outputLine (g : GenFile) (place : Bytes → Bytes) (o : Oline) (l : OutputLine) : Oline :=
  let print := g.oprintf l.lnum
  let o := g.beginLine l.lnum o
  let o := print o (ascii "//" ++ l.mark :: l.text ++ [10])
  let o := if l.text = [] then print o [10] else o
  let o := print o putsOpen
  let o := l.text.foldl (fun o c => print o (outputChar c)) o
  print o (ascii "\\n" ++ putsClose ++ place (literalText l.text) ++ putsEnd ++ [10])

/-- The code that `rim_gen_c_code` begins with. -/
def GenFile.includes (g : GenFile) : Oline :=
  g.oprintf 0 (g.oprintf 0 {} (ascii "#include \"rim.h\"\n")) (ascii "#include \"rim_sparam_" ++ g.base ++ ascii ".h\"\n")

/-- The code of a file of output lines, which has `lnum` lines. -/
def GenFile.code (g : GenFile) (place : Bytes → Bytes) (ls : List OutputLine) (lnum : Nat) : Bytes :=
  (g.oprintf lnum (ls.foldl (g.outputLine place) g.includes) (ascii "// END OF GENERATED CODE\n")).oline

/-- The code as it is written out. The placeholder is written for every length. -/
def GenFile.genCode (g : GenFile) (ls : List OutputLine) (lnum : Nat) : Except SourceError Bytes :=
  flushCode (g.code (fun _ => RIM_EMPTY_LONG_PLAIN_ZERO) ls lnum)

end RimStone
