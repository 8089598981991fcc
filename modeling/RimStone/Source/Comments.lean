import RimStone.Source.Keyword

/-!
# Comments

`rim_gen_c_code` reads a source file line by line, and takes the comments out of each line
before anything else. A comment that begins with `//` goes to the end of its line; one between
`/*` and `*/` may go over lines. A line that begins with `@` or `!` is output, and has no
comments.

A line is its bytes, without the null that ends it, once white space around it is trimmed and
continuations are joined to it.
-/

namespace RimStone

/-- Where the loop over the comments of a line is left. -/
structure CommentLoopEnd where
  line : Bytes
  ccommOpen : Bool
  ccommPos : Option Nat := none
  /-- `closing_ccomm_pos`, if `closing_ccomm_found` -/
  closing : Option Nat := none
  skipLine : Bool := false
  deriving DecidableEq, Repr

/-- The characters from `i` up to `j` are blanks. -/
def blankOut (line : Bytes) (i j : Nat) : Bytes := line.take i ++ List.replicate (j - i) 32 ++ line.drop j

def commentLoop : Nat → Bytes → Nat → Bool → Except SourceError CommentLoopEnd
  | 0, _, _, _ => .error .fuel
  | fuel + 1, line, lcheck, ccommOpen => do
    let clComment ← rimFindKeyword0 (line.drop lcheck) (ascii "/*") false false
    let crComment ← rimFindKeyword0 (line.drop lcheck) (ascii "*/") false false
    let lPos := clComment.map (· + lcheck)
    let rPos := crComment.map (· + lcheck)
    if ccommOpen then
      match rPos with
      | none => .ok { line, ccommOpen, skipLine := true }
      | some r => commentLoop fuel (line.drop (r + 2)) 0 false
    else
      match lPos, rPos with
      | none, none => .ok { line, ccommOpen }
      | some l, none => .ok { line := line.take l, ccommOpen := true, ccommPos := some l }
      | some l, some r =>
        if l < r then commentLoop fuel (blankOut line l (r + 2)) (r + 2) false
        else .ok { line, ccommOpen, closing := some r }
      | none, some r => .ok { line, ccommOpen, closing := some r }

/-- What is kept from one line to the next, `ccomm_open` and `ccomm_line`, where an open
comment began. -/
structure OpenComment where
  ccommOpen : Bool := false
  ccommLine : Nat := 0
  deriving DecidableEq, Repr

/-- The search for `//`, after the loop: the line, unless it is skipped. -/
def lineComment (lnum : Nat) (st : OpenComment) (e : CommentLoopEnd) : Except SourceError (Option Bytes × OpenComment) := do
  let ccommLine := if e.ccommPos.isSome then lnum else st.ccommLine
  match ← rimFindKeyword0 e.line (ascii "//") false false with
  | none => .ok (if e.skipLine then none else some e.line, ⟨e.ccommOpen, ccommLine⟩)
  | some len =>
    if e.closing.any (· < len) then .error .commentNotOpened
    else
      let ccommOpen := if e.ccommPos.any (len < ·) then false else e.ccommOpen
      .ok (if e.skipLine then none else some (e.line.take len), ⟨ccommOpen, ccommLine⟩)

def isOutput (line : Bytes) : Bool :=
  (line.dropWhile isspace).head? == some 64 || (line.dropWhile isspace).head? == some 33

def lineComments (lnum : Nat) (st : OpenComment) (line : Bytes) : Except SourceError (Option Bytes × OpenComment) :=
  if st.ccommOpen || !isOutput line then
    commentLoop (line.length + 2) line 0 st.ccommOpen >>= lineComment lnum st
  else .ok (some line, st)

/-- The comments of the lines from `lnum` on: what is left in each line. In a line that is
skipped, nothing is. -/
def rimGenComments (lnum : Nat) (st : OpenComment) : List Bytes → Except SourceError (List Bytes)
  | [] => if st.ccommOpen then .error (.commentNotClosed st.ccommLine) else .ok []
  | line :: lines => do
    let (text, st) ← lineComments lnum st line
    let texts ← rimGenComments (lnum + 1) st lines
    .ok (text.getD [] :: texts)

/-! ## What a comment is -/

inductive Mode where
  | code
  | string
  | escaped
  | opening
  /-- A comment, which began in this line or before it. -/
  | comment (here : Bool)
  | closing
  deriving DecidableEq, Repr

inductive LineEnd where
  | code
  | string
  /-- A comment is not closed, which began in this line or before it. -/
  | comment (here : Bool)
  /-- There is a mark that closes a comment, outside of comments. -/
  | stray
  deriving DecidableEq, Repr

def Mode.atEnd : Mode → LineEnd
  | .code | .closing => .code
  | .string | .escaped => .string
  | .opening => .comment true
  | .comment here => .comment here

/-- What is outside of comments, and blanks for each comment that does not go to the end. -/
structure Outside where
  text : Bytes
  last : LineEnd
  deriving DecidableEq, Repr

def Outside.push (c : UInt8) (o : Outside) : Outside := { o with text := c :: o.text }

/-- What is outside of the comments of a line, from a character in a mode on. -/
def outside : Mode → Bytes → Outside
  | mode, [] => ⟨[], mode.atEnd⟩
  | .code, c :: s =>
    if c = 47 ∧ s.head? = some 47 then ⟨[], .code⟩
    else if c = 47 ∧ s.head? = some 42 then (outside .opening s).push 32
    else if c = 42 ∧ s.head? = some 47 then ⟨[], .stray⟩
    else (outside (if c = 34 then .string else .code) s).push c
  | .string, c :: s => (outside (if c = 34 then .code else if c = 92 then .escaped else .string) s).push c
  | .escaped, c :: s => (outside .string s).push c
  | .opening, _ :: s => (outside (.comment true) s).push 32
  | .comment here, c :: s =>
    (outside (if c = 42 ∧ s.head? = some 47 then .closing else .comment here) s).push 32
  | .closing, _ :: s => (outside .code s).push 32

/-- The line in which the comment began that is open after a line, if there is one. -/
def LineEnd.since (lnum : Nat) (since : Option Nat) : LineEnd → Except SourceError (Option Nat)
  | .stray => .error .commentNotOpened
  | .code | .string => .ok none
  | .comment here => .ok (if here then some lnum else since)

/-- The text outside of the comments of the lines from `lnum` on, after a comment that began in
a line and was not closed. -/
def outsideLines (lnum : Nat) (since : Option Nat) : List Bytes → Except SourceError (List Bytes)
  | [] => match since with
    | some n => .error (.commentNotClosed n)
    | none => .ok []
  | line :: lines => do
    let o := outside (if since.isSome then .comment false else .code) line
    let since ← o.last.since lnum since
    let texts ← outsideLines (lnum + 1) since lines
    .ok (o.text :: texts)

def trimmed (text : Bytes) : Bytes := ((text.dropWhile isspace).reverse.dropWhile isspace).reverse

end RimStone
