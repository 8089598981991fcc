import RimStone.Request.Body

/-!
# Comparing strings

The operators of conditions on strings: equal, and by the sign of `strncmp` for the others. Each has
a version that ignores case (`_c`), one that is limited to a length (`_l`), and one that is both. Reading
past the end of a string is undefined in C; the limits are such that it does not happen, since the null
that ends a string is read at most.
-/

namespace RimStone

def strncasecmp (n : Nat) (s t : Bytes) : Int := strncmp n (s.map tolower) (t.map tolower)

def strcasecmp (s t : Bytes) : Int := strcmp (s.map tolower) (t.map tolower)

def rimCmStrL (a : RimStr) (la : Nat) (b : RimStr) (lb : Nat) (l : Nat) : Bool :=
  if l > la ∨ l > lb then if la ≠ lb then false else memcmp la a.memory b.memory = 0
  else memcmp l a.memory b.memory = 0

def rimCmStrC (a : RimStr) (la : Nat) (b : RimStr) (lb : Nat) : Bool :=
  if la ≠ lb then false else strcasecmp a.memory b.memory = 0

def rimCmStrCL (a : RimStr) (la : Nat) (b : RimStr) (lb : Nat) (l : Nat) : Bool :=
  if l > la ∨ l > lb then if la ≠ lb then false else strncasecmp la a.memory b.memory = 0
  else strncasecmp l a.memory b.memory = 0

/-- The others: `cmp` up to one byte more than the shorter string has. -/
def cmStrSign (cmp : Nat → Bytes → Bytes → Int) (test : Int → Bool) (a : RimStr) (la : Nat) (b : RimStr) (lb : Nat) : Bool :=
  let lmin := min la lb + 1
  test (cmp lmin a.memory b.memory)

/-- The same, with a length. -/
def cmStrSignL (cmp : Nat → Bytes → Bytes → Int) (test : Int → Bool) (a : RimStr) (la : Nat) (b : RimStr) (lb : Nat)
    (l : Nat) : Bool :=
  let lmin := min la lb
  let l := if lmin < l then lmin + 1 else l
  test (cmp l a.memory b.memory)

def rimCmStrLess := cmStrSign strncmp (· < 0)

def rimCmStrLessL := cmStrSignL strncmp (· < 0)

def rimCmStrLessC := cmStrSign strncasecmp (· < 0)

def rimCmStrLessCL := cmStrSignL strncasecmp (· < 0)

def rimCmStrGr := cmStrSign strncmp (· > 0)

def rimCmStrGrL := cmStrSignL strncmp (· > 0)

def rimCmStrGrC := cmStrSign strncasecmp (· > 0)

def rimCmStrGrCL := cmStrSignL strncasecmp (· > 0)

def rimCmStrLesseq := cmStrSign strncmp (· ≤ 0)

def rimCmStrLesseqL := cmStrSignL strncmp (· ≤ 0)

def rimCmStrLesseqC := cmStrSign strncasecmp (· ≤ 0)

def rimCmStrLesseqCL := cmStrSignL strncasecmp (· ≤ 0)

def rimCmStrGreq := cmStrSign strncmp (· ≥ 0)

def rimCmStrGreqL := cmStrSignL strncmp (· ≥ 0)

def rimCmStrGreqC := cmStrSign strncasecmp (· ≥ 0)

def rimCmStrGreqCL := cmStrSignL strncasecmp (· ≥ 0)

end RimStone
