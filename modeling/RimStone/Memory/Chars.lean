import RimStone.Memory.Str

/-!
# Characters and blocks

What C offers on characters and on the bytes of one block. The code is compiled with
`-funsigned-char`, so a `char` has no sign. A block is the bytes it holds; to read or
write outside it is undefined, and then there is no result. A text is its bytes before the null.
-/

namespace RimStone

def ascii (s : String) : Bytes := s.toList.map fun c => UInt8.ofNat c.toNat

/-- The number a `char` stands for. -/
def charVal (c : UInt8) : Int := c.toNat

def isdigit (c : UInt8) : Bool := 48 ≤ c && c ≤ 57

/-- `isalnum`, in the `C` locale -/
def isalnum (c : UInt8) : Bool := isdigit c || (65 ≤ c && c ≤ 90) || (97 ≤ c && c ≤ 122)

/-- `isspace`, in the `C` locale -/
def isspace (c : UInt8) : Bool := c == 32 || (9 ≤ c && c ≤ 13)

/-- `strncmp`, up to the first null byte. Reading past the end of either run is
undefined; here it compares equal. -/
def strncmp : Nat → Bytes → Bytes → Int
  | 0, _, _ => 0
  | n + 1, a :: s, b :: t =>
    if a < b then -1 else if b < a then 1 else if a = 0 then 0 else strncmp n s t
  | _ + 1, _, _ => 0

/-- `b[i] = c` -/
def poke (b : Bytes) (i : Nat) (c : UInt8) : Option Bytes :=
  if i < b.length then some (b.set i c) else none

/-- `b[i]`, where the index has a sign -/
def peekAt (b : Bytes) (i : Int) : Option UInt8 := if 0 ≤ i then b[i.toNat]? else none

/-- `b[i] = c`, where the index has a sign -/
def pokeAt (b : Bytes) (i : Int) (c : UInt8) : Option Bytes :=
  if 0 ≤ i then poke b i.toNat c else none

/-- The loop of `strchr` over what is left, which begins at `i`. -/
def strchrLoop (c : UInt8) : Bytes → Nat → Option (Option Nat)
  | [], _ => none
  | x :: b, i => if x = c then some (some i) else if x = 0 then some none else strchrLoop c b (i + 1)

/-- `strchr (b + i, c)`, and `strstr` of one character: where it is, or `NULL` if there is
a null byte before it. -/
def strchr (b : Bytes) (i : Nat) (c : UInt8) : Option (Option Nat) := strchrLoop c (b.drop i) i

/-- `memcpy (b + i, src, n)`, where `src` are the `n` bytes. -/
def memcpy (b : Bytes) (i : Nat) (src : Bytes) : Option Bytes :=
  if i + src.length ≤ b.length then some (b.take i ++ src ++ b.drop (i + src.length)) else none

/-! ## Searching bytes -/

/-- `memchr`: where in these bytes it is -/
def memchr (c : UInt8) : Bytes → Option Nat
  | [] => none
  | x :: b => if x = c then some 0 else (memchr c b).map (· + 1)

/-- `strstr` of texts, and `memmem` of any bytes: where `t` is first in `s` -/
def strstr (s t : Bytes) : Option Nat :=
  match s with
  | [] => if t = [] then some 0 else none
  | c :: s => if (c :: s).take t.length = t then some 0 else (strstr s t).map (· + 1)

/-- `tolower`, in the `C` locale -/
def tolower (c : UInt8) : UInt8 := if 65 ≤ c ∧ c ≤ 90 then c + 32 else c

/-- `!strcasecmp (s, t)` -/
def sameCase (s t : Bytes) : Bool := s.map tolower == t.map tolower

/-- `strcasestr`: where `t` is first in `s` -/
def strcasestr (s t : Bytes) : Option Nat :=
  match s with
  | [] => if t = [] then some 0 else none
  | c :: s => if sameCase ((c :: s).take t.length) t then some 0 else (strcasestr s t).map (· + 1)

end RimStone
