import RimStone.Text.Edit

/-!
# Arguments of service processes

`tokarg` splits the text of `-a` where it is: an argument ends in a null that is written over what follows it,
and `xarg` points to where it begins. What `execvp` gets is the table up to its first `NULL`.
-/

namespace RimStone

/-- An entry of `xarg`. -/
inductive XArg where
  | null
  | command
  /-- `parg + pos` -/
  | text (pos : Nat)
  deriving DecidableEq, Repr

def RIM_MAX_ARGS : Nat := 64

/-- What `tokarg` works with. `quote` is not set before it is used. -/
structure Tokarg where
  parg : Bytes
  xarg : List XArg
  carg : Nat
  c : Nat
  instring : Bool
  begstring : Nat
  quote : UInt8
  begarg : Nat
  deriving DecidableEq, Repr

/-- Why `tokarg` does not come back. -/
inductive TokargFault where
  /-- A read or a write outside of the text, or of the table. -/
  | undefined
  /-- Too many arguments specified for service processes [%ld] -/
  | tooMany (carg : Nat)
  /-- Unterminated string in arguments specified for service process, at [%ld] -/
  | unterminated (begstring : Nat)
  /-- The loop goes on. -/
  | fuel
  deriving DecidableEq, Repr

namespace Tokarg

/-- `xarg[carg++] = a` -/
def store (st : Tokarg) (a : XArg) : Option Tokarg :=
  if st.carg < st.xarg.length then some { st with xarg := st.xarg.set st.carg a, carg := st.carg + 1 } else none

/-- A null after the argument; the next one begins after the white space. -/
def endArg (st : Tokarg) : Option Tokarg := do
  let parg ← poke st.parg st.c 0
  let n ← trimFrontLoop (parg.drop (st.c + 1)) 0
  some { st with parg, c := st.c + 1 + n, begarg := st.c + 1 + n }

def round (st : Tokarg) : Option (Tokarg × Bool) := do
  let x ← st.parg[st.c]?
  if st.instring = false ∧ (x = 34 ∨ x = 39) then
    some ({ st with instring := true, quote := x, c := st.c + 1, begstring := st.c + 1 }, true)
  else if st.instring = true ∧ x = st.quote then do
    let st ← { st with instring := false }.store (.text st.begstring)
    let st ← st.endArg
    some (st, true)
  else if st.instring = false ∧ isspace x = true then do
    let st ← st.store (.text st.begarg)
    let st ← st.endArg
    some (st, true)
  else if x = 0 then
    if st.instring = true then some (st, false)
    else do
      let y ← st.parg[st.begarg]?
      let st ← if y ≠ 0 then st.store (.text st.begarg) else some st
      some (st, false)
  else some ({ st with c := st.c + 1 }, true)

def loop : Nat → Tokarg → Except TokargFault Tokarg
  | 0, _ => .error .fuel
  | fuel + 1, st =>
    match st.round with
    | none => .error .undefined
    | some (st, false) => .ok st
    | some (st, true) => if st.carg ≥ RIM_MAX_ARGS - 1 then .error (.tooMany st.carg) else loop fuel st

/-- After the loop: `xarg[carg] = NULL`. -/
def close (st : Tokarg) : Except TokargFault Tokarg :=
  if st.instring = true then .error (.unterminated st.begstring)
  else if st.carg < st.xarg.length then .ok { st with xarg := st.xarg.set st.carg .null } else .error .undefined

end Tokarg

def tokarg (parg : Bytes) : Except TokargFault Tokarg :=
  match trimFrontLoop parg 0 with
  | none => .error .undefined
  | some n => do
    let xarg := XArg.command :: List.replicate (RIM_MAX_ARGS - 1) .null
    let st ← Tokarg.loop (parg.length + 1)
      { parg, xarg, carg := 1, c := n, instring := false, begstring := 0, quote := 0, begarg := n }
    st.close

/-- An argument that `execvp` gets. -/
inductive Argument where
  | command
  | word (s : Bytes)
  deriving DecidableEq, Repr

def argumentsOf (parg : Bytes) : List XArg → List Argument
  | .command :: xarg => .command :: argumentsOf parg xarg
  | .text pos :: xarg => .word ((parg.drop pos).takeWhile (· ≠ 0)) :: argumentsOf parg xarg
  | .null :: _ => []
  | [] => []

/-- `execvp (command, xarg)` -/
def Tokarg.arguments (st : Tokarg) : List Argument := argumentsOf st.parg st.xarg

end RimStone
