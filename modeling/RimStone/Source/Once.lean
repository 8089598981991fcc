import RimStone.Lib.Run

/-!
# What is done once in a process

The code of `do-once` skips to the end of its block if a static variable says so, sets the variable, and goes on with
the block; that of `set-string` with `process-scope` does the same with an `if`. Static variables outlive a request.
An error, like `exit-handler`, is a long jump behind the handlers of a request, from where the process goes on to the
next one.

A process is run in small steps, with a stack of what is still to be done: the rest of a list of statements, of a
block, another execution of a loop, the return to a caller. What a statement of another kind does is not said. Whether
it ends in an error, and what a condition comes to, is an input of each step.
-/

namespace RimStone

/-- A block of code that is for once: a `do-once` by its number, or a `set-string` with `process-scope`, where it is
known whether the value is a constant. -/
inductive OnceBlock where
  | doOnce (n : Nat)
  | setString (n : Nat) (eqConst : Bool)
  deriving DecidableEq, Repr

/-- `static bool _rim_do_once_n = false;`, `static bool _rim_nstatn = true;` -/
def OnceBlock.initial : OnceBlock → Bool
  | .doOnce _ => false
  | .setString .. => true

inductive Leaving where
  | breakLoop
  | continueLoop
  /-- `return-handler`, `quit-process` -/
  | returnHandler
  | exitHandler
  | reportError
  deriving DecidableEq, Repr

inductive HandlerStmt where
  /-- Any other statement, and whether there are errors in it. -/
  | other (mayFail : Bool)
  | ifTrue (yes no : List HandlerStmt)
  | startLoop (body : List HandlerStmt)
  | callHandler (handler : Nat)
  | leave (how : Leaving)
  | once (o : OnceBlock)

/-- The handlers of an application, and the blocks of its `do-once`. -/
structure Handlers where
  body : Nat → List HandlerStmt
  doOnce : Nat → List HandlerStmt

/-- `rim_mem_add_ref` fails with too many references; it is not called for a constant. The assignment does not fail. -/
def Handlers.block (p : Handlers) : OnceBlock → List HandlerStmt
  | .doOnce n => p.doOnce n
  | .setString _ eqConst => if eqConst then [.other false] else [.other true, .other false]

inductive HandlerFrame where
  | code (rest : List HandlerStmt)
  | loop (body : List HandlerStmt)
  | caller
  /-- A block, from its statement `i` on. -/
  | block (o : OnceBlock) (i : Nat) (rest : List HandlerStmt)
  /-- A block in its statement `i`, and what comes after it. -/
  | inside (o : OnceBlock) (i : Nat) (rest : List HandlerStmt)

inductive OnceEvent where
  | did (o : OnceBlock) (i : Nat)
  | passed (o : OnceBlock)
  deriving DecidableEq, Repr

/-- A process: the stack, the static variables, and what was done, the last of it first. -/
structure Process where
  stack : List HandlerFrame := []
  statics : OnceBlock → Bool := OnceBlock.initial
  log : List OnceEvent := []

namespace Process

def pass (s : Process) (o : OnceBlock) : Process := { s with log := .passed o :: s.log }

def did (s : Process) (o : OnceBlock) (i : Nat) : Process := { s with log := .did o i :: s.log }

def stays : Leaving → HandlerFrame → Bool
  | .breakLoop, .loop _ => true
  | .breakLoop, .caller => true
  | .continueLoop, .loop _ => true
  | .continueLoop, .caller => true
  | .returnHandler, .caller => true
  | _, _ => false

/-- `break` leaves the loop, too. -/
def arrive : Leaving → List HandlerFrame → List HandlerFrame
  | .breakLoop, .loop _ :: k => k
  | _, k => k

def dropped (how : Leaving) (k : List HandlerFrame) : List HandlerFrame := k.takeWhile fun f => !stays how f

def leaveBy (how : Leaving) (s : Process) : Process :=
  { s with stack := arrive how (s.stack.dropWhile fun f => !stays how f) }

/-- A statement begins; with `choice` it ends in an error, or its condition holds. -/
def exec (p : Handlers) (choice : Bool) (s : Process) : HandlerStmt → Process
  | .other mayFail => if mayFail && choice then leaveBy .reportError s else s
  | .ifTrue yes no => { s with stack := .code (if choice then yes else no) :: s.stack }
  | .startLoop body => { s with stack := .loop body :: s.stack }
  | .callHandler handler => { s with stack := .code (p.body handler) :: .caller :: s.stack }
  | .leave how => leaveBy how s
  | .once o =>
    -- `if (_rim_do_once_n) goto _rim_end_do_once_n;`
    if s.statics o ≠ o.initial then s.pass o
    else { s with
      statics := fun o' => if o' = o then !o.initial else s.statics o'
      stack := .block o 0 (p.block o) :: s.stack }

def go (p : Handlers) (choice : Bool) (s : Process) : Process :=
  match s.stack with
  | [] => s
  | .code [] :: k => { s with stack := k }
  | .code (st :: rest) :: k => exec p choice { s with stack := .code rest :: k } st
  | .loop body :: k => { s with stack := if choice then .code body :: .loop body :: k else k }
  | .caller :: k => { s with stack := k }
  | .block o _ [] :: k => { s with stack := k }.pass o
  | .block o i (st :: rest) :: k => exec p choice { s with stack := .inside o i rest :: k } st
  | .inside o i rest :: k => { s with stack := .block o (i + 1) rest :: k }.did o i

inductive Input where
  | go (choice : Bool)
  /-- A request, and the handlers that are called for it: none if its input is not good. -/
  | request (handlers : List Nat)

/-- A request is taken where the one before is over. -/
def step (p : Handlers) (s : Process) : Input → Process
  | .go choice => s.go p choice
  | .request handlers =>
    if s.stack.isEmpty then { s with stack := [.code (handlers.map .callHandler)] } else s

end Process

end RimStone
