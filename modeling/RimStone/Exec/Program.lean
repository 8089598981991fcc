import Mathlib.Logic.Function.Basic
import RimStone.Memory.Chars

/-!
# Executing a program

`rim_exec_program` creates a pipe for each of input, output and error that is a string, and
forks. The parent writes the whole input, closes its pipe, reads all output, then reads all
error output, and waits for the child. The child is any program: what it reads and writes is an
input of the model. The kernel moves at least one byte at a time, and as many as it likes.

Where a stream is a file, it does not block. `SIGPIPE` is ignored, so that a write to a child
that is gone is a reported error.
-/

namespace RimStone

inductive Stream where
  | out
  | err
  deriving DecidableEq, Repr

/-- What a child does before it exits. -/
inductive ChildOp where
  /-- `read` of no more than `n` bytes of the input -/
  | read (n : Nat)
  /-- `write` of `n` bytes -/
  | write (s : Stream) (n : Nat)
  deriving DecidableEq, Repr

/-- An execution: the number of bytes that are written, if there is an input string, which of
the streams are captured, and what the pipes can hold. -/
structure ExecProgram where
  inp : Option Nat
  captured : Stream → Bool
  capIn : Nat
  cap : Stream → Nat
  capIn_pos : 0 < capIn
  cap_pos : ∀ s, 0 < cap s

inductive ExecParent where
  /-- `write (pipe2child[1], inp, inp_len)`, with so many bytes left -/
  | write (left : Nat)
  /-- `rim_read_child` of a stream -/
  | read (s : Stream)
  | wait
  | returned
  /-- `rim_report_error` -/
  | failed
  deriving DecidableEq, Repr

def ExecParent.Ended : ExecParent → Prop
  | .returned | .failed => True
  | _ => False

def Stream.next : Stream → ExecParent
  | .out => .read .err
  | .err => .wait

structure ExecState where
  parent : ExecParent
  child : List ChildOp
  exited : Bool
  inPipe : Nat
  pipe : Stream → Nat

namespace ExecProgram

variable (c : ExecProgram)

/-- After `fork`. -/
def start (ops : List ChildOp) : ExecState where
  parent := c.inp.elim (.read .out) .write
  child := ops
  exited := false
  inPipe := 0
  pipe := fun _ => 0

inductive Step (s : ExecState) : ExecState → Prop
  /-- Bytes of the input for which there is room. -/
  | write {left k : Nat} : s.parent = .write left → s.exited = false → 0 < k → k ≤ left → s.inPipe + k ≤ c.capIn →
      Step s { s with parent := .write (left - k), inPipe := s.inPipe + k }
  | epipe {left : Nat} : s.parent = .write left → 0 < left → s.exited = true → Step s { s with parent := .failed }
  /-- All is written, and the pipe is closed. -/
  | written : s.parent = .write 0 → Step s { s with parent := .read .out }
  /-- The stream is not captured. -/
  | skip {st : Stream} : s.parent = .read st → c.captured st = false → Step s { s with parent := st.next }
  | read {st : Stream} {k : Nat} : s.parent = .read st → c.captured st = true → 0 < k → k ≤ s.pipe st →
      Step s { s with pipe := Function.update s.pipe st (s.pipe st - k) }
  /-- The end of a stream, which is when the child closed it. -/
  | eof {st : Stream} : s.parent = .read st → c.captured st = true → s.pipe st = 0 → s.exited = true →
      Step s { s with parent := st.next }
  | wait : s.parent = .wait → s.exited = true → Step s { s with parent := .returned }
  | childRead {n k : Nat} {ops : List ChildOp} : s.exited = false → s.child = .read n :: ops → 0 < k → k ≤ n →
      k ≤ s.inPipe → Step s { s with child := ops, inPipe := s.inPipe - k }
  /-- Nothing is asked for, or the input is at its end. -/
  | childReadEnd {n : Nat} {ops : List ChildOp} : s.exited = false → s.child = .read n :: ops →
      (n = 0 ∨ s.inPipe = 0 ∧ ∀ left, s.parent ≠ .write left) → Step s { s with child := ops }
  | childWrite {st : Stream} {n k : Nat} {ops : List ChildOp} : s.exited = false → s.child = .write st n :: ops →
      c.captured st = true → 0 < k → k ≤ n → s.pipe st + k ≤ c.cap st →
      Step s { s with child := .write st (n - k) :: ops, pipe := Function.update s.pipe st (s.pipe st + k) }
  /-- The write is done, or it is to a file. -/
  | childWritten {st : Stream} {n : Nat} {ops : List ChildOp} : s.exited = false → s.child = .write st n :: ops →
      (n = 0 ∨ c.captured st = false) → Step s { s with child := ops }
  | childExit : s.exited = false → s.child = [] → Step s { s with exited := true }

end ExecProgram

/-!
## The output of a program

`rim_read_child` reads what a program writes, as it comes, into one block that grows: `tread` is what the block has
behind the bytes read so far, and one byte of it is kept for a null. `read` answers a part of what it is asked for, no
bytes at the end, or that it failed; it may write as many bytes as it is asked for, so to ask for more than there is
room for is undefined.
-/

/-- The least that is asked for. -/
def EXEC_BLEN : Int := 2048

/-- What a block of `n` bytes holds at `i` where nothing was written. -/
abbrev Junk := Nat → Nat → UInt8

/-- `rim_realloc`: a block of `n` bytes that begins as `b` does. -/
def resize (junk : Junk) (b : Bytes) (n : Nat) : Bytes := (List.range n).map fun i => (b[i]?).getD (junk n i)

/-- The local variables of `rim_read_child`, with the block at `out_buf`. -/
structure ChildOutput where
  outBuf : Bytes
  curr : Nat
  tread : Int

namespace ChildOutput

def start (junk : Junk) : ChildOutput where
  outBuf := resize junk [] EXEC_BLEN.toNat
  curr := 0
  tread := EXEC_BLEN

/-- How many bytes `read` is asked for. -/
def request (s : ChildOutput) : Int := s.tread - 1

/-- What `tread` is after `rd` bytes more. -/
def nextTread (s : ChildOutput) (rd curr : Int) : Int :=
  if rd < s.tread - 1 then if rd < EXEC_BLEN then EXEC_BLEN else rd + 1
  else if s.tread < 4096 then s.tread * 2
  else if curr > 8 * s.tread then curr.tdiv 4
  else s.tread

/-- `read (ofd, *out_buf + curr, tread - 1)`, which answers the bytes `rd`. -/
def receive (s : ChildOutput) (rd : Bytes) : Option Bytes :=
  if 0 ≤ s.request ∧ s.curr + s.request ≤ s.outBuf.length then memcpy s.outBuf s.curr rd else none

/-- A round of the loop in which the bytes `rd` are read. -/
def round (junk : Junk) (s : ChildOutput) (rd : Bytes) : Option ChildOutput := do
  let outBuf ← s.receive rd
  let curr := s.curr + rd.length
  let tread := s.nextTread rd.length curr
  some { outBuf := resize junk outBuf (curr + tread).toNat, curr, tread }

/-- After the loop: the block, and what its length is set to. -/
def finish (junk : Junk) (s : ChildOutput) : Option (Bytes × Nat) := do
  let outBuf ← poke s.outBuf s.curr 0
  some (resize junk outBuf (s.curr + 1), s.curr + 1)

/-- The loop, where `read` answers as `answers` say, and that there is no more after them. -/
def loop (junk : Junk) : ChildOutput → List (Option Bytes) → Except (Fault Unit) ChildOutput
  | s, [] => .ok s
  | _, none :: _ => .error (.report "Cannot read from program execution, error [%d], error text [%s]" ())
  | s, some rd :: answers =>
    if rd = [] then .ok s
    else
      match s.round junk rd with
      | some s => loop junk s answers
      | none => .error .undefined

end ChildOutput

def rimReadChild (junk : Junk) (answers : List (Option Bytes)) : Except (Fault Unit) (Bytes × Nat) := do
  let s ← (ChildOutput.start junk).loop junk answers
  match s.finish junk with
  | some out => .ok out
  | none => .error .undefined

end RimStone
