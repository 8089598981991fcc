import Mathlib.Algebra.Group.Pi.Basic
import Mathlib.Algebra.Ring.Int.Defs
import Mathlib.Algebra.Ring.Nat
import Mathlib.Logic.Function.Basic

/-!
# The memory table

`rimmem.c` keeps every block the program holds in one array, `vm[]`, and
threads two lists through the array's single `next` field: the released
entries, from `vm_first_free`, and the ordinary memory of the running request,
from `vm_first_ord`. Process-scoped entries are on neither list. Each block
carries a header with the index of its entry, so that a pointer leads back to
its entry.

The conventions of this model:

* a block is named by its address, the value `malloc` answers; the pointer the
  program uses is the same block, `RIM_ALIGN` bytes further on;
* an index of `-1` is `none`: the end of a list, or a header that says the
  memory is a constant and not in `vm[]`;
* the answer of `malloc`, `calloc` and `realloc` is an input of each function,
  with `none` for `NULL`;
* growing the array itself (`realloc` of `vm`) succeeds.

A function that can leave through `rim_report_error` returns the table as it
stands at the jump (`Fault.report`): the request ends there and the process
goes on with that table. `Fault.undefined` is behaviour the C program does not
define, such as reading `vm[-1]`.
-/

namespace RimStone

abbrev Addr := Nat

/-- The ways a call can fail to return. -/
inductive Fault (σ : Type) where
  /-- `rim_report_error` with a message: the request ends, the process keeps `state`. -/
  | report (message : String) (state : σ)
  | undefined

/-- The bits of an entry's `status`. -/
structure MemStatus where
  /-- `RIM_MEM_FREE`: the entry is released. -/
  free : Bool := false
  /-- `RIM_MEM_FILE`: a file that must be closed with the request. -/
  file : Bool := false
  /-- `RIM_MEM_PROCESS`: the memory outlives the request. -/
  process : Bool := false
  /-- `RIM_MEM_DIR`: a directory that must be closed with the request. -/
  dir : Bool := false
  deriving DecidableEq, Repr

/-- Bitwise or of two sets of status bits. -/
def MemStatus.or (s t : MemStatus) : MemStatus where
  free := s.free || t.free
  file := s.file || t.file
  process := s.process || t.process
  dir := s.dir || t.dir

/-- One entry of `vm[]` (`vml`). -/
structure Vml where
  ptr : Option Addr := none
  next : Option Nat := none
  status : MemStatus := {}
  ref : Int := 0

/-- The header before a block (`rim_head`). -/
structure RimHead where
  id : Option Nat := none
  len : Nat := 0

/-- The memory of a process: the table, its two list heads, the mode in which
memory is allocated (the `RIM_MEM_PROCESS` bit of `rim_mem_process`, the only
one any statement sets), and the headers of the blocks. -/
structure Mem where
  vm : Nat → Vml := fun _ => {}
  vmCurr : Nat := 0
  vmTot : Nat := 0
  vmFirstFree : Option Nat := none
  vmFirstOrd : Option Nat := none
  rimMemProcess : Bool := false
  head : Addr → RimHead := fun _ => {}

/-- How many entries the table grows by. -/
def RIMMSIZE : Nat := 512

/-- The largest number of entries. -/
def RIM_MAX_MEM : Nat := 2 ^ 45 - 1

/-- The largest number of references to one block. -/
def RIM_MAX_REF : Int := 2 ^ 8 - 1

/-- The message for memory that cannot be allocated. -/
def rimMemMsgOutmem : String := "Out of memory for [%ld] bytes"

/-- A value stored in the `ref` field: nine bits, with a sign. -/
def bitField9 (x : Int) : Int := x.bmod 512

namespace Mem

def setVm (m : Mem) (r : Nat) (f : Vml → Vml) : Mem :=
  { m with vm := Function.update m.vm r (f (m.vm r)) }

def setHead (m : Mem) (p : Addr) (f : RimHead → RimHead) : Mem :=
  { m with head := Function.update m.head p (f (m.head p)) }

/-- `rim_mem_get_id`: the entry of a block, or `none` for a constant. -/
def rimMemGetId (m : Mem) (s : Addr) : Option Nat := (m.head s).id

def rimMemSetLen (m : Mem) (p : Addr) (length : Nat) : Mem :=
  m.setHead p fun h => { h with len := length }

def rimMemSetStatus (m : Mem) (ind : Option Nat) (s : MemStatus) : Mem :=
  match ind with
  | none => m
  | some r => m.setVm r fun e => { e with status := e.status.or s }

def rimMemGetProcess (m : Mem) (r : Option Nat) : Bool :=
  match r with
  | none => true
  | some r => (m.vm r).status.process

/-- `rim_mem_add_ord`. Both branches of the source link `r` before
`vm_first_ord`: when the list is empty that head is `-1`. -/
def rimMemAddOrd (m : Mem) (r : Nat) : Mem :=
  { m.setVm r (fun e => { e with next := m.vmFirstOrd }) with vmFirstOrd := some r }

/-- `rim_mem_del_ord`: the entry is swapped with the first one of the list, so
that the first one is the one to unlink. The two entries keep their own `next`
and trade everything else, and the two blocks trade the ids in their headers.
Returns the index where `r` now is. -/
def rimMemDelOrd (m : Mem) (r : Nat) : Except (Fault Mem) (Nat × Mem) :=
  match m.vmFirstOrd with
  | none => .error .undefined
  | some f =>
    let firstOrdNext := (m.vm f).next
    if r ≠ f then
      let temp := m.vm r
      let vm := Function.update m.vm r (m.vm f)
      let vm := Function.update vm f temp
      let tnext := (vm r).next
      let vm := Function.update vm r { vm r with next := (vm f).next }
      let vm := Function.update vm f { vm f with next := tnext }
      match (vm r).ptr, (vm f).ptr with
      | some p, some q =>
        let tid := (m.head p).id
        let head := Function.update m.head p { m.head p with id := (m.head q).id }
        let head := Function.update head q { head q with id := tid }
        .ok (f, { m with vm := vm, head := head, vmFirstOrd := firstOrdNext })
      | _, _ => .error .undefined
    else
      .ok (r, { m with vmFirstOrd := firstOrdNext })

def rimMemRelease (m : Mem) (r : Nat) : Mem :=
  { m.setVm r (fun e => { e with ptr := none, status := { free := true }, next := m.vmFirstFree })
    with vmFirstFree := some r }

/-- The first half of `rim_add_mem`: an entry from the free list, or else the
next unused one, growing the table by `RIMMSIZE` when it is used up. -/
def takeVm (m : Mem) : Except (Fault Mem) (Nat × Mem) :=
  match m.vmFirstFree with
  | some r => .ok (r, { m with vmFirstFree := (m.vm r).next })
  | none =>
    let r := m.vmCurr
    let m := { m with vmCurr := m.vmCurr + 1 }
    if m.vmCurr ≥ m.vmTot then
      let m := { m with vmTot := m.vmTot + RIMMSIZE }
      if m.vmTot ≥ RIM_MAX_MEM - 1 then
        .error (.report "Too many variables in the program" m)
      else .ok (r, m)
    else .ok (r, m)

/-- The second half of `rim_add_mem`: the entry `r` now holds `p`. -/
def fillVm (m : Mem) (r : Nat) (p : Addr) : Mem :=
  let m := m.setVm r fun e => { e with ptr := some p, status := {}, ref := 0 }
  if m.rimMemProcess then m.rimMemSetStatus (some r) { process := true }
  else m.rimMemAddOrd r

def rimAddMem (m : Mem) (p : Addr) : Except (Fault Mem) (Nat × Mem) := do
  let (r, m) ← m.takeVm
  .ok (r, m.fillVm r p)

def rimVmset (m : Mem) (p : Addr) (r : Nat) : Mem :=
  m.setHead p fun h => { h with id := some r }

/-- `rim_malloc`, where `p` is what `malloc` answers. -/
def rimMalloc (m : Mem) (p : Option Addr) (size : Nat) : Except (Fault Mem) (Addr × Mem) :=
  match p with
  | none => .error (.report rimMemMsgOutmem m)
  | some p => do
    let (r, m) ← m.rimAddMem p
    .ok (p, (m.rimVmset p r).rimMemSetLen p size)

/-- `rim_calloc`; the product of the sizes is a `size_t`. -/
def rimCalloc (m : Mem) (p : Option Addr) (nmemb size : Nat) :
    Except (Fault Mem) (Addr × Mem) :=
  m.rimMalloc p (nmemb * size % 2 ^ 64)

/-- `rim_realloc`, where `p` is what `realloc` answers. When the block moves,
its bytes, header included, are copied to the new one. -/
def rimRealloc (m : Mem) (r : Option Nat) (p : Option Addr) (size : Nat) :
    Except (Fault Mem) (Addr × Mem) :=
  match r with
  | none => m.rimMalloc p size
  | some r =>
    let isProcess := m.rimMemGetProcess (some r)
    match p with
    | none => .error (.report rimMemMsgOutmem m)
    | some p =>
      match (m.vm r).ptr with
      | none => .error .undefined
      | some old =>
        if p ≠ old then do
          let m := m.setHead p fun _ => m.head old
          let m := m.setVm r fun e => { e with ptr := some p }
          let oldRef := (m.vm r).ref
          let (r, m) ← (if (m.vm r).status.process then .ok (r, m) else m.rimMemDelOrd r)
          let m := m.rimMemRelease r
          let (r, m) ← m.rimAddMem p
          let m := m.rimVmset p r
          let m := if isProcess then m.rimMemSetStatus (some r) { process := true } else m
          let m := m.setVm r fun e => { e with ref := oldRef }
          .ok (p, m.rimMemSetLen p size)
        else .ok (p, m.rimMemSetLen p size)

/-- `_rim_free`: frees ordinary memory that was never referenced. -/
def rimFree (m : Mem) (ptr : Addr) : Except (Fault Mem) Mem :=
  match m.rimMemGetId ptr with
  | none => .ok m
  | some r =>
    if (m.vm r).status.process then .ok m
    else if (m.vm r).ref > 0 then .ok m
    else do
      let (r, m) ← m.rimMemDelOrd r
      .ok (m.rimMemRelease r)

def rimMemAddRef (m : Mem) (s : Addr) (memProcess : Bool) : Except (Fault Mem) Mem :=
  match m.rimMemGetId s with
  | none => .ok m
  | some ind =>
    if !memProcess then
      if !(m.vm ind).status.process then .ok (m.setVm ind fun e => { e with ref := 1 })
      else .ok m
    else if !(m.vm ind).status.process then do
      let (ind, m) ← m.rimMemDelOrd ind
      let m := m.rimMemSetStatus (some ind) { process := true }
      .ok (m.setVm ind fun e => { e with ref := 1 })
    else
      let old := (m.vm ind).ref
      let m := m.setVm ind fun e => { e with ref := bitField9 (old + 1) }
      if old = RIM_MAX_REF then
        .error (.report "Too many process-scoped memory references, use constants or make copies instead or consider changing the logic" m)
      else .ok m

def rimMemDecProcess (m : Mem) (s : Addr) : Mem :=
  match m.rimMemGetId s with
  | none => m
  | some r =>
    if (m.vm r).status.process then
      let m := if (m.vm r).ref > 0 then m.setVm r fun e => { e with ref := bitField9 (e.ref - 1) } else m
      if (m.vm r).ref = 0 then
        let m := m.setVm r fun e => { e with status := { e.status with process := false } }
        let m := m.rimMemAddOrd r
        m.setVm r fun e => { e with ref := 1 }
      else m
    else m

/-- The loop of `rim_done` from entry `i`: read `next`, free the block (or close
the file or directory it holds), release the entry. The bound is the length of
the table: a list that is longer comes back to an entry it has released. -/
def rimDoneLoop : Nat → Option Nat → Mem → Except (Fault Mem) Mem
  | _, none, m => .ok m
  | 0, some _, _ => .error .undefined
  | fuel + 1, some i, m => rimDoneLoop fuel (m.vm i).next (m.rimMemRelease i)

def rimDone (m : Mem) : Except (Fault Mem) Mem := do
  let m ← rimDoneLoop m.vmCurr m.vmFirstOrd m
  .ok { m with vmFirstOrd := none }

end Mem

/-- One call on the memory, as a statement or the end of a request makes it. -/
inductive MemOp where
  /-- a statement sets or clears `rim_mem_process` -/
  | setProcess (process : Bool)
  | malloc (p : Option Addr) (size : Nat)
  | calloc (p : Option Addr) (nmemb size : Nat)
  | realloc (s : Addr) (p : Option Addr) (size : Nat)
  | free (s : Addr)
  | addRef (s : Addr) (memProcess : Bool)
  | decProcess (s : Addr)
  /-- an opened file or directory is marked in the memory that holds it -/
  | setStatus (s : Addr) (file dir : Bool)
  | done

def Mem.exec (m : Mem) : MemOp → Except (Fault Mem) Mem
  | .setProcess process => .ok { m with rimMemProcess := process }
  | .malloc p size => (·.2) <$> m.rimMalloc p size
  | .calloc p nmemb size => (·.2) <$> m.rimCalloc p nmemb size
  | .realloc s p size => (·.2) <$> m.rimRealloc (m.rimMemGetId s) p size
  | .free s => m.rimFree s
  | .addRef s memProcess => m.rimMemAddRef s memProcess
  | .decProcess s => .ok (m.rimMemDecProcess s)
  | .setStatus s file dir => .ok (m.rimMemSetStatus (m.rimMemGetId s) { file := file, dir := dir })
  | .done => m.rimDone

/-- The outcomes after which the process goes on: the call returned, or the
request ended in `rim_report_error` and the next one starts from that table. -/
inductive Outcome {σ : Type} : Except (Fault σ) σ → σ → Prop
  | returned (s : σ) : Outcome (.ok s) s
  | reported (message : String) (s : σ) : Outcome (.error (.report message s)) s

/-- A pointer the program may use: a constant, or the block of an entry in use. -/
def Mem.Live (m : Mem) (s : Addr) : Prop :=
  m.rimMemGetId s = none ∨
    ∃ r, r < m.vmCurr ∧ (m.vm r).status.free = false ∧ (m.vm r).ptr = some s

/-- An address `malloc` may answer: no block in use is there. -/
def Mem.Fresh (m : Mem) (p : Addr) : Prop :=
  ∀ r, r < m.vmCurr → (m.vm r).status.free = false → (m.vm r).ptr ≠ some p

/-- The calls a program can make: on live pointers, with addresses the system
allocator can answer (`realloc` may also answer the block it was given). -/
def MemOp.Legal (m : Mem) : MemOp → Prop
  | .malloc p _ | .calloc p _ _ => ∀ a, p = some a → m.Fresh a
  | .realloc s p _ => m.Live s ∧ ∀ a, p = some a →
      m.Fresh a ∨ (a = s ∧ m.rimMemGetId s ≠ none)
  | .free s | .addRef s _ | .decProcess s | .setStatus s _ _ => m.Live s
  | .setProcess _ | .done => True

/-- One legal call, from one table to the next. -/
def Mem.Step (m : Mem) (op : MemOp) (m' : Mem) : Prop :=
  op.Legal m ∧ Outcome (m.exec op) m'

end RimStone
