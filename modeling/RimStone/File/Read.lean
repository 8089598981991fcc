import RimStone.Text.Scan

/-!
# Reading a file

`rim_read_file` opens a file and reads it, and `rim_read_file_id` reads a file that is open. A file is one of the file
system, which can be read at every position it has; the kernel answers no more than a certain number of bytes to one
`read`. A block is as long as it is asked for; what it holds where nothing was written, `junk` says.
-/

namespace RimStone

def RIM_ERR_OPEN : Int := -1

def RIM_ERR_READ : Int := -3

/-- What the kernel reads at once. -/
def MAX_RW_COUNT : Nat := 0x7ffff000

structure RegularFile where
  content : Bytes
  /-- where `lseek` can go to -/
  maxOffset : Nat
  fits : content.length ≤ maxOffset
  /-- `read` answers -1. -/
  failing : Bool

namespace RegularFile

/-- `read` of `n` bytes at a position -/
def read (f : RegularFile) (pos n : Nat) : Option Bytes :=
  if f.failing then none else some ((f.content.drop pos).take (min n MAX_RW_COUNT))

/-- `rim_get_open_file_size` -/
def size (f : RegularFile) : Int := f.content.length

end RegularFile

structure FileRead where
  status : Int
  /-- the block `*data` is set to, and the length it has, where it is set -/
  data : Option (Bytes × Nat) := none
  /-- what `*eof` is set to, where it is set -/
  eof : Option Bool := none
  isOpen : Bool

namespace FileRead

/-- What `*data` is. -/
def string (r : FileRead) : Option Bytes := r.data.map fun d => d.1.take d.2

end FileRead

/-- `RIM_EMPTY_STRING`, in memory -/
def emptyData : Option (Bytes × Nat) := some ([0], 0)

/-- `rim_malloc (sz + 1)` -/
def dataBlock (junk : Nat → UInt8) (sz : Int) : Option Bytes :=
  (rimNumAdd sz 1).map fun n => (List.range n.toNat).map junk

/-- `rim_malloc`, `read`, and `(*data)[rd] = 0`: the block and `rd`, or that the read failed. -/
def readData (junk : Nat → UInt8) (f : RegularFile) (pos : Nat) (sz : Int) : Except (Fault Unit) (Option (Bytes × Nat)) :=
  match dataBlock junk sz with
  | none => .error .undefined
  | some block =>
    match f.read pos sz.toNat with
    | none => .ok none
    | some rd =>
      match (memcpy block 0 rd).bind fun block => poke block rd.length 0 with
      | none => .error .undefined
      | some block => .ok (some (block, rd.length))

section

variable (junk : Nat → UInt8)

/-- `rim_read_file`, of a file that can be opened or not. -/
def rimReadFile (file : Option RegularFile) (pos len : Int) : Except (Fault Unit) FileRead :=
  if pos < 0 then .ok { status := RIM_ERR_POSITION, isOpen := false }
  else if len < 0 then .ok { status := RIM_ERR_READ, isOpen := false }
  else
    match file with
    | none => .ok { status := RIM_ERR_OPEN, isOpen := false }
    | some f =>
      let sz := if len > 0 then len else f.size - pos
      if sz < 0 then .ok { status := RIM_ERR_POSITION, isOpen := true }
      else if sz = 0 then .ok { status := 0, data := emptyData, isOpen := true }
      else if pos > 0 ∧ pos > f.maxOffset then .ok { status := RIM_ERR_POSITION, data := emptyData, isOpen := false }
      else do
        match ← readData junk f pos.toNat sz with
        | none => .ok { status := RIM_ERR_READ, data := emptyData, isOpen := false }
        | some (block, rd) =>
          .ok { status := rd, data := some (block, rd), eof := some (decide ((rd : Int) ≠ sz)), isOpen := false }

/-- `rim_read_file_id`, of an open file whose position is `filePos`. Its length is what `rim_malloc` sets. -/
def rimReadFileId (f : RegularFile) (filePos : Nat) (pos len : Int) (ispos : Bool) : Except (Fault Unit) FileRead :=
  if ispos = true ∧ pos < 0 then .ok { status := RIM_ERR_POSITION, isOpen := true }
  else if len < 0 then .ok { status := RIM_ERR_READ, isOpen := true }
  else
    let sz := if len > 0 then len else f.size - (if ispos then pos else filePos)
    if sz < 0 then .ok { status := RIM_ERR_POSITION, isOpen := true }
    else if sz = 0 then .ok { status := 0, data := emptyData, isOpen := true }
    else if ispos = true ∧ pos > f.maxOffset then .ok { status := RIM_ERR_POSITION, isOpen := true }
    else do
      match ← readData junk f (if ispos then pos.toNat else filePos) sz with
      | none => .ok { status := RIM_ERR_READ, data := emptyData, isOpen := true }
      | some (block, rd) =>
        .ok { status := rd, data := some (block, sz.toNat), eof := some (decide ((rd : Int) ≠ sz)), isOpen := true }

end

/-- `read-file` with a name: the clauses that are not there are 0. -/
def readFile (junk : Nat → UInt8) (file : Option RegularFile) (position length : Option Int) :
    Except (Fault Unit) FileRead :=
  rimReadFile junk file (position.getD 0) (length.getD 0)

/-- `read-file` with a `file-id` -/
def readFileId (junk : Nat → UInt8) (f : RegularFile) (filePos : Nat) (position length : Option Int) :
    Except (Fault Unit) FileRead :=
  rimReadFileId junk f filePos (position.getD 0) (length.getD 0) position.isSome

end RimStone
