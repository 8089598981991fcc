import RimStone.Manager.Command

/-!
# The workers of the service manager

`mrim` keeps its workers in the slots of `plist`, one process id each. It starts some at once, and
then looks at them in every round of its loop: in adaptive mode it starts one more while connections
wait, and stops one when none did for long; it starts again those that have died, all of them when
the executable has changed, and those that a command asks for.

What the system answers is a `MrimHost`. Workers can die before any call to it. `alive` are those
that have not died, also when they have no slot any more and are only told to end. `log` is what there
is to see from outside.
-/

namespace RimStone

def SOMAXCONN : Int := 4096

/-- The options for workers, with their numbers as `atol` and `atoi` give them. -/
inductive MrimOpt where
  | minWorker (n : Int)
  | maxWorker (n : Int)
  /-- `-n` -/
  | doNotRestart
  /-- `-g` -/
  | noReload
  /-- `-t` -/
  | spike (t : Int)
  /-- `-d` -/
  | adaptive
  /-- `-s` -/
  | sleep (ms : Int)
  /-- `-w` -/
  | workers (n : Int)
  deriving DecidableEq, Repr

structure MrimOpts where
  numToStartMin : Int := 5
  maxproc : Int := 0
  adapt : Bool := false
  dnr : Bool := false
  modreload : Bool := true
  minmaxset : Bool := false
  numworkset : Bool := false
  tspikeset : Bool := false
  tspike : Int := 30
  mslp : Int := 400
  deriving DecidableEq, Repr

namespace MrimOpts

def read (o : MrimOpts) : MrimOpt → Except String MrimOpts
  | .minWorker n =>
    if n < 0 ∨ n ≥ SOMAXCONN - 10 then .error "Minimum number of workers must be between 0 and %ld"
    else .ok { o with numToStartMin := n, minmaxset := true }
  | .maxWorker n => .ok { o with maxproc := n, minmaxset := true }
  | .doNotRestart => .ok { o with dnr := true }
  | .noReload => .ok { o with modreload := false }
  | .spike t =>
    if t < 5 ∨ t ≥ 86400 then .error "Timeout for releasing processes must be between 5 and 86400"
    else .ok { o with tspike := t, tspikeset := true }
  | .adaptive => .ok { o with adapt := true }
  | .sleep ms =>
    if ms < 100 ∨ ms > 5000 then .error "sleep (in milliseconds) must be between 100 and 5000"
    else .ok { o with mslp := ms }
  | .workers n =>
    if n < 1 ∨ n ≥ SOMAXCONN then .error "Number of workers must be between 1 and %ld"
    else .ok { o with numToStartMin := n, maxproc := n, numworkset := true }

/-- The most workers there can be, where no option says it. -/
def defaultMax (o : MrimOpts) : Int := if o.maxproc ≠ 0 then o.maxproc else if o.adapt then 20 else 3

/-- The checks of all options together. -/
def check (o : MrimOpts) : Except String MrimOpts :=
  let adapt := o.adapt || !o.numworkset
  if o.minmaxset ∧ !adapt then .error "--min-worker and --max-worker can only be used with -d (adaptive load)"
  else if adapt ∧ o.numworkset then .error "You can use either -d or -w option but not both"
  else if !adapt ∧ o.tspikeset then .error "You can only use -t option with -d option"
  else
    let maxproc := defaultMax { o with adapt := adapt }
    if maxproc < 1 ∨ maxproc ≥ SOMAXCONN then .error "Maximum number of workers must be between 1 and %ld"
    else if o.minmaxset ∧ maxproc ≤ o.numToStartMin then
      .error "Maximum number of workers must be at least one above minimum number of workers"
    else .ok { o with adapt := adapt, dnr := o.dnr && !adapt, maxproc := maxproc }

def parse (args : List MrimOpt) : Except String MrimOpts := args.foldlM read {} >>= check

end MrimOpts

inductive MrimCommand where
  | ask (comm : SmCommand)
  | quit
  /-- one that is not for the running server, or is unknown -/
  | other
  deriving DecidableEq, Repr

/-- What there is to see of the manager. -/
inductive MrimNote where
  /-- a worker is started for a slot, and what is in the slots then -/
  | started (slot : Nat) (pid : Int) (plist : List Int)
  | received (comm : MrimCommand)
  /-- a worker is stopped because there are too many, and so many with slots are alive then -/
  | downsized (live : Nat)
  deriving DecidableEq, Repr

structure Mrim where
  plist : List Int
  alive : List Int := []
  tempNoRestart : Bool := false
  nspike : Int := 0
  /-- It is about to stop a worker if there are too many. -/
  shrinking : Bool := false
  /-- the workers that `totprocess` has counted -/
  counted : List Int := []
  calls : Nat := 0
  log : List MrimNote := []
  deriving DecidableEq, Repr

/-- What the system answers, depending on all that was. -/
structure MrimHost where
  /-- the workers that have died before a call -/
  died : Mrim → List Int
  changed : Mrim → Bool
  /-- `connwait` -/
  conn : Mrim → Bool
  canStart : Mrim → Bool
  /-- `fork` -/
  forked : Mrim → Option Int
  /-- `checkmod` -/
  modified : Mrim → Bool
  command : Mrim → Option MrimCommand
  /-- No two processes have one id at a time, and 1 is that of another. -/
  forked_new : ∀ m p, forked m = some p → 1 < p ∧ p ∉ m.alive

inductive MrimEnd where
  | exited
  /-- an index outside of `plist` -/
  | outside
  deriving DecidableEq, Repr

namespace Mrim

variable (host : MrimHost) (o : MrimOpts) (m : Mrim)

/-- How many workers with slots are alive. -/
def live : Nat := m.plist.countP (· ∈ m.alive)

/-- The time of a call to the system. -/
def tick : Mrim := { m with alive := m.alive.filter (· ∉ host.died m), calls := m.calls + 1 }

def whatisprocess (p : Int) : Mrim × Int :=
  let m := m.tick host
  (m, if p ∈ m.alive then (if host.changed m then -p else p) else -1)

/-- `plist[i]` -/
def slot (i : Nat) : Except MrimEnd Int := m.plist[i]?.elim (.error .outside) .ok

/-- `plist[i] = p` -/
def setSlot (i : Nat) (p : Int) : Except MrimEnd Mrim :=
  if i < m.plist.length then .ok { m with plist := m.plist.set i p } else .error .outside

def connwait : Mrim × Bool := (m.tick host, host.conn (m.tick host))

def forkChild (i : Nat) : Except MrimEnd Mrim :=
  match host.forked m with
  | none => .error .exited
  | some p => do
    let m ← setSlot { m with alive := p :: m.alive } i p
    return { m with log := m.log ++ [.started i p m.plist] }

def startChild (pcount : Nat) : Except MrimEnd Mrim :=
  let m := m.tick host
  if host.canStart m then m.forkChild host pcount else .ok m

def count (p : Int) : Mrim := { m with counted := p :: m.counted }

def totprocessLoop : Nat → Nat → Nat → Mrim → Except MrimEnd (Mrim × Nat)
  | 0, _, tot, m => .ok (m, tot)
  | n + 1, i, tot, m => do
    let p ← m.slot i
    if p = -1 then totprocessLoop n (i + 1) tot m
    else if (m.whatisprocess host p).2 = -1 then
      totprocessLoop n (i + 1) tot (← (m.whatisprocess host p).1.setSlot i (-1))
    else totprocessLoop n (i + 1) (tot + 1) ((m.whatisprocess host p).1.count p)

/-- `totprocess`; `num_process` is `maxproc` -/
def totprocess : Except MrimEnd (Mrim × Nat) :=
  totprocessLoop host o.maxproc.toNat 0 0 { m with counted := [] }

/-- Whether one more worker is to be started. -/
def isWanted (addone : Bool) (tot : Nat) : Bool := !o.adapt || o.numToStartMin > tot || addone

def processupLoop (addone : Bool) : Nat → Nat → Nat → Mrim → Except MrimEnd Mrim
  | 0, _, _, m => .ok m
  | n + 1, i, tot, m => do
    let p ← m.slot i
    if p = -1 then
      if isWanted o addone tot then
        let m ← m.startChild host i
        if addone then return m else processupLoop addone n (i + 1) (tot + 1) m
      else processupLoop addone n (i + 1) tot m
    else if (m.whatisprocess host p).2 = -1 then
      let m ← (m.whatisprocess host p).1.setSlot i (-1)
      if isWanted o addone tot then
        let m ← m.startChild host i
        if addone then return m else processupLoop addone n (i + 1) (tot + 1) m
      else processupLoop addone n (i + 1) tot m
    else processupLoop addone n (i + 1) tot (m.whatisprocess host p).1

def processup (addone : Bool) : Except MrimEnd Mrim := do
  if o.adapt then
    let (m, tot) ← m.totprocess host o
    processupLoop host o addone o.maxproc.toNat 0 tot m
  else processupLoop host o addone o.maxproc.toNat 0 0 m

def handlestopLoop (one : Bool) : Nat → Nat → Mrim → Except MrimEnd Mrim
  | 0, _, m => .ok m
  | n + 1, i, m => do
    let p ← m.slot i
    if p = -1 then handlestopLoop one n (i + 1) m
    else if (m.whatisprocess host p).2 ≠ p ∧ (m.whatisprocess host p).2 ≠ -p ∧ (m.whatisprocess host p).2 ≠ -1 then
      handlestopLoop one n (i + 1) (m.whatisprocess host p).1
    else
      let m ← (m.whatisprocess host p).1.setSlot i (-1)
      if one then return { m with log := m.log ++ [.downsized m.live] } else handlestopLoop one n (i + 1) m

/-- `handlestop`, with `RIM_STOPONE` when it is for `one` -/
def handlestop (one : Bool) : Except MrimEnd Mrim := handlestopLoop host one o.maxproc.toNat 0 m

/-- One more worker, when connections were pending for a first time. -/
def grow : Except MrimEnd Mrim :=
  let m := { m with nspike := 0 }
  let (m, second) := m.connwait host
  if !second then .ok m
  else
    let (m, third) := m.connwait host
    if !third then .ok m
    else do
      let (m, tot) ← m.totprocess host o
      if (tot : Int) < o.maxproc - 1 then m.processup host o true else return m

/-- A worker less, if there are too many. -/
def downsize : Except MrimEnd Mrim := do
  let (m, tot) ← totprocess host o { m with shrinking := true }
  let m ← if (tot : Int) > o.numToStartMin then m.handlestop host o true else pure m
  return { m with shrinking := false, nspike := 0 }

/-- What is done when no connections were pending for a first time. -/
def shrink : Except MrimEnd Mrim :=
  let (m, second) := m.connwait host
  if second then .ok m
  else
    let (m, third) := m.connwait host
    if third then .ok m
    else
      let m := { m with nspike := m.nspike + 1 }
      if m.nspike ≥ o.tspike * 1000 / (o.mslp / 2) then m.downsize host o else .ok m

def adaptive : Except MrimEnd Mrim := do
  let (m, first) := m.connwait host
  let m ← if first then m.grow host o else m.shrink host o
  m.processup host o false

/-- Workers that have died, or are to be reloaded. -/
def restart : Except MrimEnd Mrim := do
  let m := m.tick host
  let m ← if o.modreload && host.modified m then m.handlestop host o false else pure m
  m.processup host o false

/-- `checkshm (true)` when there is a command -/
def handleCommand : MrimCommand → Except MrimEnd Mrim
  | .ask .restart => do
    let m ← handlestop host o { m with tempNoRestart := false } false
    m.processup host o false
  | .ask .start => processup host o { m with tempNoRestart := false } false
  | .ask .stop => do
    let m ← m.handlestop host o false
    return { m with tempNoRestart := true }
  | .ask .status => .ok m
  | .quit => do
    let _ ← m.handlestop host o false
    .error .exited
  | .other => .ok m

/-- `checkshm (true)` -/
def checkshm : Except MrimEnd Mrim :=
  let m := m.tick host
  match host.command m with
  | none => .ok m
  | some comm => handleCommand host o { m with log := m.log ++ [.received comm] } comm

def iteration : Except MrimEnd Mrim := do
  let m ← if o.adapt && !m.tempNoRestart then m.adaptive host o else pure m
  let m ← if !(m.tempNoRestart || o.dnr) then m.restart host o else pure m
  m.checkshm host o

def startLoop : Nat → Nat → Mrim → Except MrimEnd Mrim
  | 0, _, m => .ok m
  | n + 1, pcount, m => do startLoop n (pcount + 1) (← m.startChild host pcount)

def start : Except MrimEnd Mrim :=
  startLoop host o.numToStartMin.toNat 0 { plist := List.replicate o.maxproc.toNat (-1) }

end Mrim

end RimStone
