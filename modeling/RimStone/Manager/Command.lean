/-!
# Commands for the service manager

A resident server and its clients share two words, `command` and `data1`. A client stores what
it wants in `data1`, then `RIM_COMMAND` in `command`, and waits for another value there; after
`RIM_TRIES` looks it gives up and stores `RIM_DONE` itself. The server looks at both words and
does what they say. Each load, each store and the work of a command is a step of its own.

Clients come one after the other. What is in `data1` is kept with the number of the client that
stored it, and what the server did with the number of the client that it was done for.
-/

namespace RimStone

inductive SmCommand where
  | start
  | stop
  | restart
  | status
  deriving DecidableEq, Repr

/-- The values of `data1`, without those that the start of a server exchanges. -/
inductive SmData where
  | ask (comm : SmCommand)
  /-- `RIM_OKAY`, the answer to `status` -/
  | okay
  /-- `RIM_OKAY_STARTED` and `RIM_OKAY_RUNNING` -/
  | startup
  deriving DecidableEq, Repr

/-- The values of `command`. -/
inductive SmWord where
  /-- `RIM_COMMAND` -/
  | command
  /-- `RIM_DONE` -/
  | done
  /-- `RIM_DONEBAD` -/
  | doneBad
  /-- `RIM_DONESTARTUP` and `RIM_DONESTARTUP0` -/
  | doneStartup
  deriving DecidableEq, Repr

/-- Where the server is in `checkshm (true)`. -/
inductive SmServer where
  | idle
  /-- `command` is loaded. -/
  | loaded (word : SmWord)
  | work (comm : SmCommand) (client : Nat)
  | answer (word : SmWord)
  deriving DecidableEq, Repr

/-- Where a client is in `cli_getshm`. -/
inductive SmClient where
  | before (tries : Nat)
  | look
  /-- It is about to store `data1`. -/
  | storeData
  | storeCommand
  | poll (tries : Nat)
  /-- `command` is loaded, and `data1` is about to be. -/
  | polled (tries : Nat) (word : SmWord)
  | timeout
  | reset
  deriving DecidableEq, Repr

/-- The server, the client that runs, the shared words, and what was done for whom. -/
structure SmState where
  command : SmWord
  data1 : SmData
  /-- The client that stored `data1`. -/
  owner : Nat
  server : SmServer
  client : Option (SmCommand × SmClient)
  /-- The number of the client that runs, or is next. -/
  number : Nat
  executed : List (Nat × SmCommand)

/-- The steps: a client begins, the client takes its next step, the server takes its next
step. -/
inductive SmAct where
  | begin (comm : SmCommand)
  | client
  | server
  deriving DecidableEq, Repr

/-- `RIM_TRIES`, for the milliseconds of `-s` -/
def RIM_TRIES (mslp : Nat) : Nat := 10 * 1000 / mslp + 1

namespace SmState

def init : SmState where
  command := .doneStartup
  data1 := .startup
  owner := 0
  server := .idle
  client := none
  number := 1
  executed := []

/-- The next step of `checkshm (true)`. -/
def serverStep (s : SmState) : SmState :=
  match s.server with
  | .idle => { s with server := .loaded s.command }
  | .loaded word =>
    if word = .command then
      match s.data1 with
      | .ask comm => { s with server := .work comm s.owner }
      | .startup => { s with server := .idle }
      | .okay => { s with server := .answer .doneBad }
    else { s with server := .idle }
  | .work comm client =>
    -- the work of `status` is to store its answer
    { s with
      data1 := if comm = .status then .okay else s.data1
      executed := s.executed ++ [(client, comm)]
      server := .answer .done }
  | .answer word => { s with command := word, server := .idle }

def leave (s : SmState) : SmState := { s with client := none, number := s.number + 1 }

/-- The next step of `cli_getshm` for a command. -/
def clientStep (tries : Nat) (s : SmState) (comm : SmCommand) : SmClient → SmState
  | .before n =>
    if s.command = .command then
      if 0 < n then { s with client := some (comm, .before (n - 1)) } else { s with client := some (comm, .look) }
    else { s with client := some (comm, .look) }
  | .look => if s.command = .command then s.leave else { s with client := some (comm, .storeData) }
  | .storeData => { s with data1 := .ask comm, owner := s.number, client := some (comm, .storeCommand) }
  | .storeCommand => { s with command := .command, client := some (comm, .poll tries) }
  | .poll n => { s with client := some (comm, .polled n s.command) }
  | .polled n word =>
    if word ≠ .command then s.leave
    else if 0 < n then { s with client := some (comm, .poll (n - 1)) }
    else { s with client := some (comm, .timeout) }
  | .timeout => { s with client := some (comm, .reset) }
  | .reset => { s with command := .done }.leave

/-- A step of the system; `tries` is `RIM_TRIES`. -/
def next (tries : Nat) (s : SmState) : SmAct → Option SmState
  | .begin comm => if s.client = none then some { s with client := some (comm, .before tries) } else none
  | .client => s.client.map fun x => s.clientStep tries x.1 x.2
  | .server => some s.serverStep

def Step (tries : Nat) (s : SmState) (act : SmAct) (s' : SmState) : Prop := s.next tries act = some s'

end SmState

end RimStone
