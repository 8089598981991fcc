import RimStone.Lib.ForLoop
import Mathlib.Logic.Function.Basic

/-!
# Loops

The loop of C that is generated for `start-loop`. `check_var` leaves of a clause a constant (`((rim_num)1)` of 1, so
that it is never the text `1`), the name of a variable, which is evaluated each time it is used, or the name of a
variable of its own that was given the value of an expression before, and is as good as a constant. Numbers are unbounded here:
what is said of a loop is said where no sum overflows.
-/

namespace RimStone

open RimStone.Lib

abbrev Vars := String → Int

inductive Clause where
  | const (n : Int)
  | var (x : String)
  deriving DecidableEq, Repr

def Clause.eval (v : Vars) : Clause → Int
  | .const n => n
  | .var x => v x

/-- The clauses of `start-loop`. -/
structure StartLoop where
  rep : Option Clause := none
  use : Option String := none
  swith : Option Clause := none
  add : Option Clause := none
  /-- `start-with` and `add` must be with `use`. -/
  use_given : use = none → swith = none ∧ add = none

/-- The variables of a loop: those of the program, `_rim_loop` and `_rim_loop_end`. -/
structure LoopVars where
  vars : Vars
  loop : Int := 0
  loopEnd : Int := 0

def LoopVars.set (s : LoopVars) (x : String) (n : Int) : LoopVars := { s with vars := Function.update s.vars x n }

/-- `for (...; ; _rim_loop++)` -/
def endlessLoop : ForLoop LoopVars where
  cond := fun _ => true
  step := fun s => { s with loop := s.loop + 1 }

/-- `for (...; _rim_loop < (rep)+1; _rim_loop++)` -/
def timesLoop (rep : Clause) : ForLoop LoopVars where
  cond := fun s => decide (s.loop < rep.eval s.vars + 1)
  step := fun s => { s with loop := s.loop + 1 }

/-- `for (...; use < _rim_loop_end; (use)++)` -/
def counterLoop (use : String) : ForLoop LoopVars where
  cond := fun s => decide (s.vars use < s.loopEnd)
  step := fun s => s.set use (s.vars use + 1)

/-- `for (...; _rim_loop < _rim_loop_end; _rim_loop++, (use)+=(add))` -/
def addedLoop (use : String) (add : Clause) : ForLoop LoopVars where
  cond := fun s => decide (s.loop < s.loopEnd)
  step := fun s => { s.set use (s.vars use + add.eval s.vars) with loop := s.loop + 1 }

namespace StartLoop

variable (l : StartLoop)

/-- `swith == NULL ? "1" : swith` -/
def swithText : Clause := l.swith.getD (.const 1)

/-- `add == NULL ? "1" : add` -/
def addText : Clause := l.add.getD (.const 1)

/-- `use=swith-add;` -/
def before (s : LoopVars) : LoopVars :=
  match l.use with
  | none => s
  | some use => s.set use (l.swithText.eval s.vars - l.addText.eval s.vars)

def init (s : LoopVars) : LoopVars :=
  let s := l.before s
  match l.rep with
  | none => { s with loop := 1 }
  | some rep =>
    match l.use with
    | none => { s with loop := 1 }
    | some use =>
      if l.add = none then
        let s := { s with loopEnd := l.swithText.eval s.vars + rep.eval s.vars }
        s.set use (l.swithText.eval s.vars)
      else
        let s := { s with loopEnd := rep.eval s.vars + 1, loop := 1 }
        s.set use (l.swithText.eval s.vars)

def forLoop : ForLoop LoopVars :=
  match l.rep with
  | none => endlessLoop
  | some rep =>
    match l.use with
    | none => timesLoop rep
    | some use => if l.add = none then counterLoop use else addedLoop use l.addText

abbrev Body := Nat → Vars → Vars × Exit

/-- The body, which knows nothing of the variables of the loop. -/
def inLoop (body : Body) (k : Nat) (s : LoopVars) : LoopVars × Exit :=
  ({ s with vars := (body k s.vars).1 }, (body k s.vars).2)

/-- Where the loop is after `k` executions of its body. -/
def place (body : Body) (v : Vars) (k : Nat) : Place LoopVars :=
  l.forLoop.place (inLoop body) (l.init { vars := v }) k

end StartLoop

end RimStone
