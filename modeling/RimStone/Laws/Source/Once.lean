import RimStone.Source.Once
import Mathlib.Data.List.Count

/-!
# What is done once is done completely

A block of a process is untouched, begun, or finished (`Stage`): its static variable tells the first from the others,
and only the stack tells the second from the third. A block that is left before its end looks finished from then on,
and so does one whose beginning is reached again from inside it. Where neither happens, whatever else the handlers and
the requests do, no end is passed before all statements were executed, each once (`run_complete`).
-/

namespace RimStone

open RimStone.Lib

def HandlerFrame.of : HandlerFrame → Option OnceBlock
  | .block o _ _ => some o
  | .inside o _ _ => some o
  | _ => none

def HandlerFrame.index : HandlerFrame → Nat
  | .block _ i _ => i
  | .inside _ i _ => i
  | _ => 0

def HandlerFrame.left : HandlerFrame → Nat
  | .block _ _ rest => rest.length
  | .inside _ _ rest => rest.length + 1
  | _ => 0

namespace Process

variable {p : Handlers} {s s' : Process} {o : OnceBlock} {k : List HandlerFrame} {f : HandlerFrame} {choice : Bool}

/-- Where the end of a block was passed, each of its statements had been executed completely, once. -/
def Complete (p : Handlers) (log : List OnceEvent) : Prop :=
  ∀ later o before, log = later ++ .passed o :: before →
    ∀ j < (p.block o).length, before.count (.did o j) = 1

def next : List HandlerFrame → Option (HandlerStmt × List HandlerFrame)
  | .code (st :: rest) :: k => some (st, .code rest :: k)
  | .block o i (st :: rest) :: k => some (st, .inside o i rest :: k)
  | _ => none

def NoBlockIn (k : List HandlerFrame) : Prop := ∀ f ∈ k, f.of = none

/-- A statement leaves no block before its end, and is not a block that the process is in. -/
def Undisturbed (choice : Bool) (k : List HandlerFrame) : HandlerStmt → Prop
  | .other mayFail => (mayFail && choice) = true → NoBlockIn (dropped .reportError k)
  | .leave how => NoBlockIn (dropped how k)
  | .once o => ∀ f ∈ k, f.of ≠ some o
  | _ => True

/-- What the process does next disturbs no block. -/
def Guard (s : Process) : Input → Prop
  | .go choice => ∀ st k, next s.stack = some (st, k) → Undisturbed choice k st
  | .request _ => True

/-! ## Stages of a block -/

def opened (o : OnceBlock) (k : List HandlerFrame) : List HandlerFrame := k.filter fun f => f.of = some o

theorem opened_other (h : f.of ≠ some o) : opened o (f :: k) = opened o k :=
  List.filter_cons_of_neg (by simpa using h)

theorem opened_own (h : f.of = some o) : opened o (f :: k) = f :: opened o k :=
  List.filter_cons_of_pos (by simpa using h)

theorem opened_none (h : f.of = none) : opened o (f :: k) = opened o k :=
  opened_other (by simp [h])

theorem opened_ne {o' : OnceBlock} (h : f.of = some o) (hne : o' ≠ o) : opened o' (f :: k) = opened o' k :=
  opened_other fun hsome => hne (Option.some.inj (hsome.symm.trans h))

theorem opened_eq_nil (h : ∀ f ∈ k, f.of ≠ some o) : opened o k = [] :=
  List.filter_eq_nil_iff.mpr fun f hf => by simpa using h f hf

theorem opened_append (k k' : List HandlerFrame) : opened o (k ++ k') = opened o k ++ opened o k' :=
  List.filter_append k k'

inductive Stage (p : Handlers) (s : Process) (o : OnceBlock) : Prop where
  | untouched (unset : s.statics o = o.initial) (closed : opened o s.stack = [])
      (count : ∀ j, s.log.count (.did o j) = 0)
  | begun (set : s.statics o ≠ o.initial) (f : HandlerFrame) (at_ : opened o s.stack = [f])
      (length : f.index + f.left = (p.block o).length)
      (count : ∀ j, s.log.count (.did o j) = if j < f.index then 1 else 0)
  | finished (set : s.statics o ≠ o.initial) (closed : opened o s.stack = [])
      (count : ∀ j < (p.block o).length, s.log.count (.did o j) = 1)

/-- A stage is known from the static variable, the frames and the statements of the block. -/
theorem Stage.congr (h : Stage p s o) (hset : s'.statics o = s.statics o) (hopen : opened o s'.stack = opened o s.stack)
    (hcount : ∀ j, s'.log.count (.did o j) = s.log.count (.did o j)) : Stage p s' o := by
  cases h with
  | untouched unset closed count =>
    exact .untouched (hset.trans unset) (hopen.trans closed) fun j => (hcount j).trans (count j)
  | begun set f at_ length count =>
    exact .begun (hset ▸ set) f (hopen.trans at_) length fun j => (hcount j).trans (count j)
  | finished set closed count =>
    exact .finished (hset ▸ set) (hopen.trans closed) fun j hj => (hcount j).trans (count j hj)

/-- A block with a frame on the stack is begun, and has no other. -/
theorem Stage.top (h : Stage p s o) (hstack : s.stack = f :: k) (hf : f.of = some o) :
    s.statics o ≠ o.initial ∧ opened o k = [] ∧ f.index + f.left = (p.block o).length ∧
      ∀ j, s.log.count (.did o j) = if j < f.index then 1 else 0 := by
  have hopen : opened o s.stack = f :: opened o k := by rw [hstack, opened_own hf]
  cases h with
  | untouched unset closed count =>
    rw [hopen] at closed
    cases closed
  | begun set f' at_ length count =>
    rw [hopen] at at_
    obtain ⟨hsame, hrest⟩ := List.cons.inj at_
    subst hsame
    exact ⟨set, hrest, length, count⟩
  | finished set closed count =>
    rw [hopen] at closed
    cases closed

/-- A block without a frame, whose static variable was set, is finished. -/
theorem Stage.count_eq_one (h : Stage p s o) (hset : s.statics o ≠ o.initial) (hclosed : opened o s.stack = []) :
    ∀ j < (p.block o).length, s.log.count (.did o j) = 1 := by
  cases h with
  | untouched unset _ _ => exact absurd unset hset
  | begun _ f at_ _ _ =>
    rw [hclosed] at at_
    cases at_
  | finished _ _ count => exact count

/-! ## The events -/

theorem Complete.pass {log : List OnceEvent} (h : Complete p log)
    (hcount : ∀ j < (p.block o).length, log.count (.did o j) = 1) : Complete p (.passed o :: log) := by
  intro later o' before heq j hj
  cases later with
  | nil =>
    obtain ⟨hevent, hlog⟩ := List.cons.inj heq
    cases hevent
    exact hlog ▸ hcount j hj
  | cons e later =>
    rw [List.cons_append] at heq
    exact h later o' before (List.cons.inj heq).2 j hj

theorem Complete.did {log : List OnceEvent} (h : Complete p log) (i : Nat) : Complete p (.did o i :: log) := by
  intro later o' before heq j hj
  cases later with
  | nil => cases (List.cons.inj heq).1
  | cons e later =>
    rw [List.cons_append] at heq
    exact h later o' before (List.cons.inj heq).2 j hj

theorem count_pass (o' : OnceBlock) (j : Nat) : (s.pass o').log.count (.did o j) = s.log.count (.did o j) :=
  List.count_cons_of_ne OnceEvent.noConfusion

theorem count_did (s : Process) (o : OnceBlock) (i j : Nat) :
    (s.did o i).log.count (.did o j) = s.log.count (.did o j) + if i = j then 1 else 0 := by
  show List.count _ (_ :: _) = _
  rw [List.count_cons]
  simp

theorem count_did_of_ne {o' : OnceBlock} (hne : o' ≠ o) (i j : Nat) :
    (s.did o' i).log.count (.did o j) = s.log.count (.did o j) := by
  refine List.count_cons_of_ne fun heq => hne ?_
  cases heq
  rfl

/-! ## The invariant -/

/-- Every block is at a stage, and all ends were passed rightly. -/
structure Inv (p : Handlers) (s : Process) : Prop where
  stage : ∀ o, Stage p s o
  complete : Complete p s.log

/-- Frames that belong to no block come and go. -/
theorem Inv.restack (h : Inv p s) (k : List HandlerFrame) (hopen : ∀ o, opened o k = opened o s.stack) :
    Inv p { s with stack := k } where
  stage := fun o => (h.stage o).congr rfl (hopen o) fun _ => rfl
  complete := h.complete

theorem Inv.push (h : Inv p s) (hf : f.of = none) : Inv p { s with stack := f :: s.stack } :=
  h.restack _ fun _ => opened_none hf

/-- The end of a block that is finished. -/
theorem Inv.pass (h : Inv p s) (hset : s.statics o ≠ o.initial) (hclosed : opened o s.stack = []) :
    Inv p (s.pass o) where
  stage := fun o' => (h.stage o').congr rfl rfl fun j => count_pass o j
  complete := h.complete.pass ((h.stage o).count_eq_one hset hclosed)

/-- What is left undone, where no block is. -/
theorem Inv.leaveBy (h : Inv p s) {how : Leaving} (hno : NoBlockIn (dropped how s.stack)) : Inv p (leaveBy how s) := by
  refine h.restack _ fun o => ?_
  have harrive : ∀ k, opened o (arrive how k) = opened o k := by
    intro k
    unfold arrive
    split
    next => exact (opened_none rfl).symm
    next => rfl
  have hdropped : opened o (dropped how s.stack) = [] := opened_eq_nil fun f hf => by simp [hno f hf]
  rw [harrive]
  conv_rhs => rw [← List.takeWhile_append_dropWhile (p := fun f => !stays how f) (l := s.stack)]
  rw [opened_append]
  exact (List.nil_append _ ▸ congrArg (· ++ _) hdropped).symm

theorem Inv.begin (h : Inv p s) (hunset : s.statics o = o.initial) :
    Inv p { s with
      statics := fun o' => if o' = o then !o.initial else s.statics o'
      stack := .block o 0 (p.block o) :: s.stack } := by
  refine ⟨fun o' => ?_, h.complete⟩
  by_cases heq : o' = o
  · subst heq
    cases h.stage o' with
    | untouched _ closed count =>
      refine .begun ?_ (.block o' 0 (p.block o')) ?_ (Nat.zero_add _) fun j => ?_
      · show (if o' = o' then !o'.initial else s.statics o') ≠ _
        rw [if_pos rfl]
        simp
      · rw [opened_own rfl, closed]
      · exact (count j).trans (if_neg (Nat.not_lt_zero j)).symm
    | begun set _ _ _ _ => exact absurd hunset set
    | finished set _ _ => exact absurd hunset set
  · exact (h.stage o').congr (if_neg heq) (opened_ne rfl heq) fun _ => rfl

/-! ## Steps -/

theorem Inv.exec (h : Inv p s) (st : HandlerStmt) (hok : Undisturbed choice s.stack st) : Inv p (exec p choice s st) := by
  cases st with
  | other mayFail =>
    rw [Process.exec]
    split
    next hfails => exact h.leaveBy (hok hfails)
    next => exact h
  | ifTrue yes no => exact h.push rfl
  | startLoop body => exact h.push rfl
  | callHandler handler => exact (h.push (f := .caller) rfl).push rfl
  | leave how => exact h.leaveBy hok
  | once o =>
    rw [Process.exec]
    split
    next hset => exact h.pass hset (opened_eq_nil hok)
    next hunset => exact h.begin (not_not.mp hunset)

/-- A frame of a block gives way to another one, and the block is as far. -/
theorem Inv.replace (h : Inv p s) {f' : HandlerFrame} (hstack : s.stack = f :: k) (hf : f.of = some o)
    (hf' : f'.of = some o) (hindex : f'.index = f.index) (hleft : f'.left = f.left) :
    Inv p { s with stack := f' :: k } := by
  refine ⟨fun o' => ?_, h.complete⟩
  by_cases heq : o' = o
  · subst heq
    obtain ⟨hset, hrest, hlength, hcount⟩ := (h.stage o').top hstack hf
    refine .begun hset f' ?_ (by rw [hindex, hleft, hlength]) fun j => ?_
    · rw [opened_own hf', hrest]
    · rw [hindex]
      exact hcount j
  · refine (h.stage o').congr rfl ?_ fun _ => rfl
    show opened o' (f' :: k) = _
    rw [hstack, opened_ne hf heq, opened_ne hf' heq]

/-- Of the first `i + 1` statements, the last is statement `i`. -/
theorem one_more (i j : Nat) :
    ((if j < i then 1 else 0) + if i = j then 1 else 0) = if j < i + 1 then 1 else 0 := by
  obtain hlt | heq | hgt := Nat.lt_trichotomy j i
  · rw [if_pos hlt, if_neg (Nat.ne_of_gt hlt), if_pos (Nat.lt_succ_of_lt hlt)]
  · rw [if_neg (heq ▸ Nat.lt_irrefl j), if_pos heq.symm, if_pos (heq ▸ Nat.lt_succ_self j)]
  · rw [if_neg (Nat.lt_asymm hgt), if_neg (Nat.ne_of_lt hgt), if_neg (Nat.not_lt_of_le hgt)]

/-- The statement that a block is at is done. -/
theorem Inv.did (h : Inv p s) {i : Nat} {rest : List HandlerStmt} (hstack : s.stack = .inside o i rest :: k) :
    Inv p ({ s with stack := .block o (i + 1) rest :: k }.did o i) := by
  refine ⟨fun o' => ?_, h.complete.did i⟩
  by_cases heq : o' = o
  · subst heq
    obtain ⟨hset, hrest, hlength, hcount⟩ := (h.stage o').top hstack rfl
    refine .begun hset (.block o' (i + 1) rest) ?_ ?_ fun j => ?_
    · show opened o' (_ :: k) = _
      rw [opened_own rfl, hrest]
    · rw [← hlength]
      simp only [HandlerFrame.index, HandlerFrame.left]
      omega
    · rw [count_did, hcount j]
      exact one_more i j
  · refine (h.stage o').congr rfl ?_ fun j => count_did_of_ne (fun ho => heq ho.symm) i j
    show opened o' (_ :: k) = _
    rw [hstack, opened_ne rfl heq, opened_ne rfl heq]

/-- The last statement of a block is done. -/
theorem Inv.end_ (h : Inv p s) {i : Nat} (hstack : s.stack = .block o i [] :: k) :
    Inv p ({ s with stack := k }.pass o) := by
  obtain ⟨hset, hrest, hlength, hcount⟩ := (h.stage o).top hstack rfl
  have hall : ∀ j < (p.block o).length, s.log.count (.did o j) = 1 := by
    intro j hj
    rw [hcount j, if_pos]
    simp only [HandlerFrame.index, HandlerFrame.left, List.length_nil] at hlength ⊢
    omega
  refine ⟨fun o' => ?_, h.complete.pass hall⟩
  by_cases heq : o' = o
  · subst heq
    exact .finished hset hrest fun j hj => (count_pass o' j).trans (hall j hj)
  · refine (h.stage o').congr rfl ?_ fun j => count_pass o j
    show opened o' k = _
    rw [hstack, opened_ne rfl heq]

theorem Inv.go (h : Inv p s) (hguard : s.Guard (.go choice)) : Inv p (s.go p choice) := by
  unfold Process.go
  split
  next => exact h
  next k hstack => exact h.restack k fun o => by rw [hstack, opened_none rfl]
  next st rest k hstack =>
    refine Inv.exec ?_ st (hguard st _ (by rw [hstack]; rfl))
    exact h.restack _ fun o => by rw [hstack, opened_none rfl, opened_none rfl]
  next body k hstack =>
    refine h.restack _ fun o => ?_
    rw [hstack]
    split
    next => rw [opened_none rfl]
    next => rw [opened_none rfl]
  next k hstack => exact h.restack k fun o => by rw [hstack, opened_none rfl]
  next o i k hstack => exact h.end_ hstack
  next o i st rest k hstack =>
    refine Inv.exec ?_ st (hguard st _ (by rw [hstack]; rfl))
    exact h.replace hstack rfl rfl rfl rfl
  next o i rest k hstack => exact h.did hstack

theorem Inv.step (h : Inv p s) {i : Input} (hguard : s.Guard i) : Inv p (s.step p i) := by
  cases i with
  | go choice => exact h.go hguard
  | request handlers =>
    rw [Process.step]
    split
    next hempty =>
      refine h.restack _ fun o => ?_
      rw [List.isEmpty_iff.mp hempty, opened_none rfl]
    next => exact h

theorem inv_start (p : Handlers) : Inv p {} where
  stage := fun _ => .untouched rfl rfl fun _ => rfl
  complete := by
    intro later o before heq
    cases later <;> cases heq

/-! ## Runs -/

/-- Where a process leaves no block before its end, and reaches none from inside itself, whatever it serves and however
its statements end: no end is passed before all statements of the block were executed, each once. -/
theorem run_complete (p : Handlers) (is : List Input) (s : Process)
    (hrun : GuardedRun (fun s i s' => s' = s.step p i) Guard {} is s) : Complete p s.log := by
  have hinv : Inv p s := by
    refine hrun.invariant (P := Inv p) ?_ (inv_start p)
    intro s s' i h hguard hstep
    subst hstep
    exact h.step hguard
  exact hinv.complete

/-- A handler that does once what may end in an error. -/
def onceHandlers : Handlers where
  body := fun _ => [.once (.doOnce 0), .other false]
  doOnce := fun _ => [.other true]

theorem run_complete_once : Complete onceHandlers [.passed (.doOnce 0), .did (.doOnce 0) 0] := by
  refine run_complete onceHandlers
    [.request [0], .go false, .go false, .go false, .go false, .go false] (.mk [.code [.other false], .caller, .code []]
      (fun o => if o = .doOnce 0 then true else o.initial) [.passed (.doOnce 0), .did (.doOnce 0) 0]) ?_
  refine .cons trivial rfl (.cons ?_ rfl (.cons ?_ rfl (.cons ?_ rfl (.cons ?_ rfl (.cons ?_ rfl (.nil _))))))
  · intro st k hnext
    cases hnext
    trivial
  · intro st k hnext
    cases hnext
    show ∀ f ∈ [HandlerFrame.code _, .caller, .code []], f.of ≠ some (.doOnce 0)
    simp [HandlerFrame.of]
  · intro st k hnext
    cases hnext
    intro hfails
    cases hfails
  · intro st k hnext
    cases hnext
  · intro st k hnext
    cases hnext

/-- It does, and the next request skips it. -/
theorem not_complete_error : ¬ ∀ p is s, Run (fun s i s' => s' = Process.step p s i) {} is s → Complete p s.log := by
  intro h
  have hrun := Run.of_foldl (Process.step onceHandlers) {}
    [.request [0], .go false, .go false, .go true, .request [0], .go false, .go false]
  have hcount := h onceHandlers _ _ hrun [] (.doOnce 0) [] rfl 0 Nat.zero_lt_one
  cases hcount

end Process

end RimStone
