import RimStone.Source.Loop
import Mathlib.Algebra.Order.Group.Int
import Mathlib.Tactic.Ring

/-!
# Loops count as they are written

Where the clauses are constants, four loops of C come to the same: the body is executed as often as asked for, and sees
the numbers one after another (`StartLoop.Counts`). The loop without `repeat` is the exception. What stands in front of
it is one step short of the start, as if a step came first, and none ever comes. A clause that is a variable counts for
what it is when it is evaluated: in front of the first test, when the counter was set already, and in some loops at
every test or step.
-/

namespace RimStone

open RimStone.Lib

def Clause.Fixed (c : Clause) : Prop := ∃ n, c = .const n

theorem Clause.Fixed.eval_eq {c : Clause} (h : c.Fixed) (v w : Vars) : c.eval v = c.eval w := by
  obtain ⟨n, rfl⟩ := h
  rfl

theorem Clause.exists_var {c : Clause} (h : ¬ c.Fixed) : ∃ x, c = .var x := by
  cases c with
  | const n => exact absurd ⟨n, rfl⟩ h
  | var x => exact ⟨x, rfl⟩

namespace StartLoop

variable {l : StartLoop} {v : Vars} {body : Body} {use : String} {rep : Clause}

def Keeps (l : StartLoop) (body : Body) : Prop := ∀ use, l.use = some use → ∀ k w, (body k w).1 use = w use

/-- What the counter is after `k` steps. -/
def count (l : StartLoop) (v : Vars) (k : Int) : Int := l.swithText.eval v + k * l.addText.eval v

/-- Each execution of the body sees the counter after as many steps, and there are no more than asked for; where the
loop ends, there were as many, and the counter is one step further. -/
def Counts (l : StartLoop) (v : Vars) : Prop :=
  ∀ body, l.Keeps body → ∀ k s,
    (l.place body v k = .body s → (∀ use, l.use = some use → s.vars use = l.count v k) ∧
      ∀ rep, l.rep = some rep → (k : Int) < max (rep.eval v) 0) ∧
    (l.place body v k = .after s → ∃ rep, l.rep = some rep ∧ max (rep.eval v) 0 ≤ k ∧
      ∀ use, l.use = some use → s.vars use = l.count v (max (rep.eval v) 0))

/-- The variables in front of the loop, where there is a counter. -/
def varsBefore (l : StartLoop) (use : String) (v : Vars) : Vars :=
  Function.update v use (l.swithText.eval v - l.addText.eval v)

/-- Without a counter: the number of times is a constant, or below one. With one and without that number: nothing is
added. With both: the start and the number of times are as they were, and what is added is a constant, or there is
nothing to add, or it is the counter itself, which is doubled once, or is zero. -/
structure Counted (l : StartLoop) (v : Vars) : Prop where
  uncounted : l.use = none → ∀ rep, l.rep = some rep → rep.Fixed ∨ rep.eval v ≤ 0
  endless : ∀ use, l.use = some use → l.rep = none → l.addText.eval v = 0
  start : ∀ use rep, l.use = some use → l.rep = some rep → l.swithText.eval (l.varsBefore use v) = l.swithText.eval v
  times : ∀ use rep, l.use = some use → l.rep = some rep → max (rep.eval (l.varsBefore use v)) 0 = max (rep.eval v) 0
  steps : ∀ use rep, l.use = some use → l.rep = some rep → l.addText.Fixed ∨ rep.eval v ≤ 0 ∨
    (l.addText = .var use ∧ l.addText.eval v = l.swithText.eval v ∧ (rep.eval v ≤ 1 ∨ l.swithText.eval v = 0))

/-! ## The loops -/

theorem addText_none (hadd : l.add = none) : l.addText = .const 1 := by
  unfold addText
  rw [hadd, Option.getD_none]

theorem before_vars (huse : l.use = some use) : (l.before { vars := v }).vars = l.varsBefore use v := by
  unfold before
  rw [huse]
  rfl

theorem init_endless (hrep : l.rep = none) : (l.init { vars := v }).vars = (l.before { vars := v }).vars := by
  unfold init
  rw [hrep]

def counterStart (l : StartLoop) (use : String) (rep : Clause) (v : Vars) : LoopVars where
  vars := Function.update (l.varsBefore use v) use (l.swithText.eval (l.varsBefore use v))
  loopEnd := l.swithText.eval (l.varsBefore use v) + rep.eval (l.varsBefore use v)

def addedStart (l : StartLoop) (use : String) (rep : Clause) (v : Vars) : LoopVars where
  vars := Function.update (l.varsBefore use v) use (l.swithText.eval (l.varsBefore use v))
  loop := 1
  loopEnd := rep.eval (l.varsBefore use v) + 1

theorem place_endless (hrep : l.rep = none) (k : Nat) :
    l.place body v k = endlessLoop.place (inLoop body) (l.init { vars := v }) k := by
  unfold place forLoop
  rw [hrep]

theorem place_times (huse : l.use = none) (hrep : l.rep = some rep) (k : Nat) :
    l.place body v k = (timesLoop rep).place (inLoop body) { vars := v, loop := 1 } k := by
  unfold place forLoop init before
  rw [hrep, huse]

section Counter

variable (huse : l.use = some use) (hrep : l.rep = some rep)
include huse hrep

theorem place_counter (hadd : l.add = none) (k : Nat) :
    l.place body v k = (counterLoop use).place (inLoop body) (l.counterStart use rep v) k := by
  unfold place forLoop init before
  rw [hrep, huse]
  simp only [hadd, if_true]
  rfl

theorem place_added (hadd : l.add ≠ none) (k : Nat) :
    l.place body v k = (addedLoop use l.addText).place (inLoop body) (l.addedStart use rep v) k := by
  unfold place forLoop init before
  rw [hrep, huse]
  simp only [hadd, if_false]
  rfl

end Counter

/-- The times that are asked for, and the executions before. -/
theorem lt_times {r : Int} {k : Nat} : (k : Int) < r ↔ (k : Int) < max r 0 := by
  rw [lt_max_iff, or_iff_left (Int.not_lt.mpr (Int.natCast_nonneg k))]

/-- Where all executions before `j` are to take place and that is not. -/
theorem eq_times {r : Int} {j : Nat} (hno : ¬ (j : Int) < max r 0) (hbefore : ∀ i < j, (i : Int) < max r 0) :
    (j : Int) = max r 0 := by
  have hnonneg : 0 ≤ max r 0 := le_max_right _ _
  cases j with
  | zero => omega
  | succ j =>
    have hlast := hbefore j (Nat.lt_succ_self j)
    push_cast at *
    omega

/-! ## The invariants -/

/-- Without `repeat` the loop only goes on. -/
theorem invariant_endless (hrep : l.rep = none) (hzero : ∀ use, l.use = some use → l.addText.eval v = 0)
    (hkeeps : l.Keeps body) : endlessLoop.Invariant (inLoop body) (l.init { vars := v })
      (fun _ s => ∀ use, l.use = some use → s.vars use = l.swithText.eval v) (fun _ => True) where
  init := by
    intro use huse
    rw [init_endless hrep, before_vars huse, varsBefore, Function.update_self, hzero use huse, Int.sub_zero]
  cond := fun _ _ _ => iff_of_true rfl trivial
  step := fun k s hinv _ _ use huse => (hkeeps use huse k s.vars).trans (hinv use huse)

/-- Without a counter the executions are counted, if their number cannot be changed. -/
theorem invariant_times (body : Body) (hfixed : rep.Fixed ∨ rep.eval v ≤ 0) : (timesLoop rep).Invariant (inLoop body)
    { vars := v, loop := 1 } (fun k s => s.loop = (k : Int) + 1 ∧ rep.eval s.vars = rep.eval v)
    (fun k => (k : Int) < max (rep.eval v) 0) where
  init := ⟨rfl, rfl⟩
  cond := by
    intro k s hinv
    show decide (s.loop < rep.eval s.vars + 1) = true ↔ _
    rw [decide_eq_true_iff, hinv.1, hinv.2, ← lt_times]
    omega
  step := by
    intro k s hinv hmore _
    refine ⟨?_, ?_⟩
    · show s.loop + 1 = _
      rw [hinv.1]
      push_cast
      rfl
    · obtain hfix | hle := hfixed
      · exact hfix.eval_eq _ _
      · have := lt_times.mpr hmore
        omega

/-- The counter is the only one, and goes on by one. -/
theorem invariant_counter (rep : Clause) (huse : l.use = some use)
    (hstart : l.swithText.eval (l.varsBefore use v) = l.swithText.eval v) (hkeeps : l.Keeps body) :
    (counterLoop use).Invariant (inLoop body) (l.counterStart use rep v)
      (fun k s => s.vars use = l.swithText.eval v + k ∧ s.loopEnd = l.swithText.eval v + rep.eval (l.varsBefore use v))
      (fun k => (k : Int) < max (rep.eval (l.varsBefore use v)) 0) where
  init := by
    refine ⟨?_, congrArg (· + _) hstart⟩
    show Function.update _ use _ use = _
    rw [Function.update_self, hstart]
    exact (Int.add_zero _).symm
  cond := by
    intro k s hinv
    show decide (s.vars use < s.loopEnd) = true ↔ _
    rw [decide_eq_true_iff, hinv.1, hinv.2, ← lt_times]
    omega
  step := by
    intro k s hinv _ _
    refine ⟨?_, hinv.2⟩
    show Function.update (body k s.vars).1 use ((body k s.vars).1 use + 1) use = _
    rw [Function.update_self, hkeeps use huse k s.vars, hinv.1]
    push_cast
    exact Int.add_assoc _ _ _

/-- The executions are counted apart, whatever is added. -/
theorem invariant_added (l : StartLoop) (use : String) (rep : Clause) (v : Vars) (body : Body) :
    (addedLoop use l.addText).Invariant (inLoop body) (l.addedStart use rep v)
      (fun k s => s.loop = (k : Int) + 1 ∧ s.loopEnd = rep.eval (l.varsBefore use v) + 1)
      (fun k => (k : Int) < max (rep.eval (l.varsBefore use v)) 0) where
  init := ⟨rfl, rfl⟩
  cond := by
    intro k s hinv
    show decide (s.loop < s.loopEnd) = true ↔ _
    rw [decide_eq_true_iff, hinv.1, hinv.2, ← lt_times]
    omega
  step := by
    intro k s hinv _ _
    refine ⟨?_, hinv.2⟩
    show s.loop + 1 = _
    rw [hinv.1]
    push_cast
    rfl

/-- What is added, where it is the same each time. -/
theorem invariant_steps (huse : l.use = some use) (hstart : l.swithText.eval (l.varsBefore use v) = l.swithText.eval v)
    (htimes : max (rep.eval (l.varsBefore use v)) 0 = max (rep.eval v) 0)
    (hsteps : l.addText.Fixed ∨ rep.eval v ≤ 0 ∨
      (l.addText = .var use ∧ l.addText.eval v = l.swithText.eval v ∧ (rep.eval v ≤ 1 ∨ l.swithText.eval v = 0)))
    (hkeeps : l.Keeps body) :
    (addedLoop use l.addText).Invariant (inLoop body) (l.addedStart use rep v)
      (fun k s => (s.loop = (k : Int) + 1 ∧ s.loopEnd = rep.eval (l.varsBefore use v) + 1) ∧ s.vars use = l.count v k)
      (fun k => (k : Int) < max (rep.eval (l.varsBefore use v)) 0) where
  init := by
    refine ⟨(invariant_added l use rep v body).init, ?_⟩
    show Function.update _ use _ use = _
    rw [Function.update_self, hstart, count, Nat.cast_zero, Int.zero_mul, Int.add_zero]
  cond := fun k s hinv => (invariant_added l use rep v body).cond k s hinv.1
  step := by
    intro k s hinv hmore hgo
    refine ⟨(invariant_added l use rep v body).step k s hinv.1 hmore hgo, ?_⟩
    have hkept : (body k s.vars).1 use = l.count v k := (hkeeps use huse k s.vars).trans hinv.2
    show Function.update (body k s.vars).1 use ((body k s.vars).1 use + l.addText.eval (body k s.vars).1) use = _
    rw [Function.update_self, hkept]
    have hnext : l.count v (k + 1 : Nat) = l.count v k + l.addText.eval v := by
      unfold count
      push_cast
      ring
    rw [hnext]
    congr 1
    obtain hfixed | hle | ⟨hself, hsame, honce⟩ := hsteps
    · exact hfixed.eval_eq _ _
    · rw [htimes, ← lt_times] at hmore
      omega
    · -- the counter is added to itself
      rw [hself, Clause.eval, hkept, count, hsame, ← hself, hsame]
      obtain hone | hzero := honce
      · rw [htimes, ← lt_times] at hmore
        have hk : (k : Int) = 0 := by omega
        rw [hk, Int.zero_mul, Int.add_zero]
      · rw [hzero, Int.mul_zero, Int.add_zero]

/-! ## Loops that count -/

theorem count_zero (l : StartLoop) (v : Vars) : l.count v 0 = l.swithText.eval v := by
  unfold count
  rw [Int.zero_mul, Int.add_zero]

theorem Counted.counts_endless (h : l.Counted v) (hrep : l.rep = none) : l.Counts v := by
  have hzero : ∀ use, l.use = some use → l.addText.eval v = 0 := fun use huse => h.endless use huse hrep
  intro body hkeeps k s
  obtain ⟨hat, hended⟩ := (invariant_endless hrep hzero hkeeps).spec k
  rw [place_endless hrep]
  constructor
  · intro hs
    refine ⟨fun use huse => ?_, fun rep hsome => ?_⟩
    · rw [count, hzero use huse, Int.mul_zero, Int.add_zero]
      exact (hat s hs).1 use huse
    · cases hrep.symm.trans hsome
  · intro hs
    obtain ⟨j, -, -, hno, -⟩ := hended s hs
    exact absurd trivial hno

theorem Counted.counts_times (h : l.Counted v) (huse : l.use = none) (hrep : l.rep = some rep) : l.Counts v := by
  intro body hkeeps k s
  obtain ⟨hat, hended⟩ := (invariant_times body (h.uncounted huse rep hrep)).spec k
  have hnone : ∀ {P : String → Prop} use, l.use = some use → P use := by
    intro P use hsome
    cases huse.symm.trans hsome
  rw [place_times huse hrep]
  constructor
  · intro hs
    refine ⟨hnone, fun rep' hrep' => ?_⟩
    cases hrep.symm.trans hrep'
    exact (hat s hs).2.1
  · intro hs
    obtain ⟨j, hj, -, hno, -⟩ := hended s hs
    exact ⟨rep, hrep, by omega, hnone⟩

/-- With a counter, where there is an invariant that says what it is. -/
theorem counts_of_invariant {c : ForLoop LoopVars} {s₀ : LoopVars} {inv : Nat → LoopVars → Prop}
    (huse : l.use = some use) (hrep : l.rep = some rep) (hplace : ∀ k, l.place body v k = c.place (inLoop body) s₀ k)
    (hinv : c.Invariant (inLoop body) s₀ inv (fun k => (k : Int) < max (rep.eval v) 0))
    (hcount : ∀ k s, inv k s → s.vars use = l.count v k) (k : Nat) (s : LoopVars) :
    (l.place body v k = .body s → (∀ use, l.use = some use → s.vars use = l.count v k) ∧
      ∀ rep, l.rep = some rep → (k : Int) < max (rep.eval v) 0) ∧
    (l.place body v k = .after s → ∃ rep, l.rep = some rep ∧ max (rep.eval v) 0 ≤ k ∧
      ∀ use, l.use = some use → s.vars use = l.count v (max (rep.eval v) 0)) := by
  obtain ⟨hat, hended⟩ := hinv.spec k
  rw [hplace]
  constructor
  · intro hs
    obtain ⟨hs, hmore, -⟩ := hat s hs
    constructor
    · intro use' huse'
      cases huse.symm.trans huse'
      exact hcount k s hs
    · intro rep' hrep'
      cases hrep.symm.trans hrep'
      exact hmore
  · intro hs
    obtain ⟨j, hj, hs, hno, hbefore⟩ := hended s hs
    have hlast := eq_times hno hbefore
    refine ⟨rep, hrep, by omega, fun use' huse' => ?_⟩
    cases huse.symm.trans huse'
    rw [← hlast]
    exact hcount j s hs

theorem Counted.counts_counter (h : l.Counted v) (huse : l.use = some use) (hrep : l.rep = some rep) : l.Counts v := by
  have hstart := h.start use rep huse hrep
  have htimes := h.times use rep huse hrep
  intro body hkeeps
  by_cases hadd : l.add = none
  · have hinv := invariant_counter rep huse hstart hkeeps
    rw [htimes] at hinv
    refine counts_of_invariant huse hrep (place_counter huse hrep hadd) hinv fun k s hs => ?_
    rw [hs.1, count, addText_none hadd, Clause.eval, Int.mul_one]
  · have hinv := invariant_steps huse hstart htimes (h.steps use rep huse hrep) hkeeps
    rw [htimes] at hinv
    exact counts_of_invariant huse hrep (place_added huse hrep hadd) hinv fun k s hs => hs.2

theorem Counted.counts (h : l.Counted v) : l.Counts v := by
  cases hrep : l.rep with
  | none => exact h.counts_endless hrep
  | some rep =>
    cases huse : l.use with
    | none => exact h.counts_times huse hrep
    | some use => exact h.counts_counter huse hrep

/-! ## Loops that do not -/

def idle : Body := fun _ w => (w, .next)

def setting (x : String) (n : Int) : Body := fun _ w => (Function.update w x n, .next)

theorem keeps_idle : l.Keeps idle := fun _ _ _ _ => rfl

theorem keeps_setting {x : String} {n : Int} (h : ∀ use, l.use = some use → use ≠ x) : l.Keeps (setting x n) := by
  intro use huse k w
  show Function.update w x n use = w use
  exact Function.update_of_ne (h use huse) n w

/-- A number of times that is changed. -/
theorem Counts.uncounted (h : l.Counts v) (huse : l.use = none) (hrep : l.rep = some rep) :
    rep.Fixed ∨ rep.eval v ≤ 0 := by
  by_cases hfixed : rep.Fixed
  · exact .inl hfixed
  · right
    obtain ⟨x, rfl⟩ := Clause.exists_var hfixed
    by_contra hpos
    obtain ⟨r, hr⟩ : ∃ r : Nat, v x = r := Int.eq_ofNat_of_zero_le (by
      have : ¬ v x ≤ 0 := hpos
      omega)
    -- each execution asks for one more than there were to be
    have hinv : (timesLoop (.var x)).Invariant (inLoop (setting x (r + 1))) { vars := v, loop := 1 }
        (fun k s => s.loop = (k : Int) + 1 ∧ (k = 0 → s.vars x = r) ∧ (0 < k → s.vars x = r + 1))
        (fun k => k ≤ r) := by
      refine ⟨⟨rfl, fun _ => hr, fun h0 => absurd h0 (Nat.lt_irrefl 0)⟩, ?_, ?_⟩
      · intro k s hs
        show decide (s.loop < s.vars x + 1) = true ↔ _
        rw [decide_eq_true_iff, hs.1]
        cases k with
        | zero =>
          rw [hs.2.1 rfl]
          have : ¬ v x ≤ 0 := hpos
          omega
        | succ k =>
          rw [hs.2.2 (Nat.succ_pos k)]
          push_cast
          omega
      · intro k s hs _ _
        refine ⟨?_, fun h0 => absurd h0 (Nat.succ_ne_zero k), fun _ => Function.update_self ..⟩
        show s.loop + 1 = _
        rw [hs.1]
        push_cast
        rfl
    obtain ⟨s, hs, -⟩ := hinv.exists_body (k := r) (fun _ _ => rfl) fun j hj => hj
    have hless := ((h (setting x (r + 1)) (keeps_setting fun use hsome => by cases huse.symm.trans hsome) r s).1
      ((place_times huse hrep r).trans hs)).2 _ hrep
    rw [← lt_times] at hless
    have hval : Clause.eval v (.var x) = r := hr
    omega

/-- Nothing is ever added to the counter. -/
theorem Counts.endless (h : l.Counts v) (huse : l.use = some use) (hrep : l.rep = none) : l.addText.eval v = 0 := by
  have hplace : l.place idle v 0 = .body (l.init { vars := v }) := place_endless hrep 0
  have hfirst := ((h idle keeps_idle 0 _).1 hplace).1 use huse
  rw [init_endless hrep, before_vars huse, varsBefore, Function.update_self, Nat.cast_zero, count_zero] at hfirst
  omega

/-- A counter that is added to itself is doubled. -/
theorem invariant_doubled (rep : Clause) (hself : l.addText = .var use) (hstart : l.swithText.eval (l.varsBefore use v) = l.swithText.eval v) :
    (addedLoop use l.addText).Invariant (inLoop idle) (l.addedStart use rep v)
      (fun k s => (s.loop = (k : Int) + 1 ∧ s.loopEnd = rep.eval (l.varsBefore use v) + 1) ∧
        s.vars use = l.swithText.eval v * 2 ^ k)
      (fun k => (k : Int) < max (rep.eval (l.varsBefore use v)) 0) where
  init := by
    refine ⟨(invariant_added l use rep v idle).init, ?_⟩
    show Function.update _ use _ use = _
    rw [Function.update_self, hstart, pow_zero, Int.mul_one]
  cond := fun k s hinv => (invariant_added l use rep v idle).cond k s hinv.1
  step := by
    intro k s hinv hmore hgo
    refine ⟨(invariant_added l use rep v idle).step k s hinv.1 hmore hgo, ?_⟩
    show Function.update s.vars use (s.vars use + l.addText.eval s.vars) use = _
    rw [Function.update_self, hself, Clause.eval, hinv.2]
    ring

section Counter

variable (huse : l.use = some use) (hrep : l.rep = some rep)
include huse hrep

/-- What the counter is at the first test. -/
theorem exists_first (body : Body) : ∃ s, s.vars use = l.swithText.eval (l.varsBefore use v) ∧
    (l.place body v 0 = .body s ∨ l.place body v 0 = .after s) := by
  have htest : ∀ (c : ForLoop LoopVars) (s₀ : LoopVars),
      c.place (inLoop body) s₀ 0 = .body s₀ ∨ c.place (inLoop body) s₀ 0 = .after s₀ := by
    intro c s₀
    rw [ForLoop.place, ForLoop.test]
    by_cases hc : c.cond s₀ = true
    · exact .inl (if_pos hc)
    · exact .inr (if_neg hc)
  by_cases hadd : l.add = none
  · refine ⟨l.counterStart use rep v, Function.update_self .., ?_⟩
    rw [place_counter huse hrep hadd]
    exact htest _ _
  · refine ⟨l.addedStart use rep v, Function.update_self .., ?_⟩
    rw [place_added huse hrep hadd]
    exact htest _ _

theorem Counts.start (h : l.Counts v) : l.swithText.eval (l.varsBefore use v) = l.swithText.eval v := by
  obtain ⟨s, hs, hat | hended⟩ := exists_first (v := v) huse hrep idle
  · have hfirst := ((h idle keeps_idle 0 s).1 hat).1 use huse
    rw [Nat.cast_zero, count_zero] at hfirst
    exact hs.symm.trans hfirst
  · obtain ⟨rep', hrep', hle, hcount⟩ := (h idle keeps_idle 0 s).2 hended
    have hnone : max (rep'.eval v) 0 = 0 := by
      have : 0 ≤ max (rep'.eval v) 0 := le_max_right _ _
      push_cast at hle
      omega
    have hfirst := hcount use huse
    rw [hnone, count_zero] at hfirst
    exact hs.symm.trans hfirst

/-- The executions that there are, where the program changes nothing. -/
theorem idle_places (hstart : l.swithText.eval (l.varsBefore use v) = l.swithText.eval v) (k : Nat) :
    ((k : Int) < max (rep.eval (l.varsBefore use v)) 0 → ∃ s, l.place idle v k = .body s) ∧
      ((k : Int) = max (rep.eval (l.varsBefore use v)) 0 → ∃ s, l.place idle v k = .after s) := by
  have hplaces : ∀ {c : ForLoop LoopVars} {s₀ : LoopVars} {inv : Nat → LoopVars → Prop},
      (∀ k, l.place idle v k = c.place (inLoop idle) s₀ k) →
      c.Invariant (inLoop idle) s₀ inv (fun k => (k : Int) < max (rep.eval (l.varsBefore use v)) 0) →
      ((k : Int) < max (rep.eval (l.varsBefore use v)) 0 → ∃ s, l.place idle v k = .body s) ∧
        ((k : Int) = max (rep.eval (l.varsBefore use v)) 0 → ∃ s, l.place idle v k = .after s) := by
    intro c s₀ inv hplace hinv
    rw [hplace]
    constructor
    · intro hk
      obtain ⟨s, hs, -⟩ := hinv.exists_body (k := k) (fun _ _ => rfl) fun j hj => by omega
      exact ⟨s, hs⟩
    · intro hk
      obtain ⟨s, hs, -⟩ := hinv.exists_after (k := k) (fun _ _ => rfl) (by omega) fun j hj => by omega
      exact ⟨s, hs⟩
  by_cases hadd : l.add = none
  · exact hplaces (place_counter huse hrep hadd) (invariant_counter rep huse hstart keeps_idle)
  · exact hplaces (place_added huse hrep hadd) (invariant_added l use rep v idle)

theorem Counts.times (h : l.Counts v) : max (rep.eval (l.varsBefore use v)) 0 = max (rep.eval v) 0 := by
  have hstart := h.start huse hrep
  obtain ⟨n, hn⟩ := Int.eq_ofNat_of_zero_le (le_max_right (rep.eval (l.varsBefore use v)) 0)
  obtain ⟨m, hm⟩ := Int.eq_ofNat_of_zero_le (le_max_right (rep.eval v) 0)
  -- the loop ends after `n` executions, and is to end after `m`
  obtain ⟨s, hs⟩ := (idle_places huse hrep hstart n).2 hn.symm
  obtain ⟨rep', hrep', hle, -⟩ := (h idle keeps_idle n s).2 hs
  cases hrep.symm.trans hrep'
  by_contra hne
  have hlt : m < n := by omega
  obtain ⟨t, ht⟩ := (idle_places huse hrep hstart m).1 (by omega)
  have hless := ((h idle keeps_idle m t).1 ht).2 rep hrep
  omega

/-- What the counter is after the first execution, where executions are counted apart. -/
theorem exists_second (hadd : l.add ≠ none) (hpos : 0 < rep.eval (l.varsBefore use v)) (body : Body)
    (hgo : ∀ k w, (body k w).2 = .next) :
    ∃ s w, w = (body 0 (Function.update (l.varsBefore use v) use (l.swithText.eval (l.varsBefore use v)))).1 ∧
      s.vars = Function.update w use (w use + l.addText.eval w) ∧
      (l.place body v 1 = .body s ∨ l.place body v 1 = .after s) := by
  obtain ⟨w, hw⟩ : ∃ w, w = (body 0 (l.addedStart use rep v).vars).1 := ⟨_, rfl⟩
  have hfirst : (addedLoop use l.addText).place (inLoop body) (l.addedStart use rep v) 0 =
      .body (l.addedStart use rep v) := by
    rw [ForLoop.place, ForLoop.test]
    apply if_pos
    show decide ((1 : Int) < rep.eval (l.varsBefore use v) + 1) = true
    rw [decide_eq_true_iff]
    omega
  have hnext : (inLoop body 0 (l.addedStart use rep v)).2 = .next := hgo 0 _
  have hplace : l.place body v 1 =
      (addedLoop use l.addText).test ((addedLoop use l.addText).step (inLoop body 0 (l.addedStart use rep v)).1) := by
    rw [place_added huse hrep hadd, ForLoop.place, hfirst, ForLoop.next, if_pos hnext]
  refine ⟨(addedLoop use l.addText).step (inLoop body 0 (l.addedStart use rep v)).1, w, hw, ?_, ?_⟩
  · rw [hw]
    rfl
  · rw [hplace, ForLoop.test]
    by_cases hc : (addedLoop use l.addText).cond ((addedLoop use l.addText).step (inLoop body 0 (l.addedStart use rep v)).1) = true
    · exact .inl (if_pos hc)
    · exact .inr (if_neg hc)

/-- After the first execution the counter is one step further, whether there is another one or not. -/
theorem Counts.second (h : l.Counts v) (hpos : 0 < rep.eval v) {body : Body} (hkeeps : l.Keeps body) {s : LoopVars}
    (hs : l.place body v 1 = .body s ∨ l.place body v 1 = .after s) :
    s.vars use = l.swithText.eval v + l.addText.eval v := by
  have hone : l.count v 1 = l.swithText.eval v + l.addText.eval v := by
    unfold count
    rw [Int.one_mul]
  obtain hat | hended := hs
  · have hfirst := ((h body hkeeps 1 s).1 hat).1 use huse
    rw [Nat.cast_one, hone] at hfirst
    exact hfirst
  · obtain ⟨rep', hrep', hle, hcount⟩ := (h body hkeeps 1 s).2 hended
    cases hrep.symm.trans hrep'
    have hmax : max (rep.eval v) 0 = 1 := by
      have : rep.eval v ≤ max (rep.eval v) 0 := le_max_left _ _
      push_cast at hle
      omega
    have hfirst := hcount use huse
    rw [hmax, hone] at hfirst
    exact hfirst

theorem Counts.steps (h : l.Counts v) : l.addText.Fixed ∨ rep.eval v ≤ 0 ∨
    (l.addText = .var use ∧ l.addText.eval v = l.swithText.eval v ∧ (rep.eval v ≤ 1 ∨ l.swithText.eval v = 0)) := by
  by_cases hfixed : l.addText.Fixed
  · exact .inl hfixed
  by_cases hpos : rep.eval v ≤ 0
  · exact .inr (.inl hpos)
  right
  right
  obtain ⟨x, hx⟩ := Clause.exists_var hfixed
  have hadd : l.add ≠ none := fun hnone => hfixed ⟨1, addText_none hnone⟩
  have hstart := h.start huse hrep
  have htimes := h.times huse hrep
  have hposB : 0 < rep.eval (l.varsBefore use v) := by
    by_contra hneg
    rw [max_eq_right (Int.not_lt.mp hneg), max_eq_left (by omega)] at htimes
    omega
  by_cases hself : x = use
  · subst hself
    obtain ⟨s, w, hw, hs, hplace⟩ := exists_second huse hrep hadd hposB idle fun _ _ => rfl
    have hwx : w x = l.swithText.eval v := by
      rw [hw, ← hstart]
      exact Function.update_self ..
    have hsame : l.addText.eval v = l.swithText.eval v := by
      have hsecond := h.second huse hrep (by omega) keeps_idle hplace
      rw [hs, Function.update_self, hx, Clause.eval, hwx, ← hx] at hsecond
      omega
    refine ⟨hx, hsame, ?_⟩
    by_cases hone : rep.eval v ≤ 1
    · exact .inl hone
    · -- the third value is four times the start, and is to be three times
      right
      have hthree : l.count v 2 = 3 * l.swithText.eval v := by
        unfold count
        rw [hsame]
        ring
      have hdouble := invariant_doubled rep hx hstart
      rw [htimes] at hdouble
      by_cases htwo : rep.eval v = 2
      · obtain ⟨t, ht, hinv⟩ := hdouble.exists_after (k := 2) (fun _ _ => rfl) (by rw [htwo]; decide)
          fun j hj => by rw [htwo]; exact lt_times.mp (by omega)
        obtain ⟨rep', hrep', -, hcount⟩ := (h idle keeps_idle 2 t).2 ((place_added huse hrep hadd 2).trans ht)
        cases hrep.symm.trans hrep'
        have hval := hcount x huse
        rw [htwo, show max (2 : Int) 0 = 2 from rfl, hthree, hinv.2] at hval
        omega
      · obtain ⟨t, ht, hinv⟩ := hdouble.exists_body (k := 2) (fun _ _ => rfl) fun j hj => lt_times.mp (by omega)
        have hval := ((h idle keeps_idle 2 t).1 ((place_added huse hrep hadd 2).trans ht)).1 x huse
        rw [Nat.cast_ofNat, hthree, hinv.2] at hval
        omega
  · -- the program adds one to what is added
    exfalso
    have hkeeps : l.Keeps (setting x (l.addText.eval v + 1)) := keeps_setting fun use' huse' => by
      cases huse.symm.trans huse'
      exact Ne.symm hself
    obtain ⟨s, w, hw, hs, hplace⟩ := exists_second huse hrep hadd hposB
      (setting x (l.addText.eval v + 1)) fun _ _ => rfl
    have hwuse : w use = l.swithText.eval v := by
      rw [hw, ← hstart]
      show Function.update (Function.update _ use _) x _ use = _
      rw [Function.update_of_ne (Ne.symm hself), Function.update_self]
    have hwx : w x = l.addText.eval v + 1 := by
      rw [hw]
      exact Function.update_self ..
    have hsecond := h.second huse hrep (by omega) hkeeps hplace
    rw [hs, Function.update_self, hwuse] at hsecond
    have hval : l.addText.eval w = l.addText.eval v + 1 := by
      conv_lhs => rw [hx]
      exact hwx
    omega

end Counter

/-- A loop counts as it is written just where nothing is to be added without a number of times, and the clauses stay
what they are. -/
theorem counts_iff (l : StartLoop) (v : Vars) : l.Counts v ↔ l.Counted v := by
  constructor
  · intro h
    exact {
      uncounted := fun huse rep hrep => h.uncounted huse hrep
      endless := fun use huse hrep => h.endless huse hrep
      start := fun use rep huse hrep => h.start huse hrep
      times := fun use rep huse hrep => h.times huse hrep
      steps := fun use rep huse hrep => h.steps huse hrep }
  · exact Counted.counts

/-- A counter without a number of times. -/
theorem not_counts_endless : ¬ (StartLoop.mk none (some "i") none none (by simp)).Counts fun _ => 0 := by
  intro h
  have hfirst := (h idle keeps_idle 0 { vars := fun _ => 0, loop := 1 }).1
  have hplace : (StartLoop.mk none (some "i") none none (by simp)).place idle (fun _ => 0) 0 =
      .body { vars := Function.update (fun _ => 0) "i" (1 - 1), loop := 1 } := rfl
  have hseen := ((h idle keeps_idle 0 _).1 hplace).1 "i" rfl
  have hzero : (0 : Int) = 1 := hseen
  cases hzero

end StartLoop

end RimStone
