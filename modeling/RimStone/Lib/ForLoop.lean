/-!
# Loops of C

`for (init; cond; step) body`, from the state after `init` on. Each execution of the body goes on to the step or leaves
the loop; what it does may be different each time. `ForLoop.place` is where the loop is after a number of executions.

The rule is that of `ForLoop.Invariant`, which counts the executions and says of each whether it is to take place.
-/

namespace RimStone.Lib

universe u

/-- How an execution of a body ends: at its end or with `continue`, or with `break`. -/
inductive Exit where
  | next
  | leave
  deriving DecidableEq, Repr

/-- Where a loop is: at the beginning of its body, behind its end, or left. -/
inductive Place (σ : Type u) where
  | body (s : σ)
  | after (s : σ)
  | left

structure ForLoop (σ : Type u) where
  cond : σ → Bool
  step : σ → σ

namespace ForLoop

variable {σ : Type u} (c : ForLoop σ) (body : Nat → σ → σ × Exit)

def test (s : σ) : Place σ := if c.cond s then .body s else .after s

/-- From one place to the next, where the body is executed for the `k`-th time. -/
def next (k : Nat) : Place σ → Place σ
  | .body s => if (body k s).2 = .next then c.test (c.step (body k s).1) else .left
  | p => p

/-- Where the loop is after `k` executions, or as many as there are. -/
def place (s : σ) : Nat → Place σ
  | 0 => c.test s
  | k + 1 => c.next body k (place s k)

variable {c body} {s₀ s : σ} {k : Nat}

theorem test_body (h : c.test s₀ = .body s) : s = s₀ ∧ c.cond s = true := by
  unfold test at h
  split at h
  next hc =>
    cases h
    exact ⟨rfl, hc⟩
  next => cases h

theorem test_after (h : c.test s₀ = .after s) : s = s₀ ∧ ¬ c.cond s = true := by
  unfold test at h
  split at h
  next => cases h
  next hc =>
    cases h
    exact ⟨rfl, hc⟩

/-- An execution that takes place comes after one that goes on. -/
theorem place_succ_body (h : c.place body s₀ (k + 1) = .body s) :
    ∃ t, c.place body s₀ k = .body t ∧ (body k t).2 = .next ∧ c.test (c.step (body k t).1) = .body s := by
  rw [place] at h
  cases hp : c.place body s₀ k with
  | body t =>
    rw [hp, next] at h
    split at h
    next hnext => exact ⟨t, rfl, hnext, h⟩
    next => cases h
  | after t =>
    rw [hp] at h
    cases h
  | left =>
    rw [hp] at h
    cases h

/-- The loop has ended before, or ends now. -/
theorem place_succ_after (h : c.place body s₀ (k + 1) = .after s) : c.place body s₀ k = .after s ∨
    ∃ t, c.place body s₀ k = .body t ∧ (body k t).2 = .next ∧ c.test (c.step (body k t).1) = .after s := by
  rw [place] at h
  cases hp : c.place body s₀ k with
  | body t =>
    rw [hp, next] at h
    split at h
    next hnext => exact .inr ⟨t, rfl, hnext, h⟩
    next => cases h
  | after t =>
    rw [hp] at h
    exact .inl h
  | left =>
    rw [hp] at h
    cases h

/-- Where all executions go on, the loop is not left. -/
theorem place_ne_left (hbody : ∀ k s, (body k s).2 = .next) (k : Nat) : c.place body s₀ k ≠ .left := by
  intro h
  induction k with
  | zero =>
    rw [place, test] at h
    split at h <;> cases h
  | succ k ih =>
    rw [place] at h
    cases hp : c.place body s₀ k with
    | body t =>
      rw [hp, next, if_pos (hbody k t), test] at h
      split at h <;> cases h
    | after t =>
      rw [hp] at h
      cases h
    | left => exact ih hp

/-- What holds at each test, where executions go on: `inv` after so many executions, and the next one takes place just
where `more` says so. -/
structure Invariant (c : ForLoop σ) (body : Nat → σ → σ × Exit) (s₀ : σ) (inv : Nat → σ → Prop) (more : Nat → Prop) :
    Prop where
  init : inv 0 s₀
  cond : ∀ k s, inv k s → (c.cond s = true ↔ more k)
  step : ∀ k s, inv k s → more k → (body k s).2 = .next → inv (k + 1) (c.step (body k s).1)

variable {inv : Nat → σ → Prop} {more : Nat → Prop}

/-- An execution takes place where it and all before are to, and the loop ends at the first that is not to. -/
theorem Invariant.spec (h : c.Invariant body s₀ inv more) (k : Nat) :
    (∀ s, c.place body s₀ k = .body s → inv k s ∧ more k ∧ ∀ j < k, more j) ∧
      ∀ s, c.place body s₀ k = .after s → ∃ j ≤ k, inv j s ∧ ¬ more j ∧ ∀ i < j, more i := by
  induction k with
  | zero =>
    constructor
    · intro s hs
      obtain ⟨rfl, hc⟩ := test_body hs
      exact ⟨h.init, (h.cond 0 s h.init).mp hc, fun j hj => absurd hj (Nat.not_lt_zero j)⟩
    · intro s hs
      obtain ⟨rfl, hc⟩ := test_after hs
      exact ⟨0, Nat.le_refl 0, h.init, fun hm => hc ((h.cond 0 s h.init).mpr hm), fun j hj => absurd hj (Nat.not_lt_zero j)⟩
  | succ k ih =>
    -- the state at the next test
    have hnext : ∀ t, c.place body s₀ k = .body t → (body k t).2 = .next →
        inv (k + 1) (c.step (body k t).1) ∧ ∀ j < k + 1, more j := by
      intro t ht hgo
      obtain ⟨hinv, hmore, hbefore⟩ := ih.1 t ht
      refine ⟨h.step k t hinv hmore hgo, fun j hj => ?_⟩
      obtain hlt | rfl := Nat.lt_succ_iff_lt_or_eq.mp hj
      · exact hbefore j hlt
      · exact hmore
    constructor
    · intro s hs
      obtain ⟨t, ht, hgo, htest⟩ := place_succ_body hs
      obtain ⟨rfl, hc⟩ := test_body htest
      obtain ⟨hinv, hbefore⟩ := hnext t ht hgo
      exact ⟨hinv, (h.cond _ _ hinv).mp hc, hbefore⟩
    · intro s hs
      obtain hended | ⟨t, ht, hgo, htest⟩ := place_succ_after hs
      · obtain ⟨j, hj, hrest⟩ := ih.2 s hended
        exact ⟨j, Nat.le_succ_of_le hj, hrest⟩
      · obtain ⟨rfl, hc⟩ := test_after htest
        obtain ⟨hinv, hbefore⟩ := hnext t ht hgo
        exact ⟨k + 1, Nat.le_refl _, hinv, fun hm => hc ((h.cond _ _ hinv).mpr hm), hbefore⟩

/-- An execution takes place where it and all before are to. -/
theorem Invariant.exists_body (h : c.Invariant body s₀ inv more) (hbody : ∀ k s, (body k s).2 = .next) {k : Nat}
    (hmore : ∀ j ≤ k, more j) : ∃ s, c.place body s₀ k = .body s ∧ inv k s := by
  obtain ⟨hat, hended⟩ := h.spec k
  cases hp : c.place body s₀ k with
  | body s => exact ⟨s, rfl, (hat s hp).1⟩
  | after s =>
    obtain ⟨j, hj, -, hno, -⟩ := hended s hp
    exact absurd (hmore j hj) hno
  | left => exact absurd hp (place_ne_left hbody k)

/-- The loop has ended where the next execution is not to take place and all before are to. -/
theorem Invariant.exists_after (h : c.Invariant body s₀ inv more) (hbody : ∀ k s, (body k s).2 = .next) {k : Nat}
    (hno : ¬ more k) (hmore : ∀ j < k, more j) : ∃ s, c.place body s₀ k = .after s ∧ inv k s := by
  obtain ⟨hat, hended⟩ := h.spec k
  cases hp : c.place body s₀ k with
  | body s => exact absurd (hat s hp).2.1 hno
  | after s =>
    obtain ⟨j, hj, hinv, hnoj, -⟩ := hended s hp
    obtain hlt | rfl := Nat.lt_or_eq_of_le hj
    · exact absurd (hmore j hlt) hnoj
    · exact ⟨s, rfl, hinv⟩
  | left => exact absurd hp (place_ne_left hbody k)

end ForLoop

end RimStone.Lib
