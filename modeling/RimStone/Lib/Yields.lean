/-!
# What a computation that may fail comes to

`Yields allowed P x` says that `x` gives a value with `P`, or fails in one of the ways that
are allowed. It is the rule of one computation after another.
-/

namespace RimStone.Lib

universe u v w

section Yields

variable {ε : Type u} {α : Type v} {β : Type v} {allowed : ε → Prop} {P : α → Prop} {Q : β → Prop}

/-- A value with `P`, or an allowed failure. -/
def Yields (allowed : ε → Prop) (P : α → Prop) : Except ε α → Prop
  | .ok a => P a
  | .error e => allowed e

/-- A step of a computation that has a result has one. -/
theorem bind_eq_ok {x : Except ε α} {f : α → Except ε β} {b : β} :
    (x >>= f) = .ok b ↔ ∃ a, x = .ok a ∧ f a = .ok b := by
  cases x with
  | error e => simp [bind, Except.bind]
  | ok a => simp [bind, Except.bind]

theorem ok_bind (a : α) (f : α → Except ε β) : (Except.ok a >>= f) = f a := rfl

theorem Yields.ok {a : α} (h : P a) : Yields allowed P (.ok a) := h

theorem Yields.error {e : ε} (h : allowed e) : Yields allowed P (.error e) := h

theorem Yields.of_ok {x : Except ε α} (h : Yields allowed P x) {a : α} (hx : x = .ok a) : P a := by
  subst hx
  exact h

theorem Yields.of_error {x : Except ε α} (h : Yields allowed P x) {e : ε} (hx : x = .error e) : allowed e := by
  subst hx
  exact h

theorem Yields.bind {x : Except ε α} {f : α → Except ε β} (h : Yields allowed P x)
    (hf : ∀ a, P a → Yields allowed Q (f a)) : Yields allowed Q (x >>= f) := by
  cases x with
  | ok a => exact hf a h
  | error e => exact h

theorem Yields.mono {P' : α → Prop} {x : Except ε α} (h : Yields allowed P x) (hle : ∀ a, P a → P' a) :
    Yields allowed P' x := by
  cases x with
  | ok a => exact hle a h
  | error e => exact h

/-- The computation goes on where a check does not fail. -/
theorem Yields.check {c : Prop} [Decidable c] {e : ε} {x : Except ε α} (he : allowed e)
    (hx : ¬ c → Yields allowed P x) : Yields allowed P (if c then .error e else x) := by
  by_cases hc : c
  · rw [if_pos hc]
    exact he
  · rw [if_neg hc]
    exact hx hc

/-- A loop whose every step keeps `P`. -/
theorem Yields.foldlM {ι : Type w} {f : α → ι → Except ε α} {l : List ι}
    (hf : ∀ i ∈ l, ∀ a, P a → Yields allowed P (f a i)) {a : α} (ha : P a) :
    Yields allowed P (l.foldlM f a) := by
  induction l generalizing a with
  | nil => exact ha
  | cons i l ih =>
    obtain ⟨hi, hl⟩ := List.forall_mem_cons.mp hf
    rw [List.foldlM_cons]
    exact (hi a ha).bind fun a ha => ih hl ha

end Yields

/-!
## Two computations side by side

`Alongside R x y` says that two computations that may fail do so alike, or give values that `R` relates. It is the
rule for two runs of one program on different data.
-/

section Alongside

variable {ε : Type u} {α γ : Type v} {β δ : Type w} {R R' : α → β → Prop} {S : γ → δ → Prop}
  {x : Except ε α} {y : Except ε β}

/-- The same failure, or values that are related. -/
inductive Alongside (R : α → β → Prop) : Except ε α → Except ε β → Prop
  | error (e : ε) : Alongside R (.error e) (.error e)
  | ok {a : α} {b : β} : R a b → Alongside R (.ok a) (.ok b)

namespace Alongside

/-- One computation after another, on both sides. -/
theorem bind {f : α → Except ε γ} {g : β → Except ε δ} (h : Alongside R x y)
    (hnext : ∀ a b, R a b → Alongside S (f a) (g b)) : Alongside S (x >>= f) (y >>= g) := by
  cases h with
  | error e => exact .error e
  | ok hab => exact hnext _ _ hab

/-- A value on the second side has one on the first. -/
theorem of_ok {b : β} (h : Alongside R x y) (hy : y = .ok b) : ∃ a, x = .ok a ∧ R a b := by
  cases h with
  | error e => cases hy
  | ok hab =>
    obtain rfl := Except.ok.inj hy
    exact ⟨_, rfl, hab⟩

/-- A failure on the second side is one on the first. -/
theorem of_error {e : ε} (h : Alongside R x y) (hy : y = .error e) : x = .error e := by
  cases h with
  | error e' =>
    obtain rfl := Except.error.inj hy
    rfl
  | ok hab => cases hy

end Alongside

end Alongside

end RimStone.Lib
