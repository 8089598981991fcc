import Mathlib.Data.Nat.Digits.Defs

/-!
# Numbers of a fixed width

A number written with `k` digits, the most significant first, as file formats and
protocols write lengths.
-/

namespace RimStone.Lib

/-- The number that digits make, most significant first. -/
def number (b : Nat) : List Nat → Nat
  | [] => 0
  | d :: ds => d * b ^ ds.length + number b ds

/-- The digits the other way round are those of Mathlib. -/
theorem number_eq_ofDigits (b : Nat) (ds : List Nat) : number b ds = Nat.ofDigits b ds.reverse := by
  induction ds with
  | nil => rfl
  | cons d ds ih =>
    rw [number, List.reverse_cons, Nat.ofDigits_append, Nat.ofDigits_singleton, List.length_reverse, ih,
      Nat.mul_comm, Nat.add_comm]

theorem number_reverse_digits (b n : Nat) : number b (Nat.digits b n).reverse = n := by
  rw [number_eq_ofDigits, List.reverse_reverse, Nat.ofDigits_digits]

/-- The last `k` digits of a number. -/
def digits (b : Nat) : Nat → Nat → List Nat
  | 0, _ => []
  | k + 1, n => n / b ^ k % b :: digits b k n

@[simp] theorem length_digits (b k n : Nat) : (digits b k n).length = k := by
  induction k with
  | zero => rfl
  | succ k ih => rw [digits, List.length_cons, ih]

theorem digits_lt {b : Nat} (hb : 0 < b) (k n : Nat) : ∀ d ∈ digits b k n, d < b := by
  induction k with
  | zero =>
    intro d hd
    cases hd
  | succ k ih =>
    intro d hd
    rcases List.mem_cons.mp hd with rfl | hd
    · exact Nat.mod_lt _ hb
    · exact ih d hd

/-- What `k` digits leave of a number. -/
theorem number_digits (b k n : Nat) : number b (digits b k n) = n % b ^ k := by
  induction k with
  | zero => rw [Nat.pow_zero, Nat.mod_one, digits, number]
  | succ k ih =>
    rw [digits, number, length_digits, ih, Nat.mod_pow_succ, Nat.mul_comm, Nat.add_comm]

theorem number_digits_of_lt {b k n : Nat} (h : n < b ^ k) : number b (digits b k n) = n := by
  rw [number_digits, Nat.mod_eq_of_lt h]

/-- Digits make a number of their width. -/
theorem number_lt {b : Nat} {ds : List Nat} (h : ∀ d ∈ ds, d < b) : number b ds < b ^ ds.length := by
  induction ds with
  | nil => exact Nat.one_pos
  | cons d ds ih =>
    obtain ⟨hd, hds⟩ := List.forall_mem_cons.mp h
    have hrest := ih hds
    have hle : (d + 1) * b ^ ds.length ≤ b * b ^ ds.length := Nat.mul_le_mul_right _ hd
    rw [number, List.length_cons, Nat.pow_succ, Nat.mul_comm (b ^ ds.length)]
    rw [Nat.add_mul, Nat.one_mul] at hle
    omega

end RimStone.Lib
