import Mathlib.Data.List.Count
import Mathlib.Data.List.Flatten

/-!
# Marks that are written twice

Between two marks, a text can have the mark too if it is written twice there. `double q` writes the marks `q` of a text
twice and `undouble q` reads it, where a mark that is not twice is the end of the text, or an error.
-/

namespace RimStone.Lib

variable {α : Type*} [DecidableEq α]

def double (q : α) (s : List α) : List α := s.flatMap fun c => if c = q then [q, q] else [c]

def undouble (q : α) : List α → Option (List α)
  | [] => some []
  | [c] => if c = q then none else some [c]
  | c :: d :: s =>
    if c = q then if d = q then (undouble q s).map (q :: ·) else none else (undouble q (d :: s)).map (c :: ·)

variable (q : α)

theorem double_cons_self (s : List α) : double q (q :: s) = q :: q :: double q s := by
  simp [double]

theorem double_cons_of_ne {c : α} (h : c ≠ q) (s : List α) : double q (c :: s) = c :: double q s := by
  simp [double, h]

theorem double_append (s t : List α) : double q (s ++ t) = double q s ++ double q t := List.flatMap_append ..

theorem undouble_cons_self (s : List α) : undouble q (q :: q :: s) = (undouble q s).map (q :: ·) := by
  rw [undouble, if_pos rfl, if_pos rfl]

theorem undouble_cons_of_ne {c : α} (h : c ≠ q) (s : List α) : undouble q (c :: s) = (undouble q s).map (c :: ·) := by
  cases s with
  | nil => simp [undouble, h]
  | cons d s => rw [undouble, if_neg h]

theorem undouble_double (s : List α) : undouble q (double q s) = some s := by
  induction s with
  | nil => rfl
  | cons c s ih =>
    by_cases hc : c = q
    · subst hc
      rw [double_cons_self, undouble_cons_self, ih, Option.map_some]
    · rw [double_cons_of_ne q hc, undouble_cons_of_ne q hc, ih, Option.map_some]

theorem double_of_notMem {s : List α} (h : q ∉ s) : double q s = s := by
  induction s with
  | nil => rfl
  | cons c s ih =>
    obtain ⟨hc, hs⟩ := List.ne_and_not_mem_of_not_mem_cons h
    rw [double_cons_of_ne q (Ne.symm hc), ih hs]

/-- A text is longer by as many as it has marks. -/
theorem length_double (s : List α) : (double q s).length = s.length + s.count q := by
  induction s with
  | nil => rfl
  | cons c s ih =>
    by_cases hc : c = q
    · subst hc
      rw [double_cons_self, List.count_cons_self, List.length_cons, List.length_cons, List.length_cons, ih]
      omega
    · rw [double_cons_of_ne q hc, List.count_cons_of_ne hc, List.length_cons, List.length_cons, ih]
      omega

/-- A text is written as it is just where it has no mark. -/
theorem double_eq_self_iff {s : List α} : double q s = s ↔ q ∉ s := by
  constructor
  · intro h
    have hlen := congrArg List.length h
    rw [length_double] at hlen
    exact List.count_eq_zero.mp (by omega)
  · exact double_of_notMem q

theorem mem_double {c : α} {s : List α} : c ∈ double q s ↔ c ∈ s := by
  unfold double
  rw [List.mem_flatMap]
  constructor
  · intro h
    obtain ⟨d, hd, hc⟩ := h
    split at hc
    next hq => rwa [show c = d by simpa [hq] using hc]
    next => rwa [List.mem_singleton.mp hc]
  · intro h
    refine ⟨c, h, ?_⟩
    split
    next hq => simp [hq]
    next => exact List.mem_singleton_self c

theorem count_double_of_ne {c : α} (h : c ≠ q) (s : List α) : (double q s).count c = s.count c := by
  induction s with
  | nil => rfl
  | cons d s ih =>
    by_cases hd : d = q
    · subst hd
      rw [double_cons_self, List.count_cons_of_ne (Ne.symm h), List.count_cons_of_ne (Ne.symm h),
        List.count_cons_of_ne (Ne.symm h), ih]
    · rw [double_cons_of_ne q hd, List.count_cons, List.count_cons, ih]

/-- Two different characters are not more than all. -/
theorem count_add_count_le {a b : α} (h : a ≠ b) (s : List α) : s.count a + s.count b ≤ s.length := by
  induction s with
  | nil => exact Nat.le_refl 0
  | cons c s ih =>
    rw [List.count_cons, List.count_cons, List.length_cons]
    by_cases ha : c = a
    · subst ha
      rw [if_pos (beq_self_eq_true c), if_neg (by simpa using h)]
      omega
    · rw [if_neg (by simpa using ha)]
      split <;> omega

end RimStone.Lib
