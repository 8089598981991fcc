import RimStone.Memory.Str
import Mathlib.Data.List.TakeWhile

/-!
# C strings

The C string of a run of bytes is what it holds before its first null. It is all that
`strcmp` reads.
-/

namespace RimStone

def cstr (s : Bytes) : Bytes := s.takeWhile (· ≠ 0)

@[simp] theorem cstr_nil : cstr [] = [] := rfl

theorem cstr_cons (a : UInt8) (s : Bytes) : cstr (a :: s) = if a = 0 then [] else a :: cstr s := by
  unfold cstr
  rw [List.takeWhile_cons]
  by_cases ha : a = 0 <;> simp [ha]

theorem cstr_cstr (s : Bytes) : cstr (cstr s) = cstr s := by
  unfold cstr
  exact List.takeWhile_idem

/-- `strcmp` compares C strings. -/
theorem strcmp_eq_zero {s t : Bytes} : strcmp (s ++ [0]) (t ++ [0]) = 0 ↔ cstr s = cstr t := by
  induction s generalizing t with
  | nil =>
    cases t with
    | nil => simp [strcmp]
    | cons b t =>
      rw [cstr_nil, cstr_cons]
      by_cases hb : b = 0
      · simp [strcmp, hb]
      · have hpos : 0 < b := by
          rw [UInt8.lt_iff_toNat_lt]
          exact Nat.pos_of_ne_zero fun hz => hb (UInt8.toNat_inj.mp hz)
        simp [strcmp, hb, hpos]
  | cons a s ih =>
    cases t with
    | nil =>
      rw [cstr_nil, cstr_cons]
      by_cases ha : a = 0
      · simp [strcmp, ha]
      · have hpos : 0 < a := by
          rw [UInt8.lt_iff_toNat_lt]
          exact Nat.pos_of_ne_zero fun hz => ha (UInt8.toNat_inj.mp hz)
        have hlt : ¬ a < 0 := by
          rw [UInt8.lt_iff_toNat_lt]
          exact Nat.not_lt_zero _
        simp [strcmp, ha, hpos, hlt]
    | cons b t =>
      simp only [List.cons_append, strcmp, cstr_cons]
      by_cases hab : a = b
      · subst hab
        have hirr : ¬ a < a := fun h => Nat.lt_irrefl _ (UInt8.lt_iff_toNat_lt.mp h)
        by_cases ha : a = 0
        · simp [ha]
        · simp [hirr, ha, ih]
      · -- different bytes: one is less, and the strings differ here
        have hne : (if a < b then (-1 : Int) else if b < a then 1 else if a = 0 then 0
            else strcmp (s ++ [0]) (t ++ [0])) ≠ 0 := by
          by_cases hlt : a < b
          · simp [hlt]
          · have hgt : b < a := by
              rw [UInt8.lt_iff_toNat_lt] at hlt ⊢
              have hnat : a.toNat ≠ b.toNat := fun e => hab (UInt8.toNat_inj.mp e)
              omega
            simp [hlt, hgt]
        refine iff_of_false hne ?_
        by_cases ha : a = 0 <;> by_cases hb : b = 0 <;> simp [ha, hb, hab]
        exact hab (ha.trans hb.symm)

theorem cstr_eq_self {s : Bytes} (h : ∀ x ∈ s, x ≠ 0) : cstr s = s := by
  unfold cstr
  rw [List.takeWhile_eq_self_iff]
  intro x hx
  exact decide_eq_true (h x hx)

/-- `strcmp` does not read past a null. -/
theorem strcmp_null_append (s x t : Bytes) : strcmp (s ++ 0 :: x) t = strcmp (s ++ [0]) t := by
  induction s generalizing t with
  | nil =>
    cases t with
    | nil => rfl
    | cons b t =>
      simp only [List.nil_append, strcmp]
      simp
  | cons a s ih =>
    cases t with
    | nil => rfl
    | cons b t => simp only [List.cons_append, strcmp, ih]

/-- Strings without nulls are compared as they are. -/
theorem strcmp_terminated {s t : Bytes} (hs : ∀ x ∈ s, x ≠ 0) (ht : ∀ x ∈ t, x ≠ 0) (x : Bytes) :
    strcmp (s ++ 0 :: x) (t ++ [0]) = 0 ↔ s = t := by
  rw [strcmp_null_append, strcmp_eq_zero, cstr_eq_self hs, cstr_eq_self ht]

end RimStone
