import RimStone.Hash.Hash
import RimStone.Laws.Memory.Str

/-!
# Keys

A hash compares keys in three ways: `rim_add_hash` up to the first null byte,
`rim_find_hash` by length and bytes, and `rim_compute_hash` reads up to the first
null byte. What they have in common is the C string of a key, its bytes before the
first null: keys that are equal in any of the ways have the same C string, and so
are in the same bucket.
-/

namespace RimStone

/-- Bytes that compare equal over their whole length are equal. -/
theorem memcmp_eq_zero {s t : Bytes} (hlen : s.length = t.length) (p q : Bytes) :
    memcmp s.length (s ++ p) (t ++ q) = 0 ↔ s = t := by
  induction s generalizing t with
  | nil =>
    obtain rfl := List.length_eq_zero_iff.mp hlen.symm
    simp [memcmp]
  | cons a s ih =>
    cases t with
    | nil => cases hlen
    | cons b t =>
      have ih := ih (t := t) (Nat.succ.inj hlen)
      simp only [List.length_cons, List.cons_append, memcmp, List.cons.injEq]
      by_cases hab : a = b
      · subst hab
        have hirr : ¬ a < a := fun h => Nat.lt_irrefl _ (UInt8.lt_iff_toNat_lt.mp h)
        simp [hirr, ih]
      · have hnat : a.toNat ≠ b.toNat := fun e => hab (UInt8.toNat_inj.mp e)
        by_cases hlt : a < b
        · simp [hlt, hab]
        · have hgt : b < a := by
            rw [UInt8.lt_iff_toNat_lt] at hlt ⊢
            omega
          simp [hlt, hgt, hab]

theorem rimCmStr_iff {a b : RimStr} : rimCmStr a (rimMemGetLen a) b (rimMemGetLen b) = true ↔ a.bytes = b.bytes := by
  unfold rimCmStr rimMemGetLen RimStr.memory
  by_cases hlen : a.bytes.length = b.bytes.length
  · simp [hlen, ← memcmp_eq_zero hlen [0] [0]]
  · simp only [hlen, ne_eq, not_false_eq_true, ↓reduceIte, Bool.false_eq_true, false_iff]
    intro he
    exact hlen (congrArg List.length he)

theorem rimFnvComp_cstr (h : UInt32) (s : Bytes) : rimFnvComp h (s ++ [0]) = rimFnvComp h (cstr s ++ [0]) := by
  induction s generalizing h with
  | nil => rfl
  | cons a s ih =>
    rw [cstr_cons]
    by_cases ha : a = 0
    · simp [rimFnvComp, ha]
    · simp [rimFnvComp, ha, ih]

/-- The bucket of a key depends on its C string. -/
theorem rimComputeHash_congr {a b : RimStr} (h : cstr a.bytes = cstr b.bytes) (size : Nat) :
    rimComputeHash a size = rimComputeHash b size := by
  unfold rimComputeHash RimStr.memory
  rw [rimFnvComp_cstr, h, ← rimFnvComp_cstr]

theorem rimComputeHash_lt (key : RimStr) {size : Nat} (h : 0 < size) : rimComputeHash key size < size :=
  Nat.mod_lt _ h

end RimStone
