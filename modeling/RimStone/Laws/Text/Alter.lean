import RimStone.Text.Edit

/-!
# Replacing exactly what fits

Bytes are replaced where every position they go to is in the target, and nothing changes where one is
not. Two checks stand for that, and the first one is made before a position from the end is turned into
one from the beginning: there, the position as long as the target is the beginning of it. So bytes that
begin at the beginning, such as those that fill the target, are refused when they are counted from the end.
-/

namespace RimStone

/-- How many bytes are copied: all of them where the length is negative. -/
def copyCount (copy : Bytes) (len : Int) : Int := if len < 0 then copy.length else len

/-- How far from the beginning or the end the copy goes; where it is negative, so that the copy begins at the
beginning or ends at the end. -/
def copyPosition (copy : Bytes) (swith len : Int) (begin : Bool) : Int :=
  if swith < 0 then if begin then 0 else copyCount copy len else swith

def copyStart (tgt copy : Bytes) (swith len : Int) (begin : Bool) : Int :=
  if begin then copyPosition copy swith len begin else tgt.length - copyPosition copy swith len begin

/-- All of `n` positions from `start` on are in the target. -/
def AllWithin (tgt : Bytes) (start n : Int) : Prop := ∀ k, 0 ≤ k → k < n → 0 ≤ start + k ∧ start + k < tgt.length

/-- The bytes are replaced if their positions are in the target, and else nothing is. -/
structure Alters (tgt copy : Bytes) (swith len : Int) (begin : Bool) : Prop where
  replaced : AllWithin tgt (copyStart tgt copy swith len begin) (copyCount copy len) →
    rimAlterString tgt copy swith len begin = .ok (tgt.take (copyStart tgt copy swith len begin).toNat ++
      copy.take (copyCount copy len).toNat ++
      tgt.drop ((copyStart tgt copy swith len begin).toNat + (copyCount copy len).toNat))
  refused : ¬ AllWithin tgt (copyStart tgt copy swith len begin) (copyCount copy len) →
    ∃ message, rimAlterString tgt copy swith len begin = .error (.report message tgt)

/-- The position is at the end of the target or after it, and is still one to copy to: no bytes go there, or
it is the beginning, counted from the end. -/
def Overlooked (tgt copy : Bytes) (swith len : Int) (begin : Bool) : Prop :=
  len ≠ 0 ∧ tgt.length ≤ copyPosition copy swith len begin ∧
    (copyCount copy len = 0 ∨
      (begin = false ∧ copyPosition copy swith len begin = tgt.length ∧ copyCount copy len ≤ tgt.length))

section Alter

variable {tgt copy : Bytes} {swith len : Int} {begin : Bool}

theorem allWithin_iff {start n : Int} (hn : 0 ≤ n) : AllWithin tgt start n ↔ n = 0 ∨ (0 ≤ start ∧ start + n ≤ tgt.length) := by
  constructor
  · intro h
    by_cases hzero : n = 0
    · exact .inl hzero
    · have hfirst := h 0 (by omega) (by omega)
      have hlast := h (n - 1) (by omega) (by omega)
      exact .inr ⟨by omega, by omega⟩
  · rintro (rfl | h) k hk hkn
    · omega
    · omega

theorem copyCount_bounds (hlen : len ≤ copy.length) : 0 ≤ copyCount copy len ∧ copyCount copy len ≤ copy.length := by
  unfold copyCount
  split <;> omega

theorem copyPosition_nonneg (hlen : len ≤ copy.length) : 0 ≤ copyPosition copy swith len begin := by
  have hcount := (copyCount_bounds hlen).1
  unfold copyPosition
  split
  · split
    · exact Int.le_refl 0
    · exact hcount
  · omega

theorem rimAlterString_zero : rimAlterString tgt copy swith 0 begin = .ok tgt := if_pos rfl

theorem rimAlterString_longer (hlen : copy.length < len) :
    ∃ message, rimAlterString tgt copy swith len begin = .error (.report message tgt) := by
  unfold rimAlterString
  rw [if_neg (by omega), if_pos ⟨by omega, hlen⟩]
  exact ⟨_, rfl⟩

/-- A copy to a position in the target is made if it ends in it. -/
theorem rimAlterString_inside (hzero : len ≠ 0) (hlen : len ≤ copy.length)
    (hpos : copyPosition copy swith len begin < tgt.length)
    (hend : copyStart tgt copy swith len begin + copyCount copy len ≤ tgt.length) :
    rimAlterString tgt copy swith len begin = .ok (tgt.take (copyStart tgt copy swith len begin).toNat ++
      copy.take (copyCount copy len).toNat ++
      tgt.drop ((copyStart tgt copy swith len begin).toNat + (copyCount copy len).toNat)) := by
  obtain ⟨hcount, hle⟩ := copyCount_bounds hlen
  have hnonneg : 0 ≤ copyPosition copy swith len begin := copyPosition_nonneg hlen
  have hstart : 0 ≤ copyStart tgt copy swith len begin := by
    unfold copyStart
    split <;> omega
  have htake : (copy.take (copyCount copy len).toNat).length = (copyCount copy len).toNat := by
    rw [List.length_take]
    omega
  have hcopy : memcpy tgt (copyStart tgt copy swith len begin).toNat (copy.take (copyCount copy len).toNat) =
      some (tgt.take (copyStart tgt copy swith len begin).toNat ++ copy.take (copyCount copy len).toNat ++
        tgt.drop ((copyStart tgt copy swith len begin).toNat + (copyCount copy len).toNat)) := by
    unfold memcpy
    rw [htake, if_pos (by omega)]
  unfold rimAlterString
  rw [if_neg hzero, if_neg (by omega)]
  have hpos' : ¬ copyPosition copy swith len begin ≥ tgt.length := by omega
  have hend' : ¬ copyStart tgt copy swith len begin + copyCount copy len > tgt.length := by omega
  refine (if_neg hpos').trans ((if_neg hend').trans ?_)
  split
  next copied hcopied => exact congrArg Except.ok (Option.some.inj (hcopied.symm.trans hcopy))
  next hnone => cases hnone.symm.trans hcopy

/-- A copy that is not to a position in the target, or that does not end in it, is refused. -/
theorem rimAlterString_outside (hzero : len ≠ 0) (hlen : len ≤ copy.length)
    (h : tgt.length ≤ copyPosition copy swith len begin ∨
      tgt.length < copyStart tgt copy swith len begin + copyCount copy len) :
    ∃ message, rimAlterString tgt copy swith len begin = .error (.report message tgt) := by
  unfold rimAlterString
  rw [if_neg hzero, if_neg (by omega)]
  by_cases hpos : copyPosition copy swith len begin ≥ tgt.length
  · exact ⟨_, if_pos hpos⟩
  · have hend : copyStart tgt copy swith len begin + copyCount copy len > tgt.length := by omega
    exact ⟨_, (if_neg hpos).trans (if_pos hend)⟩

/-- Nothing is copied where the length is zero. -/
theorem alters_zero : Alters tgt copy swith 0 begin := by
  have hcount : copyCount copy 0 = 0 := rfl
  constructor
  · intro _
    rw [rimAlterString_zero, hcount, Int.toNat_zero, List.take_zero, List.append_nil, Nat.add_zero, List.take_append_drop]
  · intro h
    rw [hcount] at h
    exact absurd ((allWithin_iff (Int.le_refl 0)).mpr (.inl rfl)) h

theorem alters_inside (hzero : len ≠ 0) (hlen : len ≤ copy.length) (hpos : copyPosition copy swith len begin < tgt.length) :
    Alters tgt copy swith len begin := by
  have hcount := (copyCount_bounds hlen).1
  have hnonneg : 0 ≤ copyPosition copy swith len begin := copyPosition_nonneg hlen
  have hstart : 0 ≤ copyStart tgt copy swith len begin ∧ copyStart tgt copy swith len begin ≤ tgt.length := by
    unfold copyStart
    split <;> omega
  constructor
  · intro h
    have hend := (allWithin_iff hcount).mp h
    exact rimAlterString_inside hzero hlen hpos (by omega)
  · intro h
    rw [allWithin_iff hcount] at h
    exact rimAlterString_outside hzero hlen (.inr (by omega))

/-- Where the position is refused, the bytes have to be outside. -/
theorem alters_refused (hzero : len ≠ 0) (hlen : len ≤ copy.length)
    (hpos : tgt.length ≤ copyPosition copy swith len begin) :
    Alters tgt copy swith len begin ↔ ¬ AllWithin tgt (copyStart tgt copy swith len begin) (copyCount copy len) := by
  obtain ⟨message, hreport⟩ : ∃ message, rimAlterString tgt copy swith len begin = .error (.report message tgt) :=
    rimAlterString_outside hzero hlen (.inl hpos)
  constructor
  · intro h hin
    cases (h.replaced hin).symm.trans hreport
  · intro h
    exact ⟨fun hin => absurd hin h, fun _ => ⟨message, hreport⟩⟩

/-- Lengths that the copy has not are refused. For all others, bytes are replaced exactly where they fit,
except for positions that are overlooked. -/
theorem rimAlterString_alters_iff (tgt copy : Bytes) (swith len : Int) (begin : Bool) :
    (copy.length < len → ∃ message, rimAlterString tgt copy swith len begin = .error (.report message tgt)) ∧
      (len ≤ copy.length → (Alters tgt copy swith len begin ↔ ¬ Overlooked tgt copy swith len begin)) := by
  refine ⟨rimAlterString_longer, fun hlen => ?_⟩
  have hcount := (copyCount_bounds hlen).1
  by_cases hzero : len = 0
  · subst hzero
    exact iff_of_true alters_zero fun h => h.1 rfl
  · by_cases hpos : copyPosition copy swith len begin < tgt.length
    · exact iff_of_true (alters_inside hzero hlen hpos) fun h => by
        have := h.2.1
        omega
    · rw [alters_refused hzero hlen (by omega), allWithin_iff hcount, not_iff_not]
      unfold Overlooked copyStart
      cases begin with
      | true =>
        simp only [↓reduceIte, Bool.true_eq_false, false_and, or_false]
        omega
      | false =>
        simp only [Bool.false_eq_true, ↓reduceIte, true_and]
        omega

theorem rimAlterString_alters_end : Alters (ascii "abcd") (ascii "xyz") (-1) (-1) false :=
  ((rimAlterString_alters_iff _ _ _ _ _).2 (by decide)).mpr fun h => absurd h.2.1 (by decide)

/-- Three bytes that fill the target are refused when they are to end at its end. -/
theorem rimAlterString_not_alters : ¬ Alters (ascii "abc") (ascii "xyz") (-1) (-1) false := by
  intro h
  have hfill := h.replaced ((allWithin_iff (by decide)).mpr (.inr (by decide)))
  cases hfill

end Alter

end RimStone
