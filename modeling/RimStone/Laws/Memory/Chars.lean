import RimStone.Memory.Chars
import RimStone.Lib.InPlace
import RimStone.Lib.First

/-!
# Reads and writes of a block

What a function of C does with one block, by what the block holds: bytes are appended
to what was written so far, a byte is searched, a string begins a block.

`strstr` and `strcasestr` test one place after another, so each answers the first place where the bytes that begin there
are the ones that are looked for, or are the same but for their case.
-/

namespace RimStone

open RimStone.Lib

theorem notMem_of_all {c : UInt8} {b : Bytes} (h : (b.all fun x => x != c) = true) : c ∉ b := fun hc => by
  have hne := List.all_eq_true.mp h c hc
  rw [bne_self_eq_false] at hne
  cases hne

theorem isdigit_repr {n : Nat} {c : UInt8} (hc : c ∈ ascii (Nat.repr n)) : isdigit c = true := by
  obtain ⟨d, hd, rfl⟩ := List.mem_map.mp hc
  have hdigit : d.isDigit = true :=
    Nat.isDigit_of_mem_toDigits (b := 10) (n := n) (by decide) (by decide) (by simpa using hd)
  have hrange : 48 ≤ d.toNat ∧ d.toNat ≤ 57 := by
    simpa [Char.isDigit, UInt32.le_iff_toNat_le] using hdigit
  have hval : (UInt8.ofNat d.toNat).toNat = d.toNat := by
    rw [UInt8.toNat_ofNat']
    omega
  simp only [isdigit, Bool.and_eq_true, decide_eq_true_eq, UInt8.le_iff_toNat_le, hval, UInt8.reduceToNat]
  exact hrange

theorem poke_eq {b : Bytes} {i : Nat} (h : i < b.length) (c : UInt8) :
    poke b i c = some (b.set i c) := if_pos h

/-- Bytes are appended to what was written to a block. -/
theorem memcpy_append (out : Bytes) {free src : Bytes} (h : src.length ≤ free.length) :
    memcpy (out ++ free) out.length src = some (out ++ src ++ free.drop src.length) := by
  unfold memcpy
  rw [if_pos (by rw [List.length_append]; omega), List.take_left, List.drop_append]
  simp

/-- Bytes are written over as many others. -/
theorem memcpy_middle (a : Bytes) {b src : Bytes} (c : Bytes) (h : src.length = b.length) :
    memcpy (a ++ (b ++ c)) a.length src = some (a ++ (src ++ c)) := by
  unfold memcpy
  rw [if_pos (by simp only [List.length_append]; omega), List.take_left, h, ← List.append_assoc a b c,
    ← List.length_append, List.drop_left, List.append_assoc]

theorem getElem?_middle (a : Bytes) (x : UInt8) (c : Bytes) : (a ++ x :: c)[a.length]? = some x := by
  rw [List.getElem?_append_right (Nat.le_refl _), Nat.sub_self, List.getElem?_cons_zero]

theorem poke_middle (a : Bytes) (x : UInt8) (c : Bytes) (y : UInt8) :
    poke (a ++ x :: c) a.length y = some (a ++ y :: c) := by
  rw [poke_eq (by rw [List.length_append, List.length_cons]; omega),
    List.set_append_right _ _ (Nat.le_refl _), Nat.sub_self, List.set_cons_zero]

theorem strchrLoop_append {c : UInt8} {k : Bytes} (hk : ∀ x ∈ k, x ≠ c ∧ x ≠ 0) (b : Bytes) (i : Nat) :
    strchrLoop c (k ++ b) i = strchrLoop c b (i + k.length) := by
  induction k generalizing i with
  | nil => rfl
  | cons x k ih =>
    obtain ⟨hx, hk⟩ := List.forall_mem_cons.mp hk
    rw [List.cons_append, strchrLoop, if_neg hx.1, if_neg hx.2, ih hk, List.length_cons]
    congr 1
    omega

theorem strchr_found {c : UInt8} {k : Bytes} (hk : ∀ x ∈ k, x ≠ c ∧ x ≠ 0) (a b : Bytes) :
    strchr (a ++ (k ++ c :: b)) a.length c = some (some (a.length + k.length)) := by
  unfold strchr
  rw [List.drop_left, strchrLoop_append hk, strchrLoop, if_pos rfl]

theorem strchr_null {c : UInt8} (hc : c ≠ 0) {k : Bytes} (hk : ∀ x ∈ k, x ≠ c ∧ x ≠ 0) (a b : Bytes) :
    strchr (a ++ (k ++ 0 :: b)) a.length c = some none := by
  unfold strchr
  rw [List.drop_left, strchrLoop_append hk, strchrLoop, if_neg (Ne.symm hc), if_pos rfl]

/-- What was written in place is ended with a null. -/
theorem exists_poke_null {v out rest : Bytes} {x : UInt8} {i j : Nat} (h : InPlace v out (x :: rest) i j) :
    ∃ v', poke v j 0 = some v' ∧ v'.take (j + 1) = out ++ [0] := by
  have hj := h.lt
  refine ⟨v.set j 0, poke_eq hj 0, ?_⟩
  exact (h.step 0).written

/-! ## The first occurrence -/

theorem strstr_where (t s : Bytes) : FirstWhere (fun k => k ≤ s.length ∧ (s.drop k).take t.length = t) (strstr s t) := by
  apply FirstWhere.of_search (fun s => s.take t.length = t) fun s => strstr s t
  · rw [strstr, List.take_nil]
    simp only [eq_comm]
  · intro c s
    rw [strstr]

theorem strcasestr_where (t s : Bytes) :
    FirstWhere (fun k => k ≤ s.length ∧ sameCase ((s.drop k).take t.length) t = true) (strcasestr s t) := by
  apply FirstWhere.of_search (fun s => sameCase (s.take t.length) t = true) fun s => strcasestr s t
  · have hempty : sameCase [] t = true ↔ t = [] := by
      unfold sameCase
      rw [beq_iff_eq, List.map_nil, eq_comm, List.map_eq_nil_iff]
    rw [strcasestr, List.take_nil]
    simp only [hempty]
  · intro c s
    rw [strcasestr]

theorem length_of_sameCase {s t : Bytes} (h : sameCase s t = true) : s.length = t.length := by
  have hlen := congrArg List.length (beq_iff_eq.mp h)
  rwa [List.length_map, List.length_map] at hlen

end RimStone
