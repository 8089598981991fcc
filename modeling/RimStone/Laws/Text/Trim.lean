import RimStone.Text.Edit
import RimStone.Lib.Trim
import RimStone.Laws.Memory.Chars

/-!
# A string is trimmed where it is

What `rim_trim_ptr` answers is the trimmed string, with a null after it; the null that
ended the string, and what is beyond, stay where they are.
-/

namespace RimStone

open RimStone.Lib

theorem strlenLoop_eq {v : Bytes} (hv : ∀ x ∈ v, x ≠ 0) (rest : Bytes) (n : Nat) :
    strlenLoop (v ++ 0 :: rest) n = some (n + v.length) := by
  induction v generalizing n with
  | nil => rfl
  | cons x v ih =>
    obtain ⟨hx, hv⟩ := List.forall_mem_cons.mp hv
    rw [List.cons_append, strlenLoop, if_neg hx, ih hv, List.length_cons]
    congr 1
    omega

/-- A string is as long as what is before its null. -/
theorem strlen_eq (pre : Bytes) {v : Bytes} (hv : ∀ x ∈ v, x ≠ 0) (rest : Bytes) :
    strlen (pre ++ (v ++ 0 :: rest)) pre.length = some v.length := by
  rw [strlen, List.drop_left, strlenLoop_eq hv, Nat.zero_add]

theorem trimFrontLoop_eq {a : Bytes} (ha : ∀ x ∈ a, isspace x = true) {x : UInt8}
    (hx : ¬ isspace x = true) (rest : Bytes) (s : Nat) :
    trimFrontLoop (a ++ x :: rest) s = some (s + a.length) := by
  induction a generalizing s with
  | nil => rw [List.nil_append, trimFrontLoop, if_neg hx, List.length_nil, Nat.add_zero]
  | cons y a ih =>
    obtain ⟨hy, ha⟩ := List.forall_mem_cons.mp ha
    rw [List.cons_append, trimFrontLoop, if_pos hy, ih ha, List.length_cons]
    congr 1
    omega

/-- The loop at the end stops after the last byte that is no white space. -/
theorem trimBackLoop_eq {t : Bytes} (ht : ∀ h : t ≠ [], ¬ isspace (t.getLast h) = true) {b : Bytes}
    (hb : ∀ x ∈ b, isspace x = true) (hnil : t = [] → b = []) (pre a rest : Bytes) :
    trimBackLoop (pre ++ (a ++ (t ++ (b ++ rest)))) pre.length a.length (a.length + (t.length + b.length)) =
      some (a.length + t.length) := by
  induction b using List.reverseRecOn generalizing rest with
  | nil =>
    rw [List.length_nil, Nat.add_zero]
    cases hn : a.length + t.length with
    | zero => rw [trimBackLoop]
    | succ e =>
      rw [trimBackLoop]
      by_cases hle : a.length ≤ e
      · -- the last byte that is kept
        have hpos : 0 < t.length := by omega
        have hne : t ≠ [] := List.length_pos_iff.mp hpos
        have hget : (pre ++ (a ++ (t ++ ([] ++ rest))))[pre.length + e]? = some (t.getLast hne) := by
          rw [List.getElem?_append_right (by omega), List.getElem?_append_right (by omega),
            List.getElem?_append_left (by omega), List.getLast_eq_getElem,
            List.getElem?_eq_getElem (by omega)]
          congr 2
          omega
        rw [if_pos hle, hget]
        simp only [bind, Option.bind, if_neg (ht hne)]
      · rw [if_neg hle]
  | append_singleton b c ih =>
    have hne : t ≠ [] := by
      intro h
      have hz := hnil h
      simp at hz
    have hc : isspace c = true := hb c (List.mem_append_right _ (List.mem_singleton_self c))
    have hbs : ∀ x ∈ b, isspace x = true := by
      intro x hx
      exact hb x (List.mem_append_left _ hx)
    have hih := ih hbs (fun h => absurd h hne) (c :: rest)
    have hlen : a.length + (t.length + (b ++ [c]).length) = (a.length + (t.length + b.length)) + 1 := by
      rw [List.length_append, List.length_singleton]
      omega
    have hle : a.length ≤ a.length + (t.length + b.length) := Nat.le_add_right _ _
    have hsplit : pre ++ (a ++ (t ++ (b ++ [c] ++ rest))) = (pre ++ (a ++ (t ++ b))) ++ c :: rest := by
      simp only [List.append_assoc, List.cons_append, List.nil_append]
    have hplace : pre.length + (a.length + (t.length + b.length)) = (pre ++ (a ++ (t ++ b))).length := by
      simp only [List.length_append]
    have hget : (pre ++ (a ++ (t ++ (b ++ [c] ++ rest))))[pre.length + (a.length + (t.length + b.length))]? =
        some c := by
      rw [hsplit, hplace, getElem?_middle]
    rw [hlen, trimBackLoop, if_pos hle, hget]
    simp only [bind, Option.bind, if_pos hc]
    rw [List.append_assoc]
    exact hih

/-- The white space after a string, where its first byte is nulled. -/
def nulled : Bytes → Bytes
  | [] => []
  | _ :: b => 0 :: b

@[simp] theorem length_nulled (b : Bytes) : (nulled b).length = b.length := by
  cases b <;> rfl

/-- `rim_trim_ptr` of a string. -/
theorem rimTrimPtr_eq (pre : Bytes) {v : Bytes} (hv : ∀ x ∈ v, x ≠ 0) (rest : Bytes) :
    rimTrimPtr (pre ++ (v ++ 0 :: rest)) pre.length v.length =
      some (pre ++ (front isspace v ++ (trim isspace v ++ (nulled (back isspace v) ++ 0 :: rest))),
        pre.length + (front isspace v).length, ((trim isspace v).length : Int)) := by
  have hlen := length_front_trim_back isspace v
  have hsplit : pre ++ (v ++ 0 :: rest) =
      pre ++ (front isspace v ++ (trim isspace v ++ (back isspace v ++ 0 :: rest))) := by
    conv_lhs => rw [← front_trim_back isspace v]
    simp only [List.append_assoc]
  have hfront : ∀ x ∈ front isspace v, isspace x = true := fun x => of_mem_front
  have hback : ∀ x ∈ back isspace v, isspace x = true := fun x => of_mem_back
  -- the first byte that is no white space is a byte of the string, or its null
  have hstart : trimFrontLoop ((pre ++ (v ++ 0 :: rest)).drop pre.length) 0 =
      some (front isspace v).length := by
    rw [hsplit, List.drop_left]
    cases ht : trim isspace v with
    | nil =>
      rw [back_eq_nil ht, List.nil_append, List.nil_append, trimFrontLoop_eq hfront (by decide), Nat.zero_add]
    | cons x t =>
      rw [List.cons_append, trimFrontLoop_eq hfront (trim_head_not ht), Nat.zero_add]
  have hend : trimBackLoop (pre ++ (v ++ 0 :: rest)) pre.length (front isspace v).length v.length =
      some ((front isspace v).length + (trim isspace v).length) := by
    have hloop := trimBackLoop_eq (t := trim isspace v) (fun h => trim_last_not h) hback back_eq_nil pre
      (front isspace v) (0 :: rest)
    rw [hlen, ← hsplit] at hloop
    exact hloop
  have hcount : (v.length : Int) - (front isspace v).length -
      ((v.length : Int) - ((front isspace v).length + (trim isspace v).length : Nat)) =
        (trim isspace v).length := by omega
  have hplace : pre.length + ((front isspace v).length + (trim isspace v).length) =
      (pre ++ (front isspace v ++ trim isspace v)).length := by
    simp only [List.length_append]
  have hblock : pre ++ (v ++ 0 :: rest) =
      (pre ++ (front isspace v ++ trim isspace v)) ++ (back isspace v ++ 0 :: rest) := by
    rw [hsplit]
    simp only [List.append_assoc]
  unfold rimTrimPtr
  simp only [hstart, hend, bind, Option.bind, hcount, hplace]
  rw [hblock]
  cases hb : back isspace v with
  | nil =>
    have hzero : ¬ (0 : UInt8) ≠ 0 := not_not.mpr rfl
    simp only [nulled, List.nil_append, getElem?_middle, if_neg hzero]
    simp only [List.append_assoc]
  | cons x b =>
    have hx : x ≠ 0 := by
      apply hv x
      rw [← front_trim_back isspace v, hb]
      simp
    simp only [nulled, List.cons_append, getElem?_middle, if_pos hx, poke_middle]
    simp only [List.append_assoc]

end RimStone
