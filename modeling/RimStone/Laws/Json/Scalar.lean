import RimStone.Json.Parser
import RimStone.Laws.Text.Quoted

/-!
# Numbers and literals of the parser

Where `rim_json_num` ends, and what `strncmp` finds: the bytes of a number or a literal.
-/

namespace RimStone

open RimStone.Lib

theorem inText_eq_ok {α : Type} {o : Option α} {a : α} : inText o = .ok a ↔ o = some a := by
  cases o with
  | none => simp [inText]
  | some b => simp [inText]

/-- The bytes that a number or a literal can have. -/
def scalarByte (c : UInt8) : Bool :=
  isdigit c || (ascii "+-.eE").contains c || (ascii "truefalsenull").contains c

theorem scalarByte_digit {c : UInt8} (h : isdigit c = true) : scalarByte c = true := by
  simp [scalarByte, h]

theorem literal_scalar {lit : Bytes} (h : lit = ascii "true" ∨ lit = ascii "false" ∨ lit = ascii "null") :
    1 ≤ lit.length ∧ 0 ∉ lit ∧ ∀ c ∈ lit, scalarByte c = true := by
  rcases h with rfl | rfl | rfl
  · simp [ascii, scalarByte]
  · simp [ascii, scalarByte]
  · simp [ascii, scalarByte]

/-- All bytes from `i` up to `j` are such that a number or a literal can have them. -/
def ScalarRun (v : Bytes) (i j : Nat) : Prop := ∀ k, i ≤ k → k < j → ∃ c, v[k]? = some c ∧ scalarByte c = true

theorem ScalarRun.trans {v : Bytes} {i j k : Nat} (h : ScalarRun v i j) (h' : ScalarRun v j k) : ScalarRun v i k := by
  intro n hi hk
  by_cases hj : n < j
  · exact h n hi hj
  · exact h' n (Nat.le_of_not_lt hj) hk

theorem ScalarRun.one {v : Bytes} {i : Nat} {c : UInt8} (hc : v[i]? = some c) (h : scalarByte c = true) :
    ScalarRun v i (i + 1) := by
  intro k hi hk
  obtain rfl : k = i := by omega
  exact ⟨c, hc, h⟩

theorem ScalarRun.refl (v : Bytes) (i : Nat) : ScalarRun v i i :=
  fun _ hi hk => absurd hk (Nat.not_lt.mpr hi)

theorem le_skipDigits (v : Bytes) (i : Nat) : i ≤ skipDigits v i := Nat.le_add_right _ _

/-- `skipDigits` passes digits. -/
theorem skipDigits_run (v : Bytes) (i : Nat) : ScalarRun v i (skipDigits v i) := by
  intro k hi hk
  let w := (v.drop i).takeWhile isdigit
  have hw : k - i < w.length := by
    have hlen : skipDigits v i = i + w.length := rfl
    omega
  obtain ⟨s, hs⟩ := List.takeWhile_prefix isdigit (l := v.drop i)
  have hget : v[k]? = some w[k - i] := by
    obtain ⟨n, rfl⟩ := Nat.exists_eq_add_of_le hi
    rw [← List.getElem?_drop, ← hs, List.getElem?_append_left (by simpa [w] using hw)]
    simp only [Nat.add_sub_cancel_left] at hw ⊢
    exact List.getElem?_eq_getElem hw
  refine ⟨w[k - i], hget, scalarByte_digit ?_⟩
  exact (List.all_eq_true.mp List.all_takeWhile) _ (List.getElem_mem hw)

theorem lt_skipDigits {v : Bytes} {i : Nat} {d : UInt8} (hd : v[i]? = some d) (h : isdigit d = true) :
    i < skipDigits v i := by
  have hdrop : v.drop i = d :: v.drop (i + 1) := by
    obtain ⟨hi, rfl⟩ := List.getElem?_eq_some_iff.mp hd
    exact List.drop_eq_getElem_cons hi
  unfold skipDigits
  rw [hdrop, List.takeWhile_cons, if_pos h, List.length_cons]
  omega

theorem rimJsonExp_run {v : Bytes} {i r : Nat} {isdbl rv : Bool} (h : rimJsonExp v i isdbl = .ok (some (rv, r))) :
    i ≤ r ∧ ScalarRun v i r := by
  unfold rimJsonExp at h
  obtain ⟨c, hc, h⟩ := bind_eq_ok.mp h
  have hc := inText_eq_ok.mp hc
  by_cases he : c = 101 ∨ c = 69
  · rw [if_pos he] at h
    obtain ⟨s, hs, h⟩ := bind_eq_ok.mp h
    have hs := inText_eq_ok.mp hs
    obtain ⟨d, hd, h⟩ := bind_eq_ok.mp h
    have hd := inText_eq_ok.mp hd
    have hr : skipDigits v (if s = 43 ∨ s = 45 then i + 2 else i + 1) = r := by
      by_cases hdig : isdigit d = true
      · rw [if_pos hdig] at h
        simpa using (congrArg (fun x => x.map (·.2)) (Except.ok.inj h))
      · rw [if_neg hdig] at h
        cases h
    have hce : scalarByte c = true := by
      rcases he with rfl | rfl <;> decide
    by_cases hsign : s = 43 ∨ s = 45
    · rw [if_pos hsign] at hr
      have hse : scalarByte s = true := by
        rcases hsign with rfl | rfl <;> decide
      have hle := le_skipDigits v (i + 2)
      refine ⟨by omega, ?_⟩
      rw [← hr]
      exact ((ScalarRun.one hc hce).trans (ScalarRun.one hs hse)).trans (skipDigits_run v _)
    · rw [if_neg hsign] at hr
      have hle := le_skipDigits v (i + 1)
      refine ⟨by omega, ?_⟩
      rw [← hr]
      exact (ScalarRun.one hc hce).trans (skipDigits_run v _)
  · rw [if_neg he] at h
    obtain rfl : i = r := by simpa using (congrArg (fun x => x.map (·.2)) (Except.ok.inj h))
    exact ⟨Nat.le_refl _, ScalarRun.refl v _⟩

theorem rimJsonFrac_run {v : Bytes} {i r : Nat} {rv : Bool} (h : rimJsonFrac v i = .ok (some (rv, r))) :
    i ≤ r ∧ ScalarRun v i r := by
  unfold rimJsonFrac at h
  obtain ⟨c, hc, h⟩ := bind_eq_ok.mp h
  have hc := inText_eq_ok.mp hc
  by_cases he : c = 46
  · rw [if_pos he] at h
    obtain ⟨d, -, h⟩ := bind_eq_ok.mp h
    by_cases hdig : isdigit d = true
    · rw [if_pos hdig] at h
      obtain ⟨hle, hrun⟩ := rimJsonExp_run h
      have hskip := le_skipDigits v (i + 1)
      have hce : scalarByte c = true := by
        rw [he]
        decide
      exact ⟨by omega, ((ScalarRun.one hc hce).trans (skipDigits_run v _)).trans hrun⟩
    · rw [if_neg hdig] at h
      cases h
  · rw [if_neg he] at h
    exact rimJsonExp_run h

theorem rimJsonNum_run {v : Bytes} {r : Nat} {rv : Bool} (h : rimJsonNum v = .ok (some (rv, r))) :
    1 ≤ r ∧ ScalarRun v 0 r := by
  unfold rimJsonNum at h
  obtain ⟨c, hc, h⟩ := bind_eq_ok.mp h
  have hc := inText_eq_ok.mp hc
  obtain ⟨d, hd, h⟩ := bind_eq_ok.mp h
  have hd := inText_eq_ok.mp hd
  by_cases hdig : isdigit d = true
  · simp only [hdig, Bool.not_true, Bool.false_eq_true, if_false] at h
    by_cases hzero : d = 48 ∧ skipDigits v (if c = 45 then 1 else 0) ≠ (if c = 45 then 1 else 0) + 1
    · rw [if_pos hzero] at h
      cases h
    rw [if_neg hzero] at h
    obtain ⟨hle, hrun⟩ := rimJsonFrac_run h
    have hlt := lt_skipDigits hd hdig
    refine ⟨by omega, ?_⟩
    have hfirst : ScalarRun v 0 (if c = 45 then 1 else 0) := by
      by_cases hm : c = 45
      · rw [if_pos hm]
        exact ScalarRun.one hc (by rw [hm]; decide)
      · rw [if_neg hm]
        exact ScalarRun.refl v 0
    exact (hfirst.trans (skipDigits_run v _)).trans hrun
  · simp [hdig] at h

/-- `strncmp` finds a string without nulls in a run of bytes that has one after it. -/
theorem strncmp_eq_zero {s t : Bytes} (hs : 0 ∈ s) (ht : 0 ∉ t) : strncmp t.length s t = 0 ↔ t <+: s := by
  induction t generalizing s with
  | nil => simp [strncmp]
  | cons b t ih =>
    cases s with
    | nil => simp at hs
    | cons a s =>
      rw [List.mem_cons, not_or] at ht
      rw [List.length_cons, strncmp, List.cons_prefix_cons]
      have hlt : ∀ x y : UInt8, x < y ↔ x.toNat < y.toNat := fun _ _ => UInt8.lt_iff_toNat_lt
      by_cases hab : a = b
      · subst hab
        have ha : a ≠ 0 := fun e => ht.1 e.symm
        have hs' : 0 ∈ s := by
          rcases List.mem_cons.mp hs with h | h
          · exact absurd h.symm ha
          · exact h
        have hirr : ¬ a < a := by
          rw [hlt]
          exact Nat.lt_irrefl _
        rw [if_neg hirr, if_neg hirr, if_neg ha, ih hs' ht.2]
        simp
      · have hne : a.toNat ≠ b.toNat := fun e => hab (UInt8.toNat_inj.mp e)
        refine iff_of_false ?_ (fun h => hab h.1.symm)
        by_cases hone : a < b
        · rw [if_pos hone]
          decide
        · have htwo : b < a := by
            rw [hlt] at hone ⊢
            omega
          rw [if_neg hone, if_pos htwo]
          decide

theorem literal_run {v lit : Bytes} (hlit : ∀ c ∈ lit, scalarByte c = true) (h : lit <+: v) :
    ScalarRun v 0 lit.length := by
  obtain ⟨s, rfl⟩ := h
  intro k _ hk
  rw [List.getElem?_append_left hk]
  exact ⟨lit[k], List.getElem?_eq_getElem hk, hlit _ (List.getElem_mem hk)⟩

end RimStone
