import RimStone.Laws.Json.Step
import RimStone.Laws.Text.Front

/-!
# Numbers in the front of a text

A number that ends in front of the last byte of the front is the same with anything behind it, and with a null behind
it every text is a number or not.
-/

namespace RimStone

open Lib

variable {a b v : Bytes} {i r : Nat} {rv isdbl : Bool}

/-! ## What is behind the front -/

theorem skipDigits_front (h : skipDigits (a ++ b) i < a.length) (b' : Bytes) :
    skipDigits (a ++ b') i = skipDigits (a ++ b) i := by
  have hi : i < a.length := Nat.lt_of_le_of_lt (le_skipDigits _ _) h
  unfold skipDigits at h ⊢
  rw [List.drop_append_of_le_length (by omega), List.takeWhile_append] at h
  rw [List.drop_append_of_le_length (by omega), List.drop_append_of_le_length (by omega), List.takeWhile_append,
    List.takeWhile_append]
  by_cases hall : ((a.drop i).takeWhile isdigit).length = (a.drop i).length
  · rw [if_pos hall, List.length_append, List.length_drop] at h
    omega
  · rw [if_neg hall, if_neg hall]

theorem rimJsonExp_front (h : rimJsonExp (a ++ b) i isdbl = .ok (some (rv, r))) (hr : r < a.length) (b' : Bytes) :
    rimJsonExp (a ++ b') i isdbl = .ok (some (rv, r)) := by
  have hle := (rimJsonExp_run h).1
  unfold rimJsonExp at h ⊢
  rw [List.getElem?_append_left (by omega)] at h ⊢
  obtain ⟨c, hc, h⟩ := bind_eq_ok.mp h
  refine bind_eq_ok.mpr ⟨c, hc, ?_⟩
  by_cases he : c = 101 ∨ c = 69
  · rw [if_pos he] at h ⊢
    obtain ⟨s, hs, h⟩ := bind_eq_ok.mp h
    obtain ⟨d, hd, h⟩ := bind_eq_ok.mp h
    by_cases hdig : isdigit d = true
    · rw [if_pos hdig] at h
      obtain ⟨rfl, hskip⟩ : true = rv ∧ skipDigits (a ++ b) (if s = 43 ∨ s = 45 then i + 2 else i + 1) = r := by
        simpa using h
      have hlt := lt_skipDigits (inText_eq_ok.mp hd) hdig
      have hsame := skipDigits_front (show skipDigits (a ++ b) (if s = 43 ∨ s = 45 then i + 2 else i + 1) < a.length by omega) b'
      have hexp : i + 1 ≤ if s = 43 ∨ s = 45 then i + 2 else i + 1 := by split <;> omega
      rw [List.getElem?_append_left (by omega)] at hs hd
      rw [List.getElem?_append_left (by omega)]
      refine bind_eq_ok.mpr ⟨s, hs, ?_⟩
      dsimp only
      rw [List.getElem?_append_left (by omega)]
      refine bind_eq_ok.mpr ⟨d, hd, ?_⟩
      rw [if_pos hdig, hsame, hskip]
    · rw [if_neg hdig] at h
      cases h
  · rw [if_neg he] at h ⊢
    exact h

theorem rimJsonFrac_front (h : rimJsonFrac (a ++ b) i = .ok (some (rv, r))) (hr : r < a.length) (b' : Bytes) :
    rimJsonFrac (a ++ b') i = .ok (some (rv, r)) := by
  have hle := (rimJsonFrac_run h).1
  unfold rimJsonFrac at h ⊢
  rw [List.getElem?_append_left (by omega)] at h ⊢
  obtain ⟨c, hc, h⟩ := bind_eq_ok.mp h
  refine bind_eq_ok.mpr ⟨c, hc, ?_⟩
  by_cases he : c = 46
  · rw [if_pos he] at h ⊢
    obtain ⟨d, hd, h⟩ := bind_eq_ok.mp h
    by_cases hdig : isdigit d = true
    · rw [if_pos hdig] at h
      have hskip := (rimJsonExp_run h).1
      have hlt := lt_skipDigits (inText_eq_ok.mp hd) hdig
      have hsame := skipDigits_front (show skipDigits (a ++ b) (i + 1) < a.length by omega) b'
      rw [List.getElem?_append_left (by omega)] at hd ⊢
      refine bind_eq_ok.mpr ⟨d, hd, ?_⟩
      rw [if_pos hdig, hsame]
      exact rimJsonExp_front h hr b'
    · rw [if_neg hdig] at h
      cases h
  · rw [if_neg he] at h ⊢
    exact rimJsonExp_front h hr b'

/-- A number that ends in the front, with a byte of the front behind it. -/
theorem rimJsonNum_front (h : rimJsonNum (a ++ b) = .ok (some (rv, r))) (hr : r < a.length) (b' : Bytes) :
    rimJsonNum (a ++ b') = .ok (some (rv, r)) := by
  have hone := (rimJsonNum_run h).1
  unfold rimJsonNum at h ⊢
  rw [List.getElem?_append_left (by omega)] at h ⊢
  obtain ⟨c, hc, h⟩ := bind_eq_ok.mp h
  refine bind_eq_ok.mpr ⟨c, hc, ?_⟩
  obtain ⟨d, hd, h⟩ := bind_eq_ok.mp h
  by_cases hdig : isdigit d = true
  · simp only [hdig, Bool.not_true, Bool.false_eq_true, if_false] at h
    by_cases hzero : d = 48 ∧ skipDigits (a ++ b) (if c = 45 then 1 else 0) ≠ (if c = 45 then 1 else 0) + 1
    · rw [if_pos hzero] at h
      cases h
    rw [if_neg hzero] at h
    have hskip := (rimJsonFrac_run h).1
    have hlt := lt_skipDigits (inText_eq_ok.mp hd) hdig
    have hsame := skipDigits_front
      (show skipDigits (a ++ b) (if c = 45 then 1 else 0) < a.length by omega) b'
    rw [List.getElem?_append_left (by omega)] at hd
    dsimp only
    rw [List.getElem?_append_left (by omega), hsame]
    refine bind_eq_ok.mpr ⟨d, hd, ?_⟩
    simp only [hdig, Bool.not_true, Bool.false_eq_true, if_false]
    rw [if_neg hzero]
    exact rimJsonFrac_front h hr b'
  · simp [hdig] at h

/-! ## Nulls -/

theorem getElem?_of_null (h : 0 ∈ v.drop i) : ∃ c, v[i]? = some c ∧ (c ≠ 0 → 0 ∈ v.drop (i + 1)) := by
  have hi : i < v.length := by
    have hpos := List.length_pos_of_mem h
    rw [List.length_drop] at hpos
    omega
  rw [List.drop_eq_getElem_cons hi] at h
  exact ⟨v[i], List.getElem?_eq_getElem hi, fun hne => (List.mem_cons.mp h).resolve_left fun e => hne e.symm⟩

theorem null_after_digits (h : 0 ∈ v.drop i) : 0 ∈ v.drop (skipDigits v i) := by
  have hsplit := List.takeWhile_append_dropWhile (p := isdigit) (l := v.drop i)
  have hrest : v.drop (skipDigits v i) = (v.drop i).dropWhile isdigit := by
    unfold skipDigits
    rw [← List.drop_drop]
    exact List.append_cancel_left ((List.prefix_iff_eq_append.mp (List.takeWhile_prefix isdigit)).trans hsplit.symm)
  rw [← hsplit] at h
  rw [hrest]
  refine (List.mem_append.mp h).resolve_left fun hdigit => ?_
  exact absurd (List.all_eq_true.mp List.all_takeWhile _ hdigit) (by decide)

theorem rimJsonExp_defined (h : 0 ∈ v.drop i) (isdbl : Bool) : ∃ o, rimJsonExp v i isdbl = .ok o := by
  obtain ⟨c, hc, hnext⟩ := getElem?_of_null h
  unfold rimJsonExp
  by_cases he : c = 101 ∨ c = 69
  · have hone := hnext (by rintro rfl; simp at he)
    obtain ⟨s, hs, hnext'⟩ := getElem?_of_null hone
    obtain ⟨d, hd⟩ : ∃ d, v[if s = 43 ∨ s = 45 then i + 2 else i + 1]? = some d := by
      by_cases hsign : s = 43 ∨ s = 45
      · rw [if_pos hsign]
        obtain ⟨d, hd, -⟩ := getElem?_of_null (hnext' (by rintro rfl; simp at hsign))
        exact ⟨d, hd⟩
      · rw [if_neg hsign]
        exact ⟨s, hs⟩
    simp only [hc, hs, hd, inText, bind, Except.bind, if_pos he]
    exact ⟨_, rfl⟩
  · simp only [hc, inText, bind, Except.bind, if_neg he]
    exact ⟨_, rfl⟩

/-- Text with a null begins with a number, or not. -/
theorem rimJsonNum_defined (h : 0 ∈ v) : ∃ o, rimJsonNum v = .ok o := by
  have hstart : 0 ∈ v.drop 0 := h
  obtain ⟨c, hc, hnext⟩ := getElem?_of_null hstart
  have hdig : 0 ∈ v.drop (if c = 45 then 1 else 0) := by
    by_cases hm : c = 45
    · rw [if_pos hm]
      exact hnext (by rw [hm]; decide)
    · rwa [if_neg hm]
  obtain ⟨d, hd, -⟩ := getElem?_of_null hdig
  have hedig := null_after_digits hdig
  have hfrac : ∃ o, rimJsonFrac v (skipDigits v (if c = 45 then 1 else 0)) = .ok o := by
    obtain ⟨x, hx, hnext'⟩ := getElem?_of_null hedig
    unfold rimJsonFrac
    by_cases hpoint : x = 46
    · have hafter := hnext' (by rw [hpoint]; decide)
      obtain ⟨y, hy, -⟩ := getElem?_of_null hafter
      by_cases hdigit : isdigit y = true
      · obtain ⟨o, ho⟩ := rimJsonExp_defined (null_after_digits hafter) true
        refine ⟨o, bind_eq_ok.mpr ⟨x, inText_eq_ok.mpr hx, ?_⟩⟩
        rw [if_pos hpoint]
        exact bind_eq_ok.mpr ⟨y, inText_eq_ok.mpr hy, (if_pos hdigit).trans ho⟩
      · refine ⟨none, bind_eq_ok.mpr ⟨x, inText_eq_ok.mpr hx, ?_⟩⟩
        rw [if_pos hpoint]
        exact bind_eq_ok.mpr ⟨y, inText_eq_ok.mpr hy, if_neg hdigit⟩
    · obtain ⟨o, ho⟩ := rimJsonExp_defined hedig false
      exact ⟨o, bind_eq_ok.mpr ⟨x, inText_eq_ok.mpr hx, (if_neg hpoint).trans ho⟩⟩
  obtain ⟨o, ho⟩ := hfrac
  unfold rimJsonNum
  by_cases hdigit : (!isdigit d) = true
  · simp only [hc, hd, inText, bind, Except.bind, if_pos hdigit]
    exact ⟨none, rfl⟩
  · by_cases hzero : d = 48 ∧ skipDigits v (if c = 45 then 1 else 0) ≠ (if c = 45 then 1 else 0) + 1
    · simp only [hc, hd, inText, bind, Except.bind, if_neg hdigit, if_pos hzero]
      exact ⟨none, rfl⟩
    · simp only [hc, hd, inText, bind, Except.bind, if_neg hdigit, if_neg hzero]
      exact ⟨o, ho⟩

end RimStone
