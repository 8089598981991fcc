import Mathlib.Data.List.GetD
import Mathlib.Data.List.Infix
import Mathlib.Data.Nat.Find
import Mathlib.Order.Bounds.Basic

/-!
# Cutting a list

A list is cut at the first place that a predicate chooses. `n` elements go with the cut, and what is
behind them is cut in the same way, by the predicate on what is behind. The places are counted
from the beginning of the list.
-/

namespace RimStone.Lib

variable {α : Type*}

/-- A list, the places of its cuts, and the parts between them. -/
inductive Cuts (D : List α → Nat → Prop) (n : Nat) : List α → List Nat → List (List α) → Prop
  | last {r : List α} (h : ∀ k, ¬ D r k) : Cuts D n r [] [r]
  | cut {r : List α} {k : Nat} {ks : List Nat} {ps : List (List α)} (h : IsLeast {k | D r k} k)
      (rest : Cuts D n (r.drop (k + n)) ks ps) : Cuts D n r (k :: ks.map (k + n + ·)) (r.take k :: ps)

variable {D : List α → Nat → Prop} {n : Nat} {r : List α} {ks ks' : List Nat} {ps ps' : List (List α)}

/-- There is one part more than there are cuts. -/
theorem Cuts.length_eq (h : Cuts D n r ks ps) : ps.length = ks.length + 1 := by
  induction h with
  | last _ => rfl
  | cut _ _ ih => rw [List.length_cons, List.length_cons, List.length_map, ih]

theorem Cuts.part_of (h : Cuts D n r ks ps) : ∀ p ∈ ps, p <:+: r := by
  induction h with
  | last _ =>
    intro p hp
    rw [List.mem_singleton.mp hp]
  | @cut r k _ _ _ _ ih =>
    intro p hp
    obtain rfl | hp := List.mem_cons.mp hp
    · exact (List.take_prefix k r).isInfix
    · exact (ih p hp).trans (List.drop_suffix (k + n) r).isInfix

/-- A list can be cut where each cut takes an element away. -/
theorem exists_cuts (hn : 0 < n) (hD : ∀ r k, D r k → k < r.length) (r : List α) : ∃ ks ps, Cuts D n r ks ps := by
  induction hlen : r.length using Nat.strong_induction_on generalizing r with
  | _ m ih =>
    by_cases hno : ∀ k, ¬ D r k
    · exact ⟨[], [r], .last hno⟩
    · classical
      have hex : ∃ k, D r k := by
        simpa using hno
      have hleast : IsLeast {k | D r k} (Nat.find hex) := by
        refine ⟨Nat.find_spec hex, fun k hk => ?_⟩
        exact Nat.find_min' hex hk
      have hlt : Nat.find hex < r.length := hD r _ hleast.1
      have hshort : (r.drop (Nat.find hex + n)).length < m := by
        rw [List.length_drop]
        omega
      obtain ⟨ks, ps, hrest⟩ := ih _ hshort _ rfl
      exact ⟨_, _, .cut hleast hrest⟩

/-! ## Cuts of a part -/

section Count

variable {D' : List α → Nat → Prop}

/-- Behind a place there are no more cuts than in the whole list. -/
theorem Cuts.length_drop_le (hD : ∀ r j k, D r (j + k) ↔ D (r.drop j) k) (h : Cuts D n r ks ps) {j : Nat}
    (h' : Cuts D n (r.drop j) ks' ps') : ks'.length ≤ ks.length := by
  induction h generalizing j ks' ps' with
  | last hno =>
    cases h' with
    | last _ => exact Nat.le_refl _
    | cut hk _ => exact absurd ((hD _ _ _).mpr hk.1) (hno _)
  | @cut r k ks ps hk hrest ih =>
    rw [List.length_cons, List.length_map]
    cases h' with
    | last _ => exact Nat.zero_le _
    | @cut _ k' ks' ps' hk' hrest' =>
      rw [List.length_cons, List.length_map]
      have hle : k ≤ j + k' := hk.2 ((hD _ _ _).mpr hk'.1)
      have hdrop : (r.drop j).drop (k' + n) = (r.drop (k + n)).drop (j + k' - k) := by
        rw [List.drop_drop, List.drop_drop]
        congr 1
        omega
      rw [hdrop] at hrest'
      exact Nat.succ_le_succ (ih hrest')

/-- The more places a predicate chooses, the more cuts there are, though the places differ. -/
theorem Cuts.length_le (hn : 0 < n) (hD : ∀ r j k, D' r (j + k) ↔ D' (r.drop j) k) (hlt : ∀ r k, D' r k → k < r.length)
    (hsub : ∀ r k, D r k → D' r k) (h : Cuts D n r ks ps) (h' : Cuts D' n r ks' ps') : ks.length ≤ ks'.length := by
  induction h generalizing ks' ps' with
  | last _ => exact Nat.zero_le _
  | @cut r k ks ps hk _ ih =>
    cases h' with
    | last hno => exact absurd (hsub _ _ hk.1) (hno _)
    | @cut _ k' ks' ps' hk' hrest' =>
      have hle : k' ≤ k := hk'.2 (hsub _ _ hk.1)
      have hdrop : r.drop (k + n) = (r.drop (k' + n)).drop (k - k') := by
        rw [List.drop_drop]
        congr 1
        omega
      obtain ⟨ks₁, ps₁, hcuts⟩ := exists_cuts hn hlt (r.drop (k + n))
      have hfirst := ih hcuts
      rw [hdrop] at hcuts
      have hsecond := hrest'.length_drop_le hD hcuts
      rw [List.length_cons, List.length_cons, List.length_map, List.length_map]
      omega

end Count

/-! ## Joining the parts -/

/-- Parts with something between them that depends on its number. -/
def weave (f : Nat → List α) : Nat → List (List α) → List α
  | _, [] => []
  | _, [p] => p
  | i, p :: q :: ps => p ++ (f i ++ weave f (i + 1) (q :: ps))

theorem weave_cons (f : Nat → List α) (i : Nat) (p : List α) (hps : ps ≠ []) :
    weave f i (p :: ps) = p ++ (f i ++ weave f (i + 1) ps) := by
  cases ps with
  | nil => exact absurd rfl hps
  | cons q ps => rfl

theorem Cuts.ne_nil (h : Cuts D n r ks ps) : ps ≠ [] := by
  rintro rfl
  cases h

/-- A list is its parts with what was cut between them. -/
theorem Cuts.weave_eq {d : List α} (hd : ∀ r k, D r k → (r.drop k).take n = d) (h : Cuts D n r ks ps) (i : Nat) :
    weave (fun _ => d) i ps = r := by
  induction h generalizing i with
  | last _ => rfl
  | @cut r k ks ps hk hrest ih =>
    rw [weave_cons _ _ _ hrest.ne_nil, ih, ← hd r k hk.1, ← List.drop_drop, List.take_append_drop, List.take_append_drop]

/-! ## Putting something in the place of the cuts -/

section Replace

variable {d : List α} {i : Nat}

/-- The parts in front of the first `i` cuts, each with `d` behind it. -/
def replaced (d : List α) (ps : List (List α)) (i : Nat) : List α := ((ps.take i).map (· ++ d)).flatten

/-- What is behind the first `i` cuts. -/
def behind (n : Nat) (r : List α) (ks : List Nat) : Nat → List α
  | 0 => r
  | i + 1 => r.drop (ks.getD i r.length + n)

@[simp] theorem replaced_zero (d : List α) (ps : List (List α)) : replaced d ps 0 = [] := rfl

@[simp] theorem behind_zero (n : Nat) (r : List α) (ks : List Nat) : behind n r ks 0 = r := rfl

theorem replaced_cons (d p : List α) (ps : List (List α)) (i : Nat) :
    replaced d (p :: ps) (i + 1) = p ++ (d ++ replaced d ps i) := by
  unfold replaced
  rw [List.take_succ_cons, List.map_cons, List.flatten_cons, List.append_assoc]

/-- Behind the first cut the places are counted from there. -/
theorem behind_cons {k : Nat} (h : i ≤ ks.length) :
    behind n r (k :: ks.map (k + n + ·)) (i + 1) = behind n (r.drop (k + n)) ks i := by
  cases i with
  | zero => rfl
  | succ i =>
    have hlt : i < ks.length := h
    have hget : (ks.map (k + n + ·)).getD i r.length = k + n + ks[i] := by
      rw [List.getD_eq_getElem _ _ (by rwa [List.length_map]), List.getElem_map]
    show r.drop ((ks.map (k + n + ·)).getD i r.length + n) = (r.drop (k + n)).drop (ks.getD i _ + n)
    rw [hget, List.getD_eq_getElem _ _ hlt, List.drop_drop]
    congr 1
    omega

/-- Each cut that is replaced changes the length by as much. -/
theorem Cuts.length_replaced (hD : ∀ r k, D r k → k + n ≤ r.length) (h : Cuts D n r ks ps) (d : List α) (hi : i ≤ ks.length) :
    (replaced d ps i ++ behind n r ks i).length + i * n = r.length + i * d.length := by
  induction h generalizing i with
  | last _ =>
    obtain rfl := Nat.le_zero.mp hi
    simp
  | @cut r k ks ps hk _ ih =>
    cases i with
    | zero => simp
    | succ i =>
      rw [List.length_cons, List.length_map] at hi
      have hle := hD r k hk.1
      have hrest := ih (Nat.le_of_succ_le_succ hi)
      rw [List.length_append, List.length_drop] at hrest
      rw [replaced_cons, behind_cons (Nat.le_of_succ_le_succ hi)]
      simp only [List.length_append, List.length_take_of_le (Nat.le_trans (Nat.le_add_right k n) hle), Nat.succ_mul]
      omega

/-- When all cuts were replaced, the parts are joined by what was put for them. -/
theorem Cuts.replaced_all (h : Cuts D n r ks ps) (d : List α) :
    replaced d ps ks.length ++ behind n r ks ks.length = d.intercalate ps := by
  induction h with
  | @last r _ =>
    show [] ++ r = d.intercalate [r]
    rw [List.nil_append, List.intercalate_singleton]
  | @cut r k ks ps _ hrest ih =>
    rw [List.length_cons, List.length_map, replaced_cons, behind_cons (Nat.le_refl _), List.append_assoc, List.append_assoc,
      ih, List.intercalate_cons_of_ne_nil hrest.ne_nil, List.append_assoc]

end Replace

end RimStone.Lib
