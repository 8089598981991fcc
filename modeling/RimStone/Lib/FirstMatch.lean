import Mathlib.Data.List.Basic
import Mathlib.Logic.Function.Basic

/-!
# Lists that are looked up by key

`entry key l` is the map that a list gives when the first entry with a key counts. To put an entry
in the place of the first one with its key, or at the end where there is none, is an update of that
map, also when other entries behind have the same key. `Leading` says of chosen entries that no entry
before them has their key, so that each of them is the one that counts.
-/

namespace RimStone.Lib

variable {α κ : Type*} [DecidableEq κ] {key : α → Option κ} {l : List α} {a b : α} {k : κ} {i : Nat}

/-- The first entry with key `k`. -/
def entry (key : α → Option κ) (l : List α) (k : κ) : Option α := l.find? fun a => key a = some k

theorem entry_cons_of_eq (h : key a = some k) : entry key (a :: l) k = some a := by
  unfold entry
  rw [List.find?_cons_of_pos (by simpa using h)]

theorem entry_cons_of_ne (h : key a ≠ some k) : entry key (a :: l) k = entry key l k := by
  unfold entry
  rw [List.find?_cons_of_neg (by simpa using h)]

theorem mem_of_entry (h : entry key l k = some a) : a ∈ l := List.mem_of_find?_eq_some h

theorem entry_none_iff : entry key l k = none ↔ ∀ a ∈ l, key a ≠ some k := by
  simp [entry]

/-- An entry in the place of the first one with its key. -/
theorem entry_set (hfirst : l.findIdx? (fun b => decide (key b = some k)) = some i) (ha : key a = some k) :
    entry key (l.set i a) = Function.update (entry key l) k (some a) := by
  ext1 m
  induction l generalizing i with
  | nil => simp at hfirst
  | cons b l ih =>
    rw [List.findIdx?_cons] at hfirst
    by_cases hb : key b = some k
    · simp only [hb, decide_true, if_true, Option.some.injEq] at hfirst
      subst hfirst
      rw [List.set_cons_zero]
      by_cases hm : m = k
      · rw [hm, entry_cons_of_eq ha, Function.update_self]
      · have hne : some k ≠ some m := fun h => hm (Option.some.inj h).symm
        rw [Function.update_of_ne hm, entry_cons_of_ne (ha ▸ hne), entry_cons_of_ne (hb ▸ hne)]
    · simp only [hb, decide_false, Bool.false_eq_true, if_false, Option.map_eq_some_iff] at hfirst
      obtain ⟨j, hj, rfl⟩ := hfirst
      rw [List.set_cons_succ]
      by_cases hm : key b = some m
      · have hne : m ≠ k := fun h => hb (h ▸ hm)
        rw [entry_cons_of_eq hm, Function.update_of_ne hne, entry_cons_of_eq hm]
      · rw [entry_cons_of_ne hm, ih hj]
        by_cases hk : m = k
        · rw [hk, Function.update_self, Function.update_self]
        · rw [Function.update_of_ne hk, Function.update_of_ne hk, entry_cons_of_ne hm]

theorem entry_append (hnone : entry key l k = none) (ha : key a = some k) :
    entry key (l ++ [a]) = Function.update (entry key l) k (some a) := by
  ext1 m
  unfold entry at hnone ⊢
  rw [List.find?_append]
  by_cases hm : m = k
  · rw [hm, hnone, Function.update_self, Option.none_or, List.find?_cons_of_pos (by simpa using ha)]
  · have hne : key a ≠ some m := fun h => hm (Option.some.inj (h.symm.trans ha))
    rw [Function.update_of_ne hm, List.find?_cons_of_neg (by simpa using hne), List.find?_nil, Option.or_none]

/-- No entry that `p` chooses has one with its key before it. -/
def Leading (key : α → Option κ) (p : α → Prop) (l : List α) : Prop := l.Pairwise fun a b => p b → key a ≠ key b

variable {p : α → Prop}

/-- A chosen entry is the one that counts. -/
theorem Leading.entry_eq (h : Leading key p l) (hb : b ∈ l) (hp : p b) (hk : key b = some k) :
    entry key l k = some b := by
  induction l with
  | nil => cases hb
  | cons a l ih =>
    obtain ⟨hhead, hrest⟩ := List.pairwise_cons.mp h
    obtain rfl | hb := List.mem_cons.mp hb
    · exact entry_cons_of_eq hk
    · rw [entry_cons_of_ne (hk ▸ hhead b hb hp)]
      exact ih hrest hb

theorem Leading.set (h : Leading key p l) (hfirst : l.findIdx? (fun b => decide (key b = some k)) = some i)
    (ha : key a = some k) : Leading key p (l.set i a) := by
  induction l generalizing i with
  | nil => exact h
  | cons b l ih =>
    obtain ⟨hhead, hrest⟩ := List.pairwise_cons.mp h
    rw [List.findIdx?_cons] at hfirst
    by_cases hb : key b = some k
    · simp only [hb, decide_true, if_true, Option.some.injEq] at hfirst
      subst hfirst
      refine List.pairwise_cons.mpr ⟨fun c hc hp => ?_, hrest⟩
      rw [ha, ← hb]
      exact hhead c hc hp
    · simp only [hb, decide_false, Bool.false_eq_true, if_false, Option.map_eq_some_iff] at hfirst
      obtain ⟨j, hj, rfl⟩ := hfirst
      refine List.pairwise_cons.mpr ⟨fun c hc hp => ?_, ih hrest hj⟩
      obtain hc | rfl := List.mem_or_eq_of_mem_set hc
      · exact hhead c hc hp
      · rwa [ha]

theorem Leading.append (h : Leading key p l) (hnone : entry key l k = none) (ha : key a = some k) :
    Leading key p (l ++ [a]) := by
  refine List.pairwise_append.mpr ⟨h, List.pairwise_singleton _ _, fun b hb c hc _ => ?_⟩
  obtain rfl := List.mem_singleton.mp hc
  rw [ha]
  exact entry_none_iff.mp hnone b hb

omit [DecidableEq κ] in
/-- The chosen entries have different keys. -/
theorem Leading.nodup {p : α → Bool} (h : Leading key (fun a => p a = true) l) : ((l.filter p).map key).Nodup := by
  refine List.pairwise_map.mpr ((List.Pairwise.filter p h).imp_of_mem fun _ hb hne => ?_)
  exact hne (List.mem_filter.mp hb).2

end RimStone.Lib
