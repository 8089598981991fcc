import Mathlib.Data.List.Basic

/-!
# Writes inside a window

A list is written between two places, and keeps its length. `Window l l' lo hi` says that
`l'` is `l` but for elements from `lo` up to `hi`. One write is in a window, writes one
after the other are in the union of their windows, and what is outside is read as before.
-/

namespace RimStone.Lib

variable {α : Type*} {l l' l'' : List α} {lo hi lo' hi' i : Nat}

/-- `l'` is `l` but for what is written from `lo` up to `hi`. -/
structure Window (l l' : List α) (lo hi : Nat) : Prop where
  length : l'.length = l.length
  same : ∀ k, k < lo ∨ hi ≤ k → l'[k]? = l[k]?

namespace Window

theorem refl (l : List α) (lo hi : Nat) : Window l l lo hi :=
  ⟨rfl, fun _ _ => rfl⟩

theorem mono (h : Window l l' lo hi) (hlo : lo' ≤ lo) (hhi : hi ≤ hi') : Window l l' lo' hi' := by
  refine ⟨h.length, ?_⟩
  intro k hk
  exact h.same k (by omega)

theorem trans (h : Window l l' lo hi) (h' : Window l' l'' lo hi) : Window l l'' lo hi := by
  refine ⟨h'.length.trans h.length, ?_⟩
  intro k hk
  rw [h'.same k hk, h.same k hk]

theorem set (l : List α) (hlo : lo ≤ i) (hhi : i < hi) (x : α) : Window l (l.set i x) lo hi := by
  refine ⟨List.length_set, ?_⟩
  intro k hk
  exact List.getElem?_set_ne (by omega)

/-- Elements are written one after the other. -/
theorem putAll {xs : List α} (hlo : lo ≤ i) (hlen : i + xs.length ≤ l.length) (hhi : i + xs.length ≤ hi) :
    Window l (l.take i ++ xs ++ l.drop (i + xs.length)) lo hi := by
  have htake : (l.take i).length = i := List.length_take_of_le (by omega)
  refine ⟨?_, ?_⟩
  · simp only [List.length_append, htake, List.length_drop]
    omega
  · intro k hk
    by_cases hki : k < i
    · rw [List.append_assoc, List.getElem?_append_left (by omega), List.getElem?_take_of_lt hki]
    · have hk' : i + xs.length ≤ k := by omega
      rw [List.getElem?_append_right (by rw [List.length_append]; omega), List.getElem?_drop,
        List.length_append, htake]
      congr 1
      omega

theorem drop (h : Window l l' lo hi) (hi : hi ≤ i) : l'.drop i = l.drop i := by
  apply List.ext_getElem?
  intro k
  rw [List.getElem?_drop, List.getElem?_drop, h.same _ (by omega)]

/-- What was written after a front of the list. -/
theorem append_left {a : List α} (h : Window l l' lo hi) : Window (a ++ l) (a ++ l') (a.length + lo) (a.length + hi) := by
  refine ⟨?_, ?_⟩
  · rw [List.length_append, List.length_append, h.length]
  · intro k hk
    by_cases hka : k < a.length
    · rw [List.getElem?_append_left hka, List.getElem?_append_left hka]
    · rw [List.getElem?_append_right (by omega), List.getElem?_append_right (by omega),
        h.same _ (by omega)]

end Window

end RimStone.Lib
