import Mathlib.Data.List.DropRight

/-!
# Trimming a list

A list is what is before its first element to keep, what is after the last, and what is
between.
-/

namespace RimStone.Lib

variable {α : Type*} (p : α → Bool) (l : List α)

def front : List α := l.takeWhile p

def trim : List α := (l.dropWhile p).rdropWhile p

def back : List α := (l.dropWhile p).rtakeWhile p

theorem trim_back : trim p l ++ back p l = l.dropWhile p := List.rdropWhile_append_rtakeWhile

theorem front_trim_back : front p l ++ (trim p l ++ back p l) = l := by
  rw [trim_back]
  exact List.takeWhile_append_dropWhile

theorem length_front_trim_back : (front p l).length + ((trim p l).length + (back p l).length) = l.length := by
  have h := congrArg List.length (front_trim_back p l)
  rwa [List.length_append, List.length_append] at h

variable {p l}

theorem of_mem_front {x : α} (h : x ∈ front p l) : p x = true := List.mem_takeWhile_imp h

theorem of_mem_back {x : α} (h : x ∈ back p l) : p x = true := List.mem_rtakeWhile_imp h

theorem mem_of_mem_trim {x : α} (h : x ∈ trim p l) : x ∈ l := by
  rw [← front_trim_back p l]
  exact List.mem_append_right _ (List.mem_append_left _ h)

theorem trim_last_not (h : trim p l ≠ []) : ¬ p ((trim p l).getLast h) = true :=
  List.rdropWhile_last_not p _ h

/-- What is left begins with an element to keep. -/
theorem trim_head_not {x : α} {t : List α} (h : trim p l = x :: t) : ¬ p x = true := by
  have happ := trim_back p l
  rw [h, List.cons_append] at happ
  have hne : l.dropWhile p ≠ [] := by
    rw [← happ]
    exact List.cons_ne_nil _ _
  have hhead := List.head_dropWhile_not p hne
  simp only [← happ, List.head_cons] at hhead
  simp [hhead]

/-- Where nothing is left, all was trimmed at the front. -/
theorem trim_eq_nil_iff : trim p l = [] ↔ ∀ x ∈ l, p x = true := by
  constructor
  · intro h x hx
    have hdrop : ∀ x ∈ l.dropWhile p, p x = true := List.rdropWhile_eq_nil_iff.mp h
    cases hd : l.dropWhile p with
    | nil => exact List.dropWhile_eq_nil_iff.mp hd x hx
    | cons y ys =>
      have hne : l.dropWhile p ≠ [] := by
        rw [hd]
        exact List.cons_ne_nil _ _
      have hy := List.head_dropWhile_not p hne
      have hpy := hdrop _ (List.head_mem hne)
      rw [hy] at hpy
      cases hpy
  · intro h
    unfold trim
    rw [List.dropWhile_eq_nil_iff.mpr h, List.rdropWhile_nil]

theorem back_eq_nil (h : trim p l = []) : back p l = [] := by
  unfold back
  rw [List.dropWhile_eq_nil_iff.mpr (trim_eq_nil_iff.mp h), List.rtakeWhile_nil]

end RimStone.Lib
