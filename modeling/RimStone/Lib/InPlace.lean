import Mathlib.Data.List.Basic

/-!
# Rewriting a list in place

A loop reads a list from the front and writes what it makes of it into the same list,
also from the front, never overtaking the place where it reads. `InPlace l out rest`
is such a list: what was written, what was read and is of no use any more, and the
rest, as it was. To read consumes from the rest; to write, as many elements as were
read at most, appends to what was written.
-/

namespace RimStone.Lib

variable {α : Type*} {l out rest read : List α} {i j : Nat} {x y : α}

/-- `l` has `out` up to `j`, and `rest` from `i` on. -/
structure InPlace (l out rest : List α) (i j : Nat) : Prop where
  written : l.take j = out
  unread : l.drop i = rest
  write : out.length = j
  order : j ≤ i
  bound : i ≤ l.length

theorem InPlace.start (l : List α) : InPlace l [] l 0 0 :=
  ⟨rfl, rfl, rfl, Nat.le_refl 0, Nat.zero_le _⟩

theorem InPlace.length_eq (h : InPlace l out rest i j) : l.length = i + rest.length := by
  have hd := congrArg List.length h.unread
  rw [List.length_drop] at hd
  have hb := h.bound
  omega

theorem InPlace.get (h : InPlace l out rest i j) (k : Nat) : l[i + k]? = rest[k]? := by
  rw [← h.unread, List.getElem?_drop]

theorem InPlace.get_zero (h : InPlace l out rest i j) : l[i]? = rest[0]? := h.get 0

/-- While there is something to read, there is room to write. -/
theorem InPlace.lt (h : InPlace l out (x :: rest) i j) : j < l.length := by
  have hlen := h.length_eq
  have ho := h.order
  rw [List.length_cons] at hlen
  omega

theorem InPlace.skip (h : InPlace l out (read ++ rest) i j) : InPlace l out rest (i + read.length) j := by
  have hlen := h.length_eq
  rw [List.length_append] at hlen
  refine ⟨h.written, ?_, h.write, ?_, by omega⟩
  · rw [← List.drop_drop, h.unread, List.drop_left]
  · have ho := h.order
    omega

/-- An element is written, behind where the list is read. -/
theorem InPlace.put (h : InPlace l out rest i j) (hj : j < i) (y : α) :
    InPlace (l.set j y) (out ++ [y]) rest i (j + 1) := by
  have hb := h.bound
  refine ⟨?_, ?_, ?_, hj, ?_⟩
  · rw [List.take_set, List.take_add_one, ← h.written]
    have hj' : j < l.length := by omega
    have hlen : (List.take j l).length = j := by
      rw [List.length_take]
      omega
    rw [List.getElem?_eq_getElem hj', Option.toList_some, List.set_append_right _ _ (by omega), hlen,
      Nat.sub_self]
    rfl
  · rw [List.drop_set_of_lt hj, h.unread]
  · rw [List.length_append, h.write]
    rfl
  · rw [List.length_set]
    exact hb

/-- An element is read, and another is written. -/
theorem InPlace.step (h : InPlace l out (x :: rest) i j) (y : α) :
    InPlace (l.set j y) (out ++ [y]) rest (i + 1) (j + 1) := by
  have hs : InPlace l out ([x] ++ rest) i j := h
  have ho := h.order
  exact hs.skip.put (by rw [List.length_singleton]; omega) y

/-- The element that is read next is another one. -/
theorem InPlace.replace (h : InPlace l out (x :: rest) i j) (y : α) : InPlace (l.set i y) out (y :: rest) i j := by
  have hlt : i < l.length := by
    have hlen := h.length_eq
    rw [List.length_cons] at hlen
    omega
  have ho := h.order
  refine ⟨?_, ?_, h.write, ho, ?_⟩
  · rw [List.take_set_of_le ho]
    exact h.written
  · rw [List.drop_set, if_neg (Nat.lt_irrefl i), Nat.sub_self, h.unread, List.set_cons_zero]
  · rw [List.length_set]
    omega

/-- An element is read, and stays where it is. -/
theorem InPlace.keep (h : InPlace l out (x :: rest) i i) : InPlace l (out ++ [x]) rest (i + 1) (i + 1) := by
  have hx : l[i]? = some x := h.get_zero
  have hs := h.step x
  obtain ⟨hi, rfl⟩ := List.getElem?_eq_some_iff.mp hx
  rw [List.set_getElem_self hi] at hs
  exact hs

/-- Elements are written, no more than were read. -/
theorem InPlace.putAll (h : InPlace l out rest i j) {ys : List α} (hys : j + ys.length ≤ i) :
    InPlace (l.take j ++ ys ++ l.drop (j + ys.length)) (out ++ ys) rest i (j + ys.length) := by
  have hb := h.bound
  have hlen : (l.take j ++ ys).length = j + ys.length := by
    rw [List.length_append, List.length_take]
    omega
  refine ⟨?_, ?_, ?_, hys, ?_⟩
  · rw [← hlen, List.take_left, h.written]
  · obtain ⟨k, rfl⟩ := Nat.exists_eq_add_of_le hys
    rw [← List.drop_drop, ← hlen, List.drop_left, List.drop_drop, hlen, h.unread]
  · rw [List.length_append, h.write]
  · rw [List.length_append, hlen, List.length_drop]
    omega

end RimStone.Lib
