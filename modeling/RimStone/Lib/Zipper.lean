import Mathlib.Data.List.Basic

/-!
# A place in a list

A `Zipper` is a list with a place in it: what is before the place, the nearest first, what is there, and what comes
after. From a place one goes back or forward, where there is something, and what is there can be changed; neither
changes the rest of the list.
-/

namespace RimStone.Lib

universe u v

structure Zipper (α : Type u) where
  before : List α
  here : α
  after : List α

namespace Zipper

variable {α : Type u} {β : Type v}

def toList (z : Zipper α) : List α := z.before.reverse ++ z.here :: z.after

def split (l : List α) (x : α) (r : List α) : Zipper α := ⟨l.reverse, x, r⟩

def back (z : Zipper α) : Option (Zipper α) :=
  match z.before with
  | [] => none
  | y :: l => some ⟨l, y, z.here :: z.after⟩

def forward (z : Zipper α) : Option (Zipper α) :=
  match z.after with
  | [] => none
  | y :: r => some ⟨z.here :: z.before, y, r⟩

def modify (f : α → α) (z : Zipper α) : Zipper α := { z with here := f z.here }

def map (f : α → β) (z : Zipper α) : Zipper β := ⟨z.before.map f, f z.here, z.after.map f⟩

theorem toList_split (l : List α) (x : α) (r : List α) : (split l x r).toList = l ++ x :: r := by
  show l.reverse.reverse ++ x :: r = l ++ x :: r
  rw [List.reverse_reverse]

theorem exists_split (z : Zipper α) : ∃ l r, z = split l z.here r := by
  refine ⟨z.before.reverse, z.after, ?_⟩
  unfold split
  rw [List.reverse_reverse]

theorem back_split_concat (l : List α) (y x : α) (r : List α) :
    (split (l ++ [y]) x r).back = some (split l y (x :: r)) := by
  unfold split back
  rw [List.reverse_concat]

theorem forward_split_cons (l : List α) (x y : α) (r : List α) :
    (split l x (y :: r)).forward = some (split (l ++ [x]) y r) := by
  unfold split forward
  rw [List.reverse_concat]

theorem back_map (f : α → β) (z : Zipper α) : (z.map f).back = z.back.map (map f) := by
  obtain ⟨before, here, after⟩ := z
  cases before <;> rfl

theorem forward_map (f : α → β) (z : Zipper α) : (z.map f).forward = z.forward.map (map f) := by
  obtain ⟨before, here, after⟩ := z
  cases after <;> rfl

/-- To go somewhere leaves the list as it is. -/
theorem toList_back {z z' : Zipper α} (h : z.back = some z') : z'.toList = z.toList := by
  obtain ⟨l, r, hz⟩ := z.exists_split
  rw [hz] at h ⊢
  obtain rfl | ⟨l, y, rfl⟩ := l.eq_nil_or_concat
  · cases h
  · rw [List.concat_eq_append] at h ⊢
    rw [back_split_concat] at h
    cases h
    rw [toList_split, toList_split, List.append_assoc]
    rfl

theorem toList_forward {z z' : Zipper α} (h : z.forward = some z') : z'.toList = z.toList := by
  obtain ⟨l, r, hz⟩ := z.exists_split
  rw [hz] at h ⊢
  cases r with
  | nil => cases h
  | cons y r =>
    rw [forward_split_cons] at h
    cases h
    rw [toList_split, toList_split, List.append_assoc]
    rfl

end Zipper

/-!
## Sequences with a cursor

A place in a sequence may also be before its first element, between two of them or at its
end. The current element is the first one after the cursor; at the end there is none.
-/

/-- The elements before the cursor, and those from the current one on. -/
structure Cursor (α : Type*) where
  before : List α := []
  after : List α := []
  deriving DecidableEq, Repr

namespace Cursor

variable {α : Type*} (c : Cursor α)

def all : List α := c.before ++ c.after

def current : Option α := c.after.head?

/-- A new element right before the current one, or at the end; it becomes current. -/
def insert (a : α) : Cursor α := { c with after := a :: c.after }

def toEnd : Cursor α := { before := c.all }

def toFirst : Cursor α := { after := c.all }

/-- The cursor goes one element back, unless it is at the first one. -/
def toPrevious : Option (Cursor α) :=
  c.before.getLast?.map fun a => { before := c.before.dropLast, after := a :: c.after }

/-- The cursor goes one element on, unless it is at the end. -/
def toNext : Option (Cursor α) :=
  c.current.map fun a => { before := c.before ++ [a], after := c.after.tail }

/-- The current element goes. The one after it becomes current, or the one before it if it
was the last. -/
def delete : Option (Cursor α) :=
  match c.after with
  | [] => none
  | [_] => some ((Cursor.toPrevious { before := c.before }).getD {})
  | _ :: a :: as => some { c with after := a :: as }

def modify (f : α → α) : Cursor α := { c with after := c.after.modifyHead f }

@[simp] theorem all_toEnd : c.toEnd.all = c.all := by
  simp [toEnd, all]

theorem dropLast_append_toList (l : List α) : l.dropLast ++ l.getLast?.toList = l := by
  rcases List.eq_nil_or_concat l with rfl | ⟨l, a, rfl⟩
  · rfl
  · simp

end Cursor

end RimStone.Lib
