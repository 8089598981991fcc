import RimStone.Laws.Tree.Delete
import RimStone.Lib.DoublyLinked

/-!
# The sorted list of a tree

In a sorted tree the nodes are a doubly linked list from `min` to `max`
(`Threaded`). The four edits of `tree.c` are splices of that list: a leaf goes in
before or after its neighbour, a node goes out, and a node that takes over its
successor's key goes out and comes back in the successor's place.
-/

namespace RimStone

open RimStone.Lib

/-- The links run through the nodes at `as`, from `min` to `max` and back. -/
def Threaded (l : TreeList) (as : List Addr) : Prop :=
  DList l.greaterOf l.lesserOf l.min l.max as

namespace TreeList

section Links

variable (l : TreeList) (a b : Addr) (o x : Option Addr)

@[simp] theorem setLesser_lesserOf :
    (l.setLesser o x).lesserOf b = if o = some b then x else l.lesserOf b := by
  cases o with
  | none => simp [setLesser]
  | some a => by_cases h : b = a <;> simp [setLesser, lesserOf, h, Ne.symm, eq_comm]

@[simp] theorem setLesser_greaterOf : (l.setLesser o x).greaterOf b = l.greaterOf b := by
  cases o with
  | none => rfl
  | some a => by_cases h : b = a <;> simp [setLesser, greaterOf, h]

@[simp] theorem setGreater_greaterOf :
    (l.setGreater o x).greaterOf b = if o = some b then x else l.greaterOf b := by
  cases o with
  | none => simp [setGreater]
  | some a => by_cases h : b = a <;> simp [setGreater, greaterOf, h, Ne.symm, eq_comm]

@[simp] theorem setGreater_lesserOf : (l.setGreater o x).lesserOf b = l.lesserOf b := by
  cases o with
  | none => rfl
  | some a => by_cases h : b = a <;> simp [setGreater, lesserOf, h]

@[simp] theorem clear_lesserOf :
    (l.clear a).lesserOf b = if a = b then none else l.lesserOf b := by
  by_cases h : a = b
  · simp [clear, lesserOf, h]
  · simp [clear, lesserOf, h, Ne.symm h]

@[simp] theorem clear_greaterOf :
    (l.clear a).greaterOf b = if a = b then none else l.greaterOf b := by
  by_cases h : a = b
  · simp [clear, greaterOf, h]
  · simp [clear, greaterOf, h, Ne.symm h]

@[simp] theorem setLesser_min : (l.setLesser o x).min = l.min := by cases o <;> rfl
@[simp] theorem setLesser_max : (l.setLesser o x).max = l.max := by cases o <;> rfl
@[simp] theorem setGreater_min : (l.setGreater o x).min = l.min := by cases o <;> rfl
@[simp] theorem setGreater_max : (l.setGreater o x).max = l.max := by cases o <;> rfl
@[simp] theorem clear_min : (l.clear a).min = l.min := rfl
@[simp] theorem clear_max : (l.clear a).max = l.max := rfl

@[simp] theorem setGreaterOrMin_greaterOf : (l.setGreaterOrMin o x).greaterOf b =
    if o = some b then x else l.greaterOf b := by
  cases o with
  | none => rfl
  | some a => exact setGreater_greaterOf l b (some a) x

@[simp] theorem setGreaterOrMin_lesserOf : (l.setGreaterOrMin o x).lesserOf b = l.lesserOf b := by
  cases o with
  | none => rfl
  | some a => exact setGreater_lesserOf l b (some a) x

@[simp] theorem setGreaterOrMin_min :
    (l.setGreaterOrMin o x).min = if o = none then x else l.min := by
  cases o <;> rfl

@[simp] theorem setGreaterOrMin_max : (l.setGreaterOrMin o x).max = l.max := by cases o <;> rfl

@[simp] theorem setLesserOrMax_lesserOf : (l.setLesserOrMax o x).lesserOf b =
    if o = some b then x else l.lesserOf b := by
  cases o with
  | none => rfl
  | some a => exact setLesser_lesserOf l b (some a) x

@[simp] theorem setLesserOrMax_greaterOf : (l.setLesserOrMax o x).greaterOf b = l.greaterOf b := by
  cases o with
  | none => rfl
  | some a => exact setLesser_greaterOf l b (some a) x

@[simp] theorem setLesserOrMax_max :
    (l.setLesserOrMax o x).max = if o = none then x else l.max := by
  cases o <;> rfl

@[simp] theorem setLesserOrMax_min : (l.setLesserOrMax o x).min = l.min := by cases o <;> rfl

/-! The count is no link's business. -/

@[simp] theorem setLesser_count : (l.setLesser o x).count = l.count := by cases o <;> rfl
@[simp] theorem setGreater_count : (l.setGreater o x).count = l.count := by cases o <;> rfl
@[simp] theorem clear_count : (l.clear a).count = l.count := rfl

@[simp] theorem linkBefore_count : (l.linkBefore a b).count = l.count := by simp [linkBefore]
@[simp] theorem linkAfter_count : (l.linkAfter a b).count = l.count := by simp [linkAfter]

@[simp] theorem setGreaterOrMin_count : (l.setGreaterOrMin o x).count = l.count := by
  cases o <;> rfl

@[simp] theorem setLesserOrMax_count : (l.setLesserOrMax o x).count = l.count := by
  cases o <;> rfl

@[simp] theorem unlink_count : (l.unlink a).count = l.count := by simp [unlink]
@[simp] theorem replace_count : (l.replace a b).count = l.count := by simp [replace]

end Links

end TreeList

section Threads

variable {l : TreeList} {A B : List Addr} {a x : Addr}

theorem setEnds_lesserOf (l : TreeList) (x b : Addr) : (l.setEnds x).lesserOf b = l.lesserOf b := by
  unfold TreeList.setEnds
  simp only
  split <;> split <;> rfl

theorem setEnds_greaterOf (l : TreeList) (x b : Addr) : (l.setEnds x).greaterOf b = l.greaterOf b := by
  unfold TreeList.setEnds
  simp only
  split <;> split <;> rfl

@[simp] theorem setEnds_count (l : TreeList) (x : Addr) : (l.setEnds x).count = l.count := by
  unfold TreeList.setEnds
  simp only
  split <;> split <;> rfl

theorem setEnds_min (l : TreeList) (x : Addr) :
    (l.setEnds x).min = if l.lesserOf x = none then some x else l.min := by
  unfold TreeList.setEnds
  simp only
  split <;> split <;> rfl

theorem setEnds_max (l : TreeList) (x : Addr) :
    (l.setEnds x).max = if l.greaterOf x = none then some x else l.max := by
  have hg : ∀ l : TreeList, (if l.lesserOf x = none then { l with min := some x } else l).greaterOf x =
      l.greaterOf x := by
    intro l
    split <;> rfl
  unfold TreeList.setEnds
  simp only [hg]
  split <;> split <;> rfl

theorem linkBefore_greaterOf (l : TreeList) (a x b : Addr) :
    (l.linkBefore a x).greaterOf b =
      if x = b then some a else if l.lesserOf a = some b then some x else l.greaterOf b := by
  simp [TreeList.linkBefore]

theorem linkBefore_lesserOf (l : TreeList) (a x b : Addr) :
    (l.linkBefore a x).lesserOf b =
      if a = b then some x else if x = b then l.lesserOf a else l.lesserOf b := by
  simp [TreeList.linkBefore]

theorem linkAfter_greaterOf (l : TreeList) (a x b : Addr) :
    (l.linkAfter a x).greaterOf b =
      if a = b then some x else if x = b then l.greaterOf a else l.greaterOf b := by
  simp [TreeList.linkAfter]

theorem linkAfter_lesserOf (l : TreeList) (a x b : Addr) :
    (l.linkAfter a x).lesserOf b =
      if x = b then some a else if l.greaterOf a = some b then some x else l.lesserOf b := by
  simp [TreeList.linkAfter]

/-- A new node goes in before its neighbour. -/
theorem linkBefore_threaded (h : Threaded l (A ++ a :: B)) (hx : x ∉ A ++ a :: B) :
    Threaded (((l.clear x).linkBefore a x).setEnds x) (A ++ x :: a :: B) := by
  have hxa : x ≠ a := fun e => hx (e ▸ by simp)
  have hprev : (l.clear x).lesserOf a = A.getLast? := by
    rw [TreeList.clear_lesserOf, if_neg hxa]
    exact DList.prev_eq h
  have hself : ((l.clear x).linkBefore a x).lesserOf x = A.getLast? := by
    rw [linkBefore_lesserOf, if_neg hxa.symm, if_pos rfl, hprev]
  refine DList.insertBefore h hx (fun b => ?_) (fun b => ?_) ?_ ?_
  · rw [setEnds_greaterOf, linkBefore_greaterOf, hprev]
    by_cases hb : x = b <;> simp [hb]
  · rw [setEnds_lesserOf, linkBefore_lesserOf, hprev]
    by_cases hb : x = b <;> simp [hb]
  · rw [setEnds_min, hself]
    simp [TreeList.linkBefore, List.getLast?_eq_none_iff]
  · rw [setEnds_max, linkBefore_greaterOf, if_pos rfl]
    simp [TreeList.linkBefore]

/-- A new node goes in after its neighbour. -/
theorem linkAfter_threaded (h : Threaded l (A ++ a :: B)) (hx : x ∉ A ++ a :: B) :
    Threaded (((l.clear x).linkAfter a x).setEnds x) (A ++ a :: x :: B) := by
  have hxa : x ≠ a := fun e => hx (e ▸ by simp)
  have hnext : (l.clear x).greaterOf a = B.head? := by
    rw [TreeList.clear_greaterOf, if_neg hxa]
    exact DList.next_eq h
  have hself : ((l.clear x).linkAfter a x).greaterOf x = B.head? := by
    rw [linkAfter_greaterOf, if_neg hxa.symm, if_pos rfl, hnext]
  refine DList.insertAfter h hx (fun b => ?_) (fun b => ?_) ?_ ?_
  · rw [setEnds_greaterOf, linkAfter_greaterOf, hnext]
    by_cases hb : x = b <;> simp [hb]
  · rw [setEnds_lesserOf, linkAfter_lesserOf, hnext]
    by_cases hb : x = b <;> simp [hb]
  · rw [setEnds_min, linkAfter_lesserOf, if_pos rfl]
    simp [TreeList.linkAfter]
  · rw [setEnds_max, hself]
    simp [TreeList.linkAfter, List.head?_eq_none_iff]

theorem setEnds_threaded (hx : l.dlist x = {}) : Threaded (l.setEnds x) [x] := by
  have hl : l.lesserOf x = none := by rw [TreeList.lesserOf, hx]
  have hg : l.greaterOf x = none := by rw [TreeList.greaterOf, hx]
  refine ⟨?_, ?_⟩
  · rw [setEnds_min, if_pos hl]
    exact .cons (by rw [setEnds_greaterOf, hg]) .nil
  · rw [setEnds_max, if_pos hg]
    exact .cons (by rw [setEnds_lesserOf, hl]) .nil

theorem unlink_threaded (h : Threaded l (A ++ a :: B)) : Threaded (l.unlink a) (A ++ B) := by
  have hprev : l.lesserOf a = A.getLast? := DList.prev_eq h
  have hnext : l.greaterOf a = B.head? := DList.next_eq h
  have haA : A.getLast? ≠ some a := fun e =>
    (List.nodup_append.mp (DList.nodup h)).2.2 a (List.mem_of_getLast? e) a
      (List.mem_cons_self ..) rfl
  refine DList.remove h (fun b hb => ?_) (fun b hb => ?_) ?_ ?_
  · simp [TreeList.unlink, hprev, hnext]
  · simp [TreeList.unlink, hprev, hnext, haA]
  · simp [TreeList.unlink, hprev, hnext, List.getLast?_eq_none_iff]
  · simp [TreeList.unlink, hprev, hnext, haA, List.head?_eq_none_iff]

/-- A node that is not in the list takes the place of one that is. -/
theorem replace_threaded (h : Threaded l (A ++ x :: B)) (ha : a ∉ A ++ x :: B) :
    Threaded (l.replace a x) (A ++ a :: B) := by
  have hprev : l.lesserOf x = A.getLast? := DList.prev_eq h
  have hnext : l.greaterOf x = B.head? := DList.next_eq h
  have hax : a ≠ x := fun e => ha (e ▸ by simp)
  have haA : A.getLast? ≠ some a := fun e => ha (List.mem_append_left _ (List.mem_of_getLast? e))
  have haB : B.head? ≠ some a := fun e =>
    ha (List.mem_append_right _ (List.mem_cons_of_mem _ (List.mem_of_head? e)))
  have hxA : A.getLast? ≠ some x := fun e =>
    (List.nodup_append.mp (DList.nodup h)).2.2 x (List.mem_of_getLast? e) x
      (List.mem_cons_self ..) rfl
  refine DList.exchange h (fun e => ha ?_) (fun b _ => ?_) (fun b _ => ?_) ?_ ?_
  · rcases List.mem_append.mp e with e | e
    · exact List.mem_append_left _ e
    · exact List.mem_append_right _ (List.mem_cons_of_mem _ e)
  · by_cases hb : a = b
    · subst hb
      simp [TreeList.replace, hprev, hnext, hax, haA]
    · simp [TreeList.replace, hprev, hb, hax]
  · by_cases hb : a = b
    · subst hb
      simp [TreeList.replace, hprev, hnext, hax, hxA, haB]
    · simp [TreeList.replace, hprev, hnext, hb, hax, hxA]
  · simp [TreeList.replace, hprev, hax, List.getLast?_eq_none_iff]
  · simp [TreeList.replace, hprev, hnext, hax, hxA, List.head?_eq_none_iff]

end Threads

end RimStone
