import RimStone.Lib.Chain

/-!
# Doubly linked lists

Two link maps and two ends. `DList next prev first last l` says that `next` from
`first` visits the cells of `l` in order and ends, and that `prev` from `last`
visits them in the reverse order and ends.

The one edit is `DList.splice`: of a list `A ++ M ++ B`, the part `M` is taken out
and at most one cell put in its place. Insertion, removal and exchange of a cell
(`DList.insertBefore`, `DList.insertAfter`, `DList.remove`, `DList.exchange`) are
its instances, each with the link maps such an edit leaves.
-/

namespace RimStone.Lib

variable {α : Type*}

structure DList (next prev : α → Option α) (first last : Option α) (l : List α) : Prop where
  forward : Chain (fun a => some (next a)) first l
  backward : Chain (fun a => some (prev a)) last l.reverse

section DList

variable {next prev next' prev' : α → Option α} {first last first' last' : Option α}
  {l A B M : List α}

theorem DList.reverse (h : DList next prev first last l) : DList prev next last first l.reverse :=
  ⟨h.backward, by rw [List.reverse_reverse]; exact h.forward⟩

theorem DList.nodup (h : DList next prev first last l) : l.Nodup := Seg.nodup h.forward

theorem DList.first_eq (h : DList next prev first last l) : first = l.head? :=
  Seg.head_eq h.forward

theorem DList.last_eq (h : DList next prev first last l) : last = l.getLast? := by
  rw [← List.head?_reverse]
  exact Seg.head_eq h.backward

/-- A cell's successor is the first of what follows it. -/
theorem DList.next_eq {a : α} (h : DList next prev first last (A ++ a :: B)) : next a = B.head? := by
  obtain ⟨m, -, hrest⟩ := seg_append.mp h.forward
  obtain ⟨-, n, hn, hB⟩ := seg_cons.mp hrest
  rw [Option.some.inj hn]
  exact Seg.head_eq hB

theorem DList.prev_eq {a : α} (h : DList next prev first last (A ++ a :: B)) : prev a = A.getLast? := by
  have hr := h.reverse
  rw [List.reverse_append, List.reverse_cons, List.append_assoc, List.singleton_append] at hr
  rw [hr.next_eq, List.head?_reverse]

/-- A segment may be pointed elsewhere: its last cell has another successor. -/
theorem Seg.retarget {t t' : Option α} (hs : Seg (fun a => some (next a)) first A t)
    (hA : A.Nodup) (hlast : ∀ p, A.getLast? = some p → next' p = t')
    (hag : ∀ a ∈ A, A.getLast? ≠ some a → next' a = next a)
    (hfirst : first' = if A = [] then t' else first) :
    Seg (fun a => some (next' a)) first' A t' := by
  rcases List.eq_nil_or_concat A with rfl | ⟨A', p, rfl⟩
  · rw [if_pos rfl] at hfirst
    exact hfirst ▸ .nil
  · rw [List.concat_eq_append] at *
    rw [if_neg (by simp)] at hfirst
    have hget : (A' ++ [p]).getLast? = some p := by simp
    obtain ⟨m, h₁, h₂⟩ := seg_append.mp hs
    obtain ⟨rfl, -⟩ := seg_cons.mp h₂
    rw [hfirst]
    refine seg_append.mpr ⟨some p, h₁.congr fun a ha => ?_, .cons (congrArg some (hlast p hget)) .nil⟩
    have hne : a ≠ p := by
      rintro rfl
      exact (List.nodup_append.mp hA).2.2 a ha a (List.mem_singleton_self a) rfl
    have hap : (A' ++ [p]).getLast? ≠ some a := by
      rw [hget]
      exact fun e => hne (Option.some.inj e).symm
    rw [hag a (List.mem_append_left _ ha) hap]

theorem Chain.splice (h : Chain (fun a => some (next a)) first (A ++ M ++ B)) (o : Option α)
    (hA : ∀ a ∈ A, A.getLast? ≠ some a → next' a = next a)
    (hB : ∀ b ∈ B, next' b = next b)
    (hseam : ∀ p, A.getLast? = some p → next' p = (o.toList ++ B).head?)
    (hnew : ∀ x, o = some x → next' x = B.head?)
    (hfirst : first' = if A = [] then (o.toList ++ B).head? else first) :
    Chain (fun a => some (next' a)) first' (A ++ o.toList ++ B) := by
  have hnd := Seg.nodup h
  rw [List.append_assoc] at h ⊢
  obtain ⟨m, hsA, hsMB⟩ := seg_append.mp h
  obtain ⟨k, -, hsB⟩ := seg_append.mp hsMB
  have hndA : A.Nodup := by
    rw [List.append_assoc] at hnd
    exact (List.nodup_append.mp hnd).1
  have hB' : Chain (fun a => some (next' a)) B.head? B := by
    rw [← Seg.head_eq hsB]
    exact hsB.congr fun b hb => by rw [hB b hb]
  refine seg_append.mpr ⟨(o.toList ++ B).head?, hsA.retarget hndA hseam hA hfirst, ?_⟩
  cases o with
  | none => exact hB'
  | some x => exact .cons (congrArg some (hnew x rfl)) hB'

/-- Replace the part `M` by the cell `o`, or by nothing. -/
theorem DList.splice (h : DList next prev first last (A ++ M ++ B)) (o : Option α)
    (hnextA : ∀ a ∈ A, A.getLast? ≠ some a → next' a = next a)
    (hnextB : ∀ b ∈ B, next' b = next b)
    (hprevA : ∀ a ∈ A, prev' a = prev a)
    (hprevB : ∀ b ∈ B, B.head? ≠ some b → prev' b = prev b)
    (hnextSeam : ∀ p, A.getLast? = some p → next' p = (o.toList ++ B).head?)
    (hprevSeam : ∀ n, B.head? = some n → prev' n = (A ++ o.toList).getLast?)
    (hnew : ∀ x, o = some x → next' x = B.head? ∧ prev' x = A.getLast?)
    (hfirst : first' = if A = [] then (o.toList ++ B).head? else first)
    (hlast : last' = if B = [] then (A ++ o.toList).getLast? else last) :
    DList next' prev' first' last' (A ++ o.toList ++ B) := by
  refine ⟨Chain.splice h.forward o hnextA hnextB hnextSeam (fun x hx => (hnew x hx).1) hfirst, ?_⟩
  have hback := h.backward
  have hrev : ∀ X : List α, (A ++ X ++ B).reverse = B.reverse ++ X.reverse ++ A.reverse := by
    intro X
    simp only [List.reverse_append, List.append_assoc]
  have ho : o.toList.reverse = o.toList := by cases o <;> rfl
  have hget : (o.toList ++ A.reverse).head? = (A ++ o.toList).getLast? := by
    rw [← List.head?_reverse, List.reverse_append, ho]
  rw [hrev] at hback ⊢
  rw [ho]
  refine Chain.splice hback o (fun b hb hne => ?_) (fun a ha => ?_) (fun n hn => ?_)
    (fun x hx => ?_) ?_
  · rw [List.getLast?_reverse] at hne
    exact hprevB b (List.mem_reverse.mp hb) hne
  · exact hprevA a (List.mem_reverse.mp ha)
  · rw [List.getLast?_reverse] at hn
    rw [hget]
    exact hprevSeam n hn
  · rw [List.head?_reverse]
    exact (hnew x hx).2
  · rw [hlast, hget]
    simp only [List.reverse_eq_nil_iff]

theorem dList_nil : DList next prev none none ([] : List α) := ⟨.nil, .nil⟩

end DList

section Edits

variable [DecidableEq α] {next prev next' prev' : α → Option α} {first last first' last' : Option α}
  {A B : List α} {a x : α}

/-- A cell goes in before `a`. -/
theorem DList.insertBefore (h : DList next prev first last (A ++ a :: B)) (hx : x ∉ A ++ a :: B)
    (hnext : ∀ b, next' b = if x = b then some a else if A.getLast? = some b then some x else next b)
    (hprev : ∀ b, prev' b = if a = b then some x else if x = b then A.getLast? else prev b)
    (hfirst : first' = if A = [] then some x else first) (hlast : last' = last) :
    DList next' prev' first' last' (A ++ x :: a :: B) := by
  have hxA : ∀ b ∈ A, x ≠ b := fun b hb e => hx (e ▸ List.mem_append_left _ hb)
  have hxB : ∀ b ∈ a :: B, x ≠ b := fun b hb e => hx (e ▸ List.mem_append_right _ hb)
  have hcross : ∀ b ∈ A, ∀ d ∈ a :: B, b ≠ d := (List.nodup_append.mp h.nodup).2.2
  have hlastA : ∀ p, A.getLast? = some p → p ∈ A := fun p hp => List.mem_of_getLast? hp
  have hlist : DList next prev first last (A ++ [] ++ a :: B) := by rwa [List.append_nil]
  have hgoal : A ++ x :: a :: B = A ++ (some x).toList ++ a :: B := by simp
  rw [hgoal]
  refine DList.splice hlist (some x) (fun b hb hne => ?_) (fun b hb => ?_) (fun b hb => ?_)
    (fun b hb hne => ?_) (fun p hp => ?_) (fun n hn => ?_) (fun y hy => ?_) ?_ ?_
  · rw [hnext, if_neg (hxA b hb), if_neg hne]
  · rw [hnext, if_neg (hxB b hb), if_neg fun e => hcross b (hlastA b e) b hb rfl]
  · rw [hprev, if_neg (hcross b hb a (List.mem_cons_self ..)).symm, if_neg (hxA b hb)]
  · rw [hprev, if_neg fun e => hne (congrArg some e), if_neg (hxB b hb)]
  · rw [hnext, if_neg (hxA p (hlastA p hp)), if_pos hp]
    rfl
  · obtain rfl := Option.some.inj hn
    rw [hprev, if_pos rfl]
    simp
  · obtain rfl := Option.some.inj hy
    rw [hnext, hprev, if_pos rfl, if_neg (hxB a (List.mem_cons_self ..)).symm, if_pos rfl]
    exact ⟨rfl, rfl⟩
  · exact hfirst
  · rw [hlast, if_neg (List.cons_ne_nil a B)]

/-- A cell goes in after `a`. -/
theorem DList.insertAfter (h : DList next prev first last (A ++ a :: B)) (hx : x ∉ A ++ a :: B)
    (hnext : ∀ b, next' b = if a = b then some x else if x = b then B.head? else next b)
    (hprev : ∀ b, prev' b = if x = b then some a else if B.head? = some b then some x else prev b)
    (hfirst : first' = first) (hlast : last' = if B = [] then some x else last) :
    DList next' prev' first' last' (A ++ a :: x :: B) := by
  have hr := h.reverse
  rw [List.reverse_append, List.reverse_cons, List.append_assoc, List.singleton_append] at hr
  have hx' : x ∉ B.reverse ++ a :: A.reverse := by
    simp only [List.mem_append, List.mem_cons, List.mem_reverse] at hx ⊢
    rwa [or_comm, or_assoc, or_left_comm]
  have hins : DList prev' next' last' first' (B.reverse ++ x :: a :: A.reverse) := by
    refine hr.insertBefore hx' (fun b => ?_) (fun b => ?_) ?_ hfirst
    · rw [List.getLast?_reverse]
      exact hprev b
    · rw [List.getLast?_reverse]
      exact hnext b
    · simp only [List.reverse_eq_nil_iff]
      exact hlast
  have hback := hins.reverse
  simpa using hback

/-- The cell `a` goes out; its own links no longer matter. -/
theorem DList.remove (h : DList next prev first last (A ++ a :: B))
    (hnext : ∀ b, b ≠ a → next' b = if A.getLast? = some b then B.head? else next b)
    (hprev : ∀ b, b ≠ a → prev' b = if B.head? = some b then A.getLast? else prev b)
    (hfirst : first' = if A = [] then B.head? else first)
    (hlast : last' = if B = [] then A.getLast? else last) :
    DList next' prev' first' last' (A ++ B) := by
  have hcross : ∀ b ∈ A, ∀ d ∈ a :: B, b ≠ d := (List.nodup_append.mp h.nodup).2.2
  have haB : a ∉ B := (List.nodup_cons.mp (List.nodup_append.mp h.nodup).2.1).1
  have hneA : ∀ b ∈ A, b ≠ a := fun b hb => hcross b hb a (List.mem_cons_self ..)
  have hneB : ∀ b ∈ B, b ≠ a := fun b hb e => haB (e ▸ hb)
  have hlastA : ∀ p, A.getLast? = some p → p ∈ A := fun p hp => List.mem_of_getLast? hp
  have hheadB : ∀ n, B.head? = some n → n ∈ B := fun n hn => List.mem_of_head? hn
  have hlist : DList next prev first last (A ++ [a] ++ B) := by
    rw [List.append_assoc]
    exact h
  have hgoal : A ++ B = A ++ (none : Option α).toList ++ B := by simp
  rw [hgoal]
  refine DList.splice hlist none (fun b hb hne => ?_) (fun b hb => ?_) (fun b hb => ?_)
    (fun b hb hne => ?_) (fun p hp => ?_) (fun n hn => ?_) (fun y hy => by cases hy) hfirst ?_
  · rw [hnext b (hneA b hb), if_neg hne]
  · rw [hnext b (hneB b hb), if_neg fun e => hcross b (hlastA b e) b (List.mem_cons_of_mem _ hb) rfl]
  · rw [hprev b (hneA b hb), if_neg fun e => hcross b hb b (List.mem_cons_of_mem _ (hheadB b e)) rfl]
  · rw [hprev b (hneB b hb), if_neg hne]
  · rw [hnext p (hneA p (hlastA p hp)), if_pos hp]
    rfl
  · rw [hprev n (hneB n (hheadB n hn)), if_pos hn]
    simp
  · rw [hlast]
    simp

/-- The cell `a` goes out and `x` takes its place. -/
theorem DList.exchange (h : DList next prev first last (A ++ a :: B)) (hx : x ∉ A ++ B)
    (hnext : ∀ b, b ≠ a ∨ b = x → next' b =
      if x = b then B.head? else if A.getLast? = some b then some x else next b)
    (hprev : ∀ b, b ≠ a ∨ b = x → prev' b =
      if x = b then A.getLast? else if B.head? = some b then some x else prev b)
    (hfirst : first' = if A = [] then some x else first)
    (hlast : last' = if B = [] then some x else last) :
    DList next' prev' first' last' (A ++ x :: B) := by
  have hcross : ∀ b ∈ A, ∀ d ∈ a :: B, b ≠ d := (List.nodup_append.mp h.nodup).2.2
  have haB : a ∉ B := (List.nodup_cons.mp (List.nodup_append.mp h.nodup).2.1).1
  have hneA : ∀ b ∈ A, b ≠ a ∨ b = x := fun b hb =>
    Or.inl (hcross b hb a (List.mem_cons_self ..))
  have hneB : ∀ b ∈ B, b ≠ a ∨ b = x := fun b hb => Or.inl fun e => haB (e ▸ hb)
  have hxA : ∀ b ∈ A, x ≠ b := fun b hb e => hx (e ▸ List.mem_append_left _ hb)
  have hxB : ∀ b ∈ B, x ≠ b := fun b hb e => hx (e ▸ List.mem_append_right _ hb)
  have hlastA : ∀ p, A.getLast? = some p → p ∈ A := fun p hp => List.mem_of_getLast? hp
  have hheadB : ∀ n, B.head? = some n → n ∈ B := fun n hn => List.mem_of_head? hn
  have hlist : DList next prev first last (A ++ [a] ++ B) := by
    rw [List.append_assoc]
    exact h
  have hgoal : A ++ x :: B = A ++ (some x).toList ++ B := by simp
  rw [hgoal]
  refine DList.splice hlist (some x) (fun b hb hne => ?_) (fun b hb => ?_) (fun b hb => ?_)
    (fun b hb hne => ?_) (fun p hp => ?_) (fun n hn => ?_) (fun y hy => ?_) hfirst ?_
  · rw [hnext b (hneA b hb), if_neg (hxA b hb), if_neg hne]
  · rw [hnext b (hneB b hb), if_neg (hxB b hb), if_neg fun e => hcross b (hlastA b e) b (List.mem_cons_of_mem _ hb) rfl]
  · rw [hprev b (hneA b hb), if_neg (hxA b hb), if_neg fun e => hcross b hb b (List.mem_cons_of_mem _ (hheadB b e)) rfl]
  · rw [hprev b (hneB b hb), if_neg (hxB b hb), if_neg hne]
  · rw [hnext p (hneA p (hlastA p hp)), if_neg (hxA p (hlastA p hp)), if_pos hp]
    rfl
  · rw [hprev n (hneB n (hheadB n hn)), if_neg (hxB n (hheadB n hn)), if_pos hn]
    simp
  · obtain rfl := Option.some.inj hy
    rw [hnext x (Or.inr rfl), hprev x (Or.inr rfl), if_pos rfl, if_pos rfl]
    exact ⟨rfl, rfl⟩
  · rw [hlast]
    simp

end Edits

end RimStone.Lib
