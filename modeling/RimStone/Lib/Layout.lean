import RimStone.Lib.Chain
import Mathlib.Data.List.Range

/-!
# Chains in one array

The chains of a table are laid out in one array. The first item of a chain has the place that the chain has in the
table, also where other chains are empty. The items behind it are put at the bottom, one after another and one chain
after another. No place is taken twice (`nodup_places`), and how many places there are follows from how many items and
how many empty chains there are (`place_lt`). Following a chain in the array visits its items in order (`cells_chain`).
-/

namespace RimStone.Lib

universe u v

/-- An item at its place, and the place where its chain goes on. -/
structure Cell (α : Type u) where
  place : Nat
  item : α
  next : Option Nat
  deriving DecidableEq, Repr

variable {α : Type u} {β : Type v}

/-- A chain whose first item is at `i`, and whose other ones are put at the bottom. -/
def chainCells : Nat → Nat → List α → List (Cell α)
  | _, _, [] => []
  | i, bottom, a :: l => ⟨i, a, if l.isEmpty then none else some bottom⟩ :: chainCells bottom (bottom + 1) l

/-- Chains of which the first one has the place `i` in the table. -/
def layout : Nat → Nat → List (List α) → List (Cell α)
  | _, _, [] => []
  | i, bottom, l :: ls => chainCells i bottom l ++ layout (i + 1) (bottom + (l.length - 1)) ls

/-- How many items are not the first one of their chain. -/
def overflow : List (List α) → Nat
  | [] => 0
  | l :: ls => (l.length - 1) + overflow ls

/-! ## One chain -/

theorem chainCells_items (i bottom : Nat) (l : List α) : (chainCells i bottom l).map Cell.item = l := by
  induction l generalizing i bottom with
  | nil => rfl
  | cons a l ih => rw [chainCells, List.map_cons, ih]

theorem chainCells_places (i bottom : Nat) (a : α) (l : List α) :
    (chainCells i bottom (a :: l)).map Cell.place = i :: List.range' bottom l.length := by
  induction l generalizing i bottom a with
  | nil => rfl
  | cons b l ih => rw [chainCells, List.map_cons, ih, List.length_cons, List.range'_succ]

/-- The places of a chain: its own, if it has an item, and places at the bottom. -/
theorem mem_chainCells {i bottom : Nat} {l : List α} {c : Cell α} (h : c ∈ chainCells i bottom l) :
    c.place = i ∧ l ≠ [] ∨ bottom ≤ c.place ∧ c.place < bottom + (l.length - 1) := by
  cases l with
  | nil => cases h
  | cons a l =>
    have hplace := List.mem_map_of_mem (f := Cell.place) h
    rw [chainCells_places, List.mem_cons, List.mem_range'_1] at hplace
    exact hplace.imp (fun hi => ⟨hi, by simp⟩) fun hb => by simpa using hb

theorem chainCells_nodup {i bottom : Nat} (hi : i < bottom) (l : List α) :
    ((chainCells i bottom l).map Cell.place).Nodup := by
  cases l with
  | nil => exact List.nodup_nil
  | cons a l =>
    rw [chainCells_places, List.nodup_cons]
    refine ⟨fun hmem => ?_, List.nodup_range'⟩
    rw [List.mem_range'_1] at hmem
    omega

/-- A chain in the array, where `at` says what a place is there. -/
theorem chainCells_chain (next : β → Option (Option β)) (spot : Nat → β) {i bottom : Nat} {l : List α}
    (h : ∀ c ∈ chainCells i bottom l, next (spot c.place) = some (c.next.map spot)) :
    Chain next (if l.isEmpty then none else some (spot i)) ((chainCells i bottom l).map fun c => spot c.place) := by
  induction l generalizing i bottom with
  | nil => exact seg_nil.mpr rfl
  | cons a l ih =>
    obtain ⟨hfirst, hrest⟩ := List.forall_mem_cons.mp h
    have hchain := ih hrest
    refine seg_cons.mpr ⟨rfl, _, hfirst, ?_⟩
    cases l with
    | nil => exact hchain
    | cons b l => exact hchain

/-- A chain goes on with an item of its own. -/
theorem chainCells_next {i bottom : Nat} {l : List α} {c : Cell α} (h : c ∈ chainCells i bottom l) {j : Nat}
    (hj : c.next = some j) : ∃ c' ∈ chainCells i bottom l, c'.place = j := by
  induction l generalizing i bottom with
  | nil => cases h
  | cons a l ih =>
    rw [chainCells] at h ⊢
    rcases List.mem_cons.mp h with rfl | h
    · cases l with
      | nil => cases hj
      | cons b l =>
        cases hj
        exact ⟨_, List.mem_cons_of_mem _ List.mem_cons_self, rfl⟩
    · obtain ⟨c', hc', hplace⟩ := ih h
      exact ⟨c', List.mem_cons_of_mem _ hc', hplace⟩

/-! ## All chains -/

theorem overflow_cons (l : List α) (ls : List (List α)) : overflow (l :: ls) = (l.length - 1) + overflow ls := rfl

theorem layout_items (i bottom : Nat) (ls : List (List α)) : (layout i bottom ls).map Cell.item = ls.flatten := by
  induction ls generalizing i bottom with
  | nil => rfl
  | cons l ls ih => rw [layout, List.map_append, chainCells_items, ih, List.flatten_cons]

theorem mem_layout {i bottom : Nat} {ls : List (List α)} {c : Cell α} (h : c ∈ layout i bottom ls) :
    i ≤ c.place ∧ c.place < i + ls.length ∨ bottom ≤ c.place ∧ c.place < bottom + overflow ls := by
  induction ls generalizing i bottom with
  | nil => cases h
  | cons l ls ih =>
    rw [layout] at h
    rw [List.length_cons, overflow_cons]
    rcases List.mem_append.mp h with h | h
    · rcases mem_chainCells h with ⟨hi, -⟩ | hb
      · exact .inl (by omega)
      · exact .inr (by omega)
    · rcases ih h with hi | hb
      · exact .inl (by omega)
      · exact .inr (by omega)

theorem nodup_places (i bottom : Nat) {ls : List (List α)} (h : i + ls.length ≤ bottom) :
    ((layout i bottom ls).map Cell.place).Nodup := by
  induction ls generalizing i bottom with
  | nil => exact List.nodup_nil
  | cons l ls ih =>
    rw [List.length_cons] at h
    rw [layout, List.map_append, List.nodup_append]
    refine ⟨chainCells_nodup (by omega) l, ih _ _ (by omega), ?_⟩
    intro p hp q hq hpq
    obtain ⟨c, hc, rfl⟩ := List.mem_map.mp hp
    obtain ⟨d, hd, rfl⟩ := List.mem_map.mp hq
    rcases mem_chainCells hc with ⟨hi, -⟩ | hb
    · rcases mem_layout hd with hi' | hb'
      · omega
      · omega
    · rcases mem_layout hd with hi' | hb'
      · omega
      · omega

/-- The items are the first ones of their chains and the others. -/
theorem length_flatten_eq (ls : List (List α)) :
    ls.flatten.length + ls.countP (·.isEmpty) = ls.length + overflow ls := by
  induction ls with
  | nil => rfl
  | cons l ls ih =>
    rw [List.flatten_cons, List.length_append, List.countP_cons, overflow_cons, List.length_cons]
    cases l with
    | nil =>
      simp only [List.isEmpty_nil, if_true, List.length_nil]
      omega
    | cons a l =>
      simp only [List.isEmpty_cons, Bool.false_eq_true, if_false, List.length_cons]
      omega

/-- A place is within an array that has room for the items and for the chains that are empty. -/
theorem place_lt {ls : List (List α)} {c : Cell α} (h : c ∈ layout 0 ls.length ls) :
    c.place < ls.flatten.length + ls.countP (·.isEmpty) := by
  rw [length_flatten_eq]
  rcases mem_layout h with hi | hb
  · omega
  · omega

/-- The cells of one of the chains are in the array. -/
theorem chainCells_of_layout (i bottom : Nat) {ls : List (List α)} {k : Nat} {l : List α} (h : ls[k]? = some l) :
    ∃ b, ∀ c ∈ chainCells (i + k) b l, c ∈ layout i bottom ls := by
  induction ls generalizing i bottom k with
  | nil => cases h
  | cons l' ls ih =>
    cases k with
    | zero =>
      cases h
      exact ⟨bottom, fun c hc => List.mem_append_left _ hc⟩
    | succ k =>
      obtain ⟨b, hb⟩ := ih (i + 1) (bottom + (l'.length - 1)) h
      rw [Nat.add_right_comm, Nat.add_assoc] at hb
      exact ⟨b, fun c hc => List.mem_append_right _ (hb c hc)⟩

/-- A chain of the array leads from an item to another one of the same chain. -/
theorem layout_next {i bottom : Nat} {ls : List (List α)} {c : Cell α} (h : c ∈ layout i bottom ls) {j : Nat}
    (hj : c.next = some j) :
    ∃ c' ∈ layout i bottom ls, c'.place = j ∧ ∃ l ∈ ls, c.item ∈ l ∧ c'.item ∈ l := by
  induction ls generalizing i bottom with
  | nil => cases h
  | cons l ls ih =>
    have hitem : ∀ d ∈ chainCells i bottom l, d.item ∈ l := by
      intro d hd
      have hmem := List.mem_map_of_mem (f := Cell.item) hd
      rwa [chainCells_items] at hmem
    rw [layout] at h ⊢
    rcases List.mem_append.mp h with h | h
    · obtain ⟨c', hc', hplace⟩ := chainCells_next h hj
      exact ⟨c', List.mem_append_left _ hc', hplace, l, List.mem_cons_self, hitem c h, hitem c' hc'⟩
    · obtain ⟨c', hc', hplace, l', hl', hin⟩ := ih h
      exact ⟨c', List.mem_append_right _ hc', hplace, l', List.mem_cons_of_mem _ hl', hin⟩

end RimStone.Lib
