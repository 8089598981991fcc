import Mathlib.Data.List.Nodup
import Mathlib.Logic.Function.Basic

/-!
# Singly linked chains

A chain is a list of cells in which each cell names the next one. The cells
live in a partial store `next : α → Option (Option α)`: `none` is a cell that
does not exist (following it is a fault), `some none` a cell that ends its
chain, and `some (some b)` a cell whose successor is `b`.

`Seg next h l t` says that following `next` from `h` visits exactly the cells
of `l`, in order, and arrives at `t`; a chain is a segment that arrives at
nothing. Segments split and join along `++` (`seg_append`), so an edit of one
cell is local: the cells before and after it keep their segments.

A chain never visits a cell twice (`Seg.nodup`): its list is determined by
where it starts, so a repeated cell would make the list its own proper suffix.
-/

namespace RimStone.Lib

variable {α : Type*}

/-- Following `next` from `h` visits the cells of `l` in order and arrives at `t`. -/
inductive Seg (next : α → Option (Option α)) : Option α → List α → Option α → Prop
  | nil {h : Option α} : Seg next h [] h
  | cons {a : α} {n : Option α} {l : List α} {t : Option α} :
      next a = some n → Seg next n l t → Seg next (some a) (a :: l) t

abbrev Chain (next : α → Option (Option α)) (h : Option α) (l : List α) : Prop :=
  Seg next h l none

section Seg

variable {next next' : α → Option (Option α)} {h t : Option α} {l : List α}

@[simp] theorem seg_nil : Seg next h [] t ↔ h = t :=
  ⟨fun s => by cases s; rfl, fun e => e ▸ .nil⟩

@[simp] theorem seg_cons {a : α} : Seg next h (a :: l) t ↔ h = some a ∧ ∃ n, next a = some n ∧ Seg next n l t := by
  constructor
  · intro s
    cases s with
    | cons hn hs => exact ⟨rfl, _, hn, hs⟩
  · rintro ⟨rfl, n, hn, hs⟩
    exact .cons hn hs

/-- Segments join end to end, and split anywhere. -/
theorem seg_append {l₁ l₂ : List α} : Seg next h (l₁ ++ l₂) t ↔ ∃ m, Seg next h l₁ m ∧ Seg next m l₂ t := by
  induction l₁ generalizing h with
  | nil => simp
  | cons a l₁ ih =>
    simp only [List.cons_append, seg_cons, ih]
    constructor
    · rintro ⟨rfl, n, hn, m, h₁, h₂⟩
      exact ⟨m, ⟨rfl, n, hn, h₁⟩, h₂⟩
    · rintro ⟨m, ⟨rfl, n, hn, h₁⟩, h₂⟩
      exact ⟨rfl, n, hn, m, h₁, h₂⟩

/-- A segment reads only the cells it visits. -/
theorem Seg.congr (hs : Seg next h l t) (hag : ∀ a ∈ l, next' a = next a) : Seg next' h l t := by
  induction hs with
  | nil => exact .nil
  | cons hn _ ih =>
    refine .cons ((hag _ (List.mem_cons_self ..)).trans hn) (ih fun a ha => ?_)
    exact hag a (List.mem_cons_of_mem _ ha)

/-- An edit of a cell outside the segment leaves it alone. -/
theorem Seg.update [DecidableEq α] {a : α} {v : Option (Option α)} (hs : Seg next h l t)
    (ha : a ∉ l) : Seg (Function.update next a v) h l t :=
  hs.congr fun _ hb => Function.update_of_ne (ne_of_mem_of_not_mem hb ha) _ _

theorem Seg.exists_next (hs : Seg next h l t) {a : α} (ha : a ∈ l) : ∃ n, next a = some n := by
  induction hs with
  | nil => cases ha
  | cons hn _ ih =>
    rcases List.mem_cons.mp ha with rfl | ha
    · exact ⟨_, hn⟩
    · exact ih ha

/-- The chain from a given start is unique. -/
theorem Seg.unique {l' : List α} (hs : Chain next h l) (hs' : Chain next h l') : l = l' := by
  induction l generalizing h l' with
  | nil =>
    obtain rfl := seg_nil.mp hs
    cases hs'
    rfl
  | cons a l ih =>
    obtain ⟨rfl, n, hn, hrest⟩ := seg_cons.mp hs
    cases hs' with
    | cons hn' hrest' =>
      obtain rfl := Option.some.inj (hn.symm.trans hn')
      rw [ih hrest hrest']

theorem Seg.nodup (hs : Chain next h l) : l.Nodup := by
  induction l generalizing h with
  | nil => exact List.nodup_nil
  | cons a l ih =>
    obtain ⟨rfl, n, hn, hrest⟩ := seg_cons.mp hs
    refine List.nodup_cons.mpr ⟨fun ha => ?_, ih hrest⟩
    obtain ⟨l₁, l₂, rfl⟩ := List.append_of_mem ha
    obtain ⟨m, _, hm⟩ := seg_append.mp hrest
    obtain ⟨rfl, -⟩ := seg_cons.mp hm
    have hlen := congrArg List.length (Seg.unique hs hm)
    simp only [List.length_cons, List.length_append] at hlen
    omega

/-- The start of a chain is the head of its list. -/
theorem Seg.head_eq (hs : Chain next h l) : h = l.head? := by
  cases hs <;> rfl

/-- The rest of a chain is a chain from its head. -/
theorem Seg.drop {l₁ l₂ : List α} (hs : Chain next h (l₁ ++ l₂)) : Chain next l₂.head? l₂ := by
  obtain ⟨m, -, h₂⟩ := seg_append.mp hs
  rw [← Seg.head_eq h₂]
  exact h₂

/-- In a chain a cell stands right before the one it names. -/
theorem Seg.split_next {p a : α} (hs : Chain next h l) (hp : p ∈ l)
    (hn : next p = some (some a)) : ∃ l₁ l₂, l = l₁ ++ p :: a :: l₂ := by
  obtain ⟨l₁, l₂, rfl⟩ := List.append_of_mem hp
  obtain ⟨m, -, h₂⟩ := seg_append.mp hs
  obtain ⟨rfl, n, hn', hrest⟩ := seg_cons.mp h₂
  obtain rfl := Option.some.inj (hn'.symm.trans hn)
  cases hrest with
  | cons _ _ => exact ⟨l₁, _, rfl⟩

/-- A chain that starts nowhere is empty, and only such a chain. -/
theorem Seg.eq_nil_iff (hs : Chain next h l) : l = [] ↔ h = none := by
  cases hs <;> simp

end Seg

section Edit

variable {next : α → Option (Option α)} {h : Option α}

/-- Unlinking the first cell of a chain: the chain goes on from its successor. -/
theorem Seg.tail {a : α} {n : Option α} {l : List α} (hs : Chain next (some a) (a :: l))
    (hn : next a = some n) : Chain next n l := by
  obtain ⟨-, m, hm, hrest⟩ := seg_cons.mp hs
  obtain rfl := Option.some.inj (hm.symm.trans hn)
  exact hrest

/-- Unlinking an inner cell: its predecessor `p` is pointed at its successor. -/
theorem Seg.unlink [DecidableEq α] {p d : α} {n : Option α} {l₁ l₂ : List α}
    (hs : Chain next h (l₁ ++ p :: d :: l₂)) (hn : next d = some n) :
    Chain (Function.update next p (some n)) h (l₁ ++ p :: l₂) := by
  have hnd := Seg.nodup hs
  obtain ⟨m, h₁, h₂⟩ := seg_append.mp hs
  obtain ⟨rfl, k, hk, hd⟩ := seg_cons.mp h₂
  obtain ⟨rfl, j, hj, hrest⟩ := seg_cons.mp hd
  obtain rfl := Option.some.inj (hj.symm.trans hn)
  simp only [List.nodup_append, List.nodup_cons, List.mem_cons, not_or] at hnd
  have hp₁ : p ∉ l₁ := fun hp => hnd.2.2 p hp p (Or.inl rfl) rfl
  refine seg_append.mpr ⟨some p, h₁.update hp₁, .cons (Function.update_self ..) ?_⟩
  exact hrest.update hnd.2.1.1.2

/-- A new last cell `x`: the cell that was last is pointed at it. -/
theorem Seg.push [DecidableEq α] {z x : α} {l : List α} (hs : Chain next h (l ++ [z])) (hx : x ∉ l ++ [z]) :
    Chain (Function.update (Function.update next x (some none)) z (some (some x))) h (l ++ [z, x]) := by
  have hnd := Seg.nodup hs
  have hzl : z ∉ l := fun hz => (List.nodup_append.mp hnd).2.2 z hz z (List.mem_singleton_self z) rfl
  rw [List.mem_append, List.mem_singleton, not_or] at hx
  obtain ⟨m, h₁, h₂⟩ := seg_append.mp hs
  obtain ⟨rfl, -⟩ := seg_cons.mp h₂
  refine seg_append.mpr ⟨some z, (h₁.update hx.1).update hzl, ?_⟩
  refine .cons (Function.update_self ..) (.cons ?_ .nil)
  rw [Function.update_of_ne hx.2, Function.update_self]

/-- A cell's successor is the first of what follows it. -/
theorem Seg.next_eq {a : α} {l₁ l₂ : List α} (hs : Chain next h (l₁ ++ a :: l₂)) : next a = some l₂.head? := by
  obtain ⟨-, n, hn, hrest⟩ := seg_cons.mp (Seg.drop hs)
  rw [hn, Seg.head_eq hrest]

end Edit

end RimStone.Lib
