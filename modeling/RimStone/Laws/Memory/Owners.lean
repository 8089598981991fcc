import RimStone.Laws.Memory.Counts
import Mathlib.Algebra.BigOperators.Group.List.Basic

/-!
# Owners of blocks

Structures of one kind that share a memory: each holds some blocks by reference
(`refs`), has some memory of its own (`addrs`), and is well-formed or not (`good`).
`Exact` is the state between statements: the counts are the number of places that
hold a block, over all structures and whatever else holds blocks (`others`), and
every structure's own memory is idle and no other's.

A statement works on one structure. `Exact.focus` is what it starts from,
`Exact.replace` what it has to come to.
-/

namespace RimStone

open Mem

structure Owner (σ : Type) where
  refs : σ → Addr → ℕ
  addrs : σ → List Addr
  good : σ → Prop

namespace Owner

variable {σ : Type}

def holders (o : Owner σ) (others : Addr → ℕ) (l : List σ) : Addr → ℕ :=
  others + (l.map o.refs).sum

def blocks (o : Owner σ) (l : List σ) : List Addr := l.flatMap o.addrs

/-- Well-formed structures in a memory whose counts are exact. -/
structure Exact (o : Owner σ) (others : Addr → ℕ) (m : Mem) (l : List σ) : Prop where
  good : ∀ t ∈ l, o.good t
  mode : m.rimMemProcess = false
  counted : Counted m (o.holders others l) ∅
  apart : (o.blocks l).Nodup
  idle : ∀ a ∈ o.blocks l, m.Idle a

/-- The only idle blocks are the structures' own, and blocks that were idle before and
no structure's. -/
def IdleKept (o : Owner σ) (m : Mem) (l : List σ) (m' : Mem) (l' : List σ) : Prop :=
  ∀ a, m'.Idle a → a ∈ o.blocks l' ∨ (m.Idle a ∧ a ∉ o.blocks l)

def beside (o : Owner σ) (others : Addr → ℕ) (A B : List σ) : Addr → ℕ :=
  others + ((A.map o.refs).sum + (B.map o.refs).sum)

/-- The structure `t'` and the memory `m'` that a statement makes of `t` and `m`, using
the blocks `used`. -/
structure Becomes (o : Owner σ) (rest : Addr → ℕ) (t : σ) (m : Mem) (used : Addr → Prop) (t' : σ)
    (m' : Mem) : Prop where
  good : o.good t'
  mode : m'.rimMemProcess = false
  counted : Counted m' (rest + o.refs t') ∅
  apart : (o.addrs t').Nodup
  own : ∀ a ∈ o.addrs t', a ∈ o.addrs t ∨ ¬ m.Idle a
  idle : ∀ b, m'.Idle b ↔ b ∈ o.addrs t' ∨ (m.Idle b ∧ b ∉ o.addrs t ∧ ¬ used b)

section One

variable {o : Owner σ} {others : Addr → ℕ} {m m' m'' : Mem} {A B l l' l'' : List σ} {t t' : σ}

theorem IdleKept.refl (o : Owner σ) (m : Mem) (l : List σ) : o.IdleKept m l m l := by
  intro a ha
  by_cases hn : a ∈ o.blocks l
  · exact Or.inl hn
  · exact Or.inr ⟨ha, hn⟩

theorem IdleKept.trans (h : o.IdleKept m l m' l') (h' : o.IdleKept m' l' m'' l'') : o.IdleKept m l m'' l'' := by
  intro a ha
  rcases h' a ha with ha | ⟨ha, hn⟩
  · exact Or.inl ha
  · exact Or.inr ((h a ha).resolve_left hn)

theorem holders_focus : o.holders others (A ++ t :: B) = o.beside others A B + o.refs t := by
  unfold holders beside
  simp only [List.map_append, List.map_cons, List.sum_append, List.sum_cons]
  rw [add_comm (o.refs t), add_assoc, add_assoc]

theorem mem_blocks_focus {a : Addr} : a ∈ o.blocks (A ++ t :: B) ↔ a ∈ o.addrs t ∨ a ∈ o.blocks (A ++ B) := by
  unfold blocks
  simp only [List.flatMap_append, List.flatMap_cons, List.mem_append]
  tauto

theorem perm_blocks_focus : (o.blocks (A ++ t :: B)).Perm (o.addrs t ++ o.blocks (A ++ B)) := by
  unfold blocks
  simp only [List.flatMap_append, List.flatMap_cons]
  rw [← List.append_assoc, ← List.append_assoc]
  exact List.perm_append_comm.append_right _

/-- What a statement on one structure starts from. -/
theorem Exact.focus (h : o.Exact others m (A ++ t :: B)) :
    o.good t ∧ Counted m (o.beside others A B + o.refs t) ∅ ∧ (o.addrs t).Nodup ∧ ∀ a ∈ o.addrs t, m.Idle a := by
  have hc := h.counted
  rw [holders_focus] at hc
  exact ⟨h.good t (by simp), hc, (List.nodup_append.mp (perm_blocks_focus.nodup_iff.mp h.apart)).1,
    fun a ha => h.idle a (mem_blocks_focus.mpr (Or.inl ha))⟩

/-- A statement on one structure keeps the counts of all exact. -/
theorem Exact.replace {used : Addr → Prop} (h : o.Exact others m (A ++ t :: B))
    (hb : o.Becomes (o.beside others A B) t m used t' m')
    (hused : ∀ b, used b → b ∉ o.blocks (A ++ t :: B)) :
    o.Exact others m' (A ++ t' :: B) ∧ o.IdleKept m (A ++ t :: B) m' (A ++ t' :: B) := by
  obtain ⟨hnd, hndAB, hdisj⟩ := List.nodup_append.mp (perm_blocks_focus.nodup_iff.mp h.apart)
  have hother : ∀ a ∈ o.blocks (A ++ B), m.Idle a ∧ a ∉ o.addrs t := fun a ha =>
    ⟨h.idle a (mem_blocks_focus.mpr (Or.inr ha)), fun hat => hdisj a hat a ha rfl⟩
  refine ⟨⟨fun u hu => ?_, hb.mode, ?_, ?_, fun a ha => ?_⟩, fun a ha => ?_⟩
  · rcases List.mem_append.mp hu with hu | hu
    · exact h.good u (List.mem_append_left _ hu)
    · rcases List.mem_cons.mp hu with rfl | hu
      · exact hb.good
      · exact h.good u (List.mem_append_right _ (List.mem_cons_of_mem _ hu))
  · rw [holders_focus]
    exact hb.counted
  · refine perm_blocks_focus.nodup_iff.mpr (List.nodup_append.mpr ⟨hb.apart, hndAB, ?_⟩)
    rintro a ha b hab rfl
    rcases hb.own a ha with ha | ha
    · exact hdisj a ha a hab rfl
    · exact ha (hother a hab).1
  · refine (hb.idle a).mpr ?_
    rcases mem_blocks_focus.mp ha with ha | ha
    · exact Or.inl ha
    · refine Or.inr ⟨(hother a ha).1, (hother a ha).2, fun hu => hused a hu ?_⟩
      exact mem_blocks_focus.mpr (Or.inr ha)
  · rcases (hb.idle a).mp ha with ha | ⟨ha, hat, -⟩
    · exact Or.inl (mem_blocks_focus.mpr (Or.inl ha))
    · by_cases hn : a ∈ o.blocks (A ++ B)
      · exact Or.inl (mem_blocks_focus.mpr (Or.inr hn))
      · exact Or.inr ⟨ha, fun hm => (mem_blocks_focus.mp hm).elim hat hn⟩

/-- What happens outside the structures. -/
theorem Exact.memory (h : o.Exact others m l) (hmode : m'.rimMemProcess = false)
    (hc : Counted m' (o.holders others l) ∅) (hidle : ∀ b, m'.Idle b ↔ m.Idle b) :
    o.Exact others m' l ∧ o.IdleKept m l m' l := by
  refine ⟨⟨h.good, hmode, hc, h.apart, fun a ha => (hidle a).mpr (h.idle a ha)⟩, fun a ha => ?_⟩
  exact IdleKept.refl o m l a ((hidle a).mp ha)

/-- The `i`-th structure, and those around it. -/
theorem split_get {i : Nat} (ht : l[i]? = some t) : ∃ A B, l = A ++ t :: B ∧ ∀ t' : σ, l.set i t' = A ++ t' :: B := by
  obtain ⟨hi, hget⟩ := List.getElem?_eq_some_iff.mp ht
  refine ⟨l.take i, l.drop (i + 1), ?_, fun t' => ?_⟩
  · rw [← hget]
    simp
  · rw [List.set_eq_take_append_cons_drop, if_pos hi]

end One

end Owner

end RimStone
