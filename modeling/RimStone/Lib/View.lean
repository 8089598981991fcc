import Mathlib.Data.List.AList
import Mathlib.Data.List.Perm.Subperm
import RimStone.Lib.Chain

/-!
# Views of a store

A store is a finite map from addresses to blocks. What a structure in it looks like is
told by views: a field of a block, or several, as a partial function on addresses. To
write a block or to give it up is to update every view at its address.
-/

namespace RimStone.Lib

variable {α : Type*} {β γ : Type*} [DecidableEq α]

/-- The field `f` of the block at an address. -/
def view (f : β → γ) (s : AList fun _ : α => β) (a : α) : Option γ := (s.lookup a).map f

variable {f : β → γ} {s : AList fun _ : α => β} {a : α} {b : β} {c : γ}

theorem view_eq_some : view f s a = some c ↔ ∃ b, s.lookup a = some b ∧ f b = c := Option.map_eq_some_iff

theorem view_of_lookup (h : s.lookup a = some b) : view f s a = some (f b) := view_eq_some.mpr ⟨b, h, rfl⟩

theorem view_insert : view f (AList.insert a b s) = Function.update (view f s) a (some (f b)) := by
  funext x
  by_cases hx : x = a
  · subst hx
    simp [view]
  · simp [view, hx]

theorem view_erase : view f (s.erase a) = Function.update (view f s) a none := by
  funext x
  by_cases hx : x = a
  · subst hx
    simp [view]
  · simp [view, hx]

/-- A field that an edit of a block leaves as it was. -/
theorem view_insert_same {b' : β} (h : s.lookup a = some b) (hf : f b' = f b) :
    view f (AList.insert a b' s) = view f s := by
  rw [view_insert, hf]
  exact Function.update_eq_self_iff.mpr (view_of_lookup h).symm

/-- An update outside a list does not change what the list holds. -/
theorem map_update {v : α → Option γ} {o : Option γ} {l : List α} (ha : a ∉ l) :
    l.map (Function.update v a o) = l.map v := by
  apply List.map_congr_left
  intro x hx
  exact Function.update_of_ne (ne_of_mem_of_not_mem hx ha) _ _

/-- What is in the store is there after a block is written, and so is that block. -/
theorem exists_insert {x : α} {b' : β} (h : a = x ∨ ∃ b, s.lookup a = some b) :
    ∃ b, (AList.insert x b' s).lookup a = some b := by
  by_cases hax : a = x
  · subst hax
    exact ⟨b', AList.lookup_insert _⟩
  · obtain ⟨b, hb⟩ := h.resolve_left hax
    exact ⟨b, (AList.lookup_insert_ne hax).trans hb⟩

/-- The pointer `p` of the block at an address, and nothing where there is no block. -/
def link (p : β → Option γ) (s : AList fun _ : α => β) (a : α) : Option γ := (s.lookup a).bind p

variable {p : β → Option γ}

theorem link_of_lookup (h : s.lookup a = some b) : link p s a = p b := by
  unfold link
  rw [h]
  rfl

theorem link_insert : link p (AList.insert a b s) = Function.update (link p s) a (p b) := by
  funext x
  by_cases hx : x = a
  · subst hx
    simp [link]
  · simp [link, hx]

/-- A pointer that an edit of a block leaves as it was. -/
theorem link_insert_same {b' : β} (h : s.lookup a = some b) (hp : p b' = p b) :
    link p (AList.insert a b' s) = link p s := by
  rw [link_insert, hp]
  exact Function.update_eq_self_iff.mpr (link_of_lookup h).symm

theorem link_erase : link p (s.erase a) = Function.update (link p s) a none := by
  funext x
  by_cases hx : x = a
  · subst hx
    simp [link]
  · simp [link, hx]

/-- Different addresses that are all in the store are no more than its blocks. -/
theorem length_le_entries {l : List α} (hnd : l.Nodup) (hin : ∀ a ∈ l, ∃ b, s.lookup a = some b) :
    l.length ≤ s.entries.length := by
  have hsub : l ⊆ s.keys := by
    intro a ha
    obtain ⟨b, hb⟩ := hin a ha
    exact AList.mem_keys.mp (AList.lookup_isSome.mp (by rw [hb]; rfl))
  have hle := (List.subperm_of_subset hnd hsub).length_le
  unfold AList.keys List.keys at hle
  rwa [List.length_map] at hle

/-- A chain through a field visits blocks of the store. -/
theorem exists_of_mem_seg {next : β → Option α} {h t : Option α} {l : List α} (hs : Seg (view next s) h l t)
    {a : α} (ha : a ∈ l) : ∃ b, s.lookup a = some b := by
  obtain ⟨n, hn⟩ := Seg.exists_next hs ha
  obtain ⟨b, hb, -⟩ := view_eq_some.mp hn
  exact ⟨b, hb⟩

end RimStone.Lib
