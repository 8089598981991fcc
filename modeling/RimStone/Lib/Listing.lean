import Mathlib.Data.List.Perm.Basic
import Mathlib.Logic.Function.Basic

/-!
# Finite maps listed as entries

`Lists key val l m` says that the entries `l` list the finite map `m`: each entry
gives its key its value. Order does not matter, and where no two entries have one
key, an entry put in front or taken away is an update of the map.
-/

namespace RimStone.Lib

variable {α κ β : Type*} {key : α → κ} {val : α → β} {l l' : List α} {m : κ → Option β}

/-- The entries of `l` are what `m` maps. -/
def Lists (key : α → κ) (val : α → β) (l : List α) (m : κ → Option β) : Prop :=
  ∀ k v, m k = some v ↔ ∃ a ∈ l, key a = k ∧ val a = v

theorem Lists.perm (h : Lists key val l m) (hp : l.Perm l') : Lists key val l' m := by
  intro k v
  rw [h k v]
  simp only [hp.mem_iff]

/-- What is read of the entries is all that matters. -/
theorem Lists.of_map {γ : Type*} {f : α → γ} (key : γ → κ) (val : γ → β) (he : l'.map f = l.map f)
    (h : Lists (fun a => key (f a)) (fun a => val (f a)) l m) :
    Lists (fun a => key (f a)) (fun a => val (f a)) l' m := by
  have hview : ∀ (l : List α) k v, (∃ a ∈ l, key (f a) = k ∧ val (f a) = v) ↔ ∃ c ∈ l.map f, key c = k ∧ val c = v :=
    fun l k v => by simp
  intro k v
  rw [h k v, hview l', he, hview l]

theorem lists_nil : Lists key val [] (fun _ => none : κ → Option β) := by
  intro k v
  simp

/-- A key that no entry has is not mapped. -/
theorem Lists.none_iff (h : Lists key val l m) {k : κ} : m k = none ↔ ∀ a ∈ l, key a ≠ k := by
  constructor
  · intro hn a ha hk
    have hs := (h k (val a)).mpr ⟨a, ha, hk, rfl⟩
    rw [hn] at hs
    cases hs
  · intro hno
    cases hm : m k with
    | none => rfl
    | some v =>
      obtain ⟨a, ha, hk, -⟩ := (h k v).mp hm
      exact absurd hk (hno a ha)

variable [DecidableEq κ]

theorem Lists.cons (h : Lists key val l m) {a : α} (hnew : ∀ b ∈ l, key b ≠ key a) :
    Lists key val (a :: l) (Function.update m (key a) (some (val a))) := by
  intro k v
  by_cases hk : k = key a
  · subst hk
    rw [Function.update_self]
    constructor
    · intro hv
      exact ⟨a, List.mem_cons_self .., rfl, Option.some.inj hv⟩
    · rintro ⟨b, hb, hkb, hv⟩
      rcases List.mem_cons.mp hb with rfl | hb
      · rw [hv]
      · exact absurd hkb (hnew b hb)
  · rw [Function.update_of_ne hk, h k v]
    constructor
    · rintro ⟨b, hb, hkv⟩
      exact ⟨b, List.mem_cons_of_mem _ hb, hkv⟩
    · rintro ⟨b, hb, hkb, hv⟩
      rcases List.mem_cons.mp hb with rfl | hb
      · exact absurd hkb.symm hk
      · exact ⟨b, hb, hkb, hv⟩

theorem Lists.tail {a : α} (h : Lists key val (a :: l) m) (hother : ∀ b ∈ l, key b ≠ key a) :
    Lists key val l (Function.update m (key a) none) := by
  intro k v
  by_cases hk : k = key a
  · subst hk
    rw [Function.update_self]
    constructor
    · intro hv
      cases hv
    · rintro ⟨b, hb, hkb, -⟩
      exact absurd hkb (hother b hb)
  · rw [Function.update_of_ne hk, h k v]
    constructor
    · rintro ⟨b, hb, hkb, hv⟩
      rcases List.mem_cons.mp hb with rfl | hb
      · exact absurd hkb.symm hk
      · exact ⟨b, hb, hkb, hv⟩
    · rintro ⟨b, hb, hkv⟩
      exact ⟨b, List.mem_cons_of_mem _ hb, hkv⟩

/-- Entries without a key in common list some map. -/
theorem exists_lists (key : α → κ) (val : α → β) (hnd : (l.map key).Nodup) : ∃ m, Lists key val l m := by
  induction l with
  | nil => exact ⟨_, lists_nil⟩
  | cons a l ih =>
    rw [List.map_cons, List.nodup_cons] at hnd
    obtain ⟨m, hm⟩ := ih hnd.2
    refine ⟨_, hm.cons fun b hb hk => hnd.1 ?_⟩
    exact List.mem_map.mpr ⟨b, hb, hk⟩

end RimStone.Lib
