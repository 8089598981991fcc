import RimStone.Tree.Tree
import Mathlib.Data.List.Lex
import Mathlib.Data.Prod.Lex

/-!
# The order of keys

`rim_tree_compare` orders strings by their bytes and positive integers by their
length first. Both are the order of a key's rank in a linear order: the length
(or nothing, for strings) and then the bytes.

String keys are compared up to and with the null that ends the shorter one, so
they must hold no null themselves (`KeyType.Ok`); keys that are numbers are
compared over their whole length and may hold anything.
-/

namespace RimStone

def KeyType.Ok : KeyType → Bytes → Prop
  | .str, s => 0 ∉ s
  | .num, _ => True

instance : (kt : KeyType) → (s : Bytes) → Decidable (kt.Ok s)
  | .str, s => inferInstanceAs (Decidable (0 ∉ s))
  | .num, _ => inferInstanceAs (Decidable True)

def KeyType.rank (t : KeyType) (s : Bytes) : ℕ ×ₗ List ℕ :=
  toLex (match t with
    | .str => 0
    | .num => s.length, s.map UInt8.toNat)

theorem KeyType.rank_injective (t : KeyType) {r s : Bytes} (h : t.rank r = t.rank s) : r = s := by
  have hmap : r.map UInt8.toNat = s.map UInt8.toNat := (Prod.mk.inj (toLex.injective h)).2
  exact List.map_injective_iff.mpr (fun a b hab => UInt8.toNat_inj.mp hab) hmap

theorem KeyType.rank_inj (t : KeyType) {r s : Bytes} : t.rank r = t.rank s ↔ r = s :=
  ⟨t.rank_injective, fun h => h ▸ rfl⟩

section Memcmp

/-- One step of `memcmp` against one step of the order. -/
theorem memcmp_cons {n : Nat} {a b : UInt8} {r s : Bytes} {p q : List ℕ}
    (hlt : memcmp n r s < 0 ↔ p < q) (heq : memcmp n r s = 0 ↔ p = q) :
    (memcmp (n + 1) (a :: r) (b :: s) < 0 ↔ a.toNat :: p < b.toNat :: q) ∧
    (memcmp (n + 1) (a :: r) (b :: s) = 0 ↔ a.toNat :: p = b.toNat :: q) := by
  unfold memcmp
  rw [List.cons_lt_cons_iff, List.cons.injEq]
  simp only [UInt8.lt_iff_toNat_lt]
  rcases Nat.lt_trichotomy a.toNat b.toNat with h | h | h
  · simp [h, Nat.ne_of_lt h]
  · simp [h, hlt, heq]
  · simp [h, Nat.not_lt_of_gt h, Nat.ne_of_gt h]

/-- `b` is `a`, a null byte, and whatever follows. -/
def NullExtends (a b : Bytes) : Prop := ∃ c, b = a ++ 0 :: c

variable {r s : Bytes} {x y : UInt8}

theorem nullExtends_nil : NullExtends [] (y :: s) ↔ y = 0 := by
  constructor
  · rintro ⟨c, hc⟩
    exact (List.cons.inj hc).1
  · rintro rfl
    exact ⟨s, rfl⟩

theorem not_nullExtends_nil : ¬ NullExtends r [] := by
  rintro ⟨c, hc⟩
  cases r <;> cases hc

theorem nullExtends_cons : NullExtends (x :: r) (y :: s) ↔ x = y ∧ NullExtends r s := by
  constructor
  · rintro ⟨c, hc⟩
    obtain ⟨hxy, hs⟩ := List.cons.inj hc
    exact ⟨hxy.symm, c, hs⟩
  · rintro ⟨rfl, c, rfl⟩
    exact ⟨c, rfl⟩

/-- Over the shorter length and one more, `memcmp` is the order of the bytes, of keys that do not
extend each other by a null. -/
theorem memcmp_rank {r s : Bytes} (hr : ¬ NullExtends r s) (hs : ¬ NullExtends s r) :
    (memcmp (min r.length s.length + 1) (r ++ [0]) (s ++ [0]) < 0 ↔ r.map UInt8.toNat < s.map UInt8.toNat) ∧
    (memcmp (min r.length s.length + 1) (r ++ [0]) (s ++ [0]) = 0 ↔ r.map UInt8.toNat = s.map UInt8.toNat) := by
  have hpos : ∀ z : UInt8, z ≠ 0 → 0 < z.toNat := by
    intro z hz
    have hne : z.toNat ≠ 0 := fun h => hz (UInt8.toNat_inj.mp h)
    omega
  induction r generalizing s with
  | nil =>
    cases s with
    | nil => simp [memcmp]
    | cons y s =>
      have hy := hpos y fun h => hr (nullExtends_nil.mpr h)
      simp [memcmp, UInt8.lt_iff_toNat_lt, hy]
  | cons x r ih =>
    cases s with
    | nil =>
      have hx := hpos x fun h => hs (nullExtends_nil.mpr h)
      simp [memcmp, UInt8.lt_iff_toNat_lt, hx]
    | cons y s =>
      have hmin : min (x :: r).length (y :: s).length = min r.length s.length + 1 := by
        simp only [List.length_cons]
        omega
      rw [hmin]
      by_cases hxy : x = y
      · subst hxy
        have hr' : ¬ NullExtends r s := fun h => hr (nullExtends_cons.mpr ⟨rfl, h⟩)
        have hs' : ¬ NullExtends s r := fun h => hs (nullExtends_cons.mpr ⟨rfl, h⟩)
        obtain ⟨hlt, heq⟩ := ih hr' hs'
        exact memcmp_cons hlt heq
      · -- the first bytes decide
        have hne : x.toNat ≠ y.toNat := fun h => hxy (UInt8.toNat_inj.mp h)
        show (memcmp (min r.length s.length + 1 + 1) (x :: (r ++ [0])) (y :: (s ++ [0])) < 0 ↔ _) ∧
          (memcmp (min r.length s.length + 1 + 1) (x :: (r ++ [0])) (y :: (s ++ [0])) = 0 ↔ _)
        rw [memcmp, List.map_cons, List.map_cons, List.cons_lt_cons_iff, List.cons.injEq]
        simp only [UInt8.lt_iff_toNat_lt]
        obtain h | h : x.toNat < y.toNat ∨ y.toNat < x.toNat := by omega
        · simp [h, hne]
        · simp [h, hne, Nat.not_lt_of_gt h]

theorem not_nullExtends (hs : 0 ∉ s) : ¬ NullExtends r s := by
  rintro ⟨c, rfl⟩
  exact hs (List.mem_append_right _ (List.mem_cons_self ..))

theorem memcmp_str {r s : Bytes} (hr : 0 ∉ r) (hs : 0 ∉ s) :
    (memcmp (min r.length s.length + 1) (r ++ [0]) (s ++ [0]) < 0 ↔
      r.map UInt8.toNat < s.map UInt8.toNat) ∧
    (memcmp (min r.length s.length + 1) (r ++ [0]) (s ++ [0]) = 0 ↔ r.map UInt8.toNat = s.map UInt8.toNat) :=
  memcmp_rank (not_nullExtends hs) (not_nullExtends hr)

/-- Over their common length, `memcmp` is the order of the bytes. -/
theorem memcmp_num {r s : Bytes} (hlen : r.length = s.length) :
    (memcmp r.length (r ++ [0]) (s ++ [0]) < 0 ↔ r.map UInt8.toNat < s.map UInt8.toNat) ∧
    (memcmp r.length (r ++ [0]) (s ++ [0]) = 0 ↔ r.map UInt8.toNat = s.map UInt8.toNat) := by
  induction r generalizing s with
  | nil =>
    obtain rfl := List.length_eq_zero_iff.mp hlen.symm
    simp [memcmp]
  | cons a r ih =>
    cases s with
    | nil => cases hlen
    | cons b s =>
      obtain ⟨hlt, heq⟩ := ih (s := s) (Nat.succ.inj hlen)
      exact memcmp_cons hlt heq

end Memcmp

/-- The operation's key is one the tree may hold, and its length is its own. -/
structure TreeCtx.Valid (c : TreeCtx) : Prop where
  len : c.keyLen = c.key.bytes.length
  ok : c.keyType.Ok c.key.bytes

section Compare

variable {c : TreeCtx} {k : RimStr}

/-- `rim_tree_compare` is the order of ranks. -/
theorem rimTreeCompare_rank (hc : c.Valid) (hk : c.keyType.Ok k.bytes) :
    (rimTreeCompare c k < 0 ↔ c.keyType.rank c.key.bytes < c.keyType.rank k.bytes) ∧
    (rimTreeCompare c k = 0 ↔ c.keyType.rank c.key.bytes = c.keyType.rank k.bytes) := by
  obtain ⟨hlen, hok⟩ := hc
  unfold rimTreeCompare KeyType.rank
  rw [Prod.Lex.toLex_lt_toLex, toLex_inj, Prod.mk.injEq]
  cases htype : c.keyType with
  | str =>
    rw [htype] at hok hk
    simpa [hlen, rimMemGetLen, RimStr.memory] using memcmp_str hok hk
  | num =>
    simp only [hlen, rimMemGetLen, RimStr.memory]
    rcases Nat.lt_trichotomy c.key.bytes.length k.bytes.length with h | h | h
    · simp [h, Nat.ne_of_lt h]
    · simpa [h] using (h ▸ memcmp_num h)
    · simp [h, Nat.not_lt_of_gt h, Nat.ne_of_gt h]

theorem rimTreeCompare_neg (hc : c.Valid) (hk : c.keyType.Ok k.bytes) :
    rimTreeCompare c k < 0 ↔ c.keyType.rank c.key.bytes < c.keyType.rank k.bytes :=
  (rimTreeCompare_rank hc hk).1

theorem rimTreeCompare_eq_zero (hc : c.Valid) (hk : c.keyType.Ok k.bytes) :
    rimTreeCompare c k = 0 ↔ c.key.bytes = k.bytes :=
  (rimTreeCompare_rank hc hk).2.trans c.keyType.rank_inj

theorem rimTreeCompare_pos (hc : c.Valid) (hk : c.keyType.Ok k.bytes) :
    rimTreeCompare c k > 0 ↔ c.keyType.rank k.bytes < c.keyType.rank c.key.bytes := by
  obtain ⟨hlt, heq⟩ := rimTreeCompare_rank hc hk
  rw [← not_le, le_iff_lt_or_eq, ← hlt, ← heq]
  omega

end Compare

end RimStone
