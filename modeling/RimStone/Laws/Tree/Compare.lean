import RimStone.Laws.Tree.Order
import Mathlib.Data.Set.Basic

/-!
# Keys with null bytes

String keys may hold any bytes, and `rim_tree_compare` looks at one byte more than the shorter
key has. That byte is the null after the key, so a key is not told from the same key with a
null and more bytes after it. This is the only case: on keys none of which extends another in
this way, the comparison is the order of the bytes.
-/

namespace RimStone

/-- `rim_tree_compare` of two keys that are strings. -/
def compareKeys (sorted : Bool) (a b : RimStr) : Int := rimTreeCompare ⟨.str, sorted, a, rimMemGetLen a⟩ b

/-- A total order of keys, in which only the same bytes are equal. -/
structure Orders (cmp : RimStr → RimStr → Int) (keys : Set RimStr) : Prop where
  antisymm : ∀ a ∈ keys, ∀ b ∈ keys, (cmp a b < 0 ↔ 0 < cmp b a)
  trans : ∀ a ∈ keys, ∀ b ∈ keys, ∀ c ∈ keys, cmp a b ≤ 0 → cmp b c ≤ 0 → cmp a c ≤ 0
  trans_eq : ∀ a ∈ keys, ∀ b ∈ keys, ∀ c ∈ keys, cmp a b = 0 → cmp b c = 0 → cmp a c = 0
  eq_zero : ∀ a ∈ keys, ∀ b ∈ keys, (cmp a b = 0 ↔ a.bytes = b.bytes)

variable {r s : Bytes} {x y : UInt8}

/-- A key is not told from its extension by a null. -/
theorem memcmp_nullExtends (h : NullExtends r s) : memcmp (min r.length s.length + 1) (r ++ [0]) (s ++ [0]) = 0 := by
  induction r generalizing s with
  | nil =>
    cases s with
    | nil => rfl
    | cons y s =>
      obtain rfl := nullExtends_nil.mp h
      rfl
  | cons x r ih =>
    cases s with
    | nil => exact absurd h not_nullExtends_nil
    | cons y s =>
      obtain ⟨rfl, hext⟩ := nullExtends_cons.mp h
      have hmin : min (x :: r).length (x :: s).length = min r.length s.length + 1 := by
        simp only [List.length_cons]
        omega
      rw [hmin]
      show memcmp (min r.length s.length + 1 + 1) (x :: (r ++ [0])) (x :: (s ++ [0])) = 0
      rw [memcmp, if_neg (UInt8.lt_irrefl x), if_neg (UInt8.lt_irrefl x), ih hext]

section

variable {sorted : Bool} {a b c : RimStr}

theorem compareKeys_eq : compareKeys sorted a b =
    memcmp (min a.bytes.length b.bytes.length + 1) (a.bytes ++ [0]) (b.bytes ++ [0]) := rfl

/-- A key and its extension by a null compare equal. -/
theorem compareKeys_nullExtends (h : NullExtends a.bytes b.bytes) : compareKeys sorted a b = 0 := by
  rw [compareKeys_eq]
  exact memcmp_nullExtends h

/-- Keys that do not extend each other compare as their bytes do. -/
theorem compareKeys_rank (hab : ¬ NullExtends a.bytes b.bytes) (hba : ¬ NullExtends b.bytes a.bytes) :
    (compareKeys sorted a b < 0 ↔ a.bytes.map UInt8.toNat < b.bytes.map UInt8.toNat) ∧
    (compareKeys sorted a b = 0 ↔ a.bytes.map UInt8.toNat = b.bytes.map UInt8.toNat) := by
  rw [compareKeys_eq]
  exact memcmp_rank hab hba

theorem compareKeys_le (hab : ¬ NullExtends a.bytes b.bytes) (hba : ¬ NullExtends b.bytes a.bytes) :
    compareKeys sorted a b ≤ 0 ↔ a.bytes.map UInt8.toNat ≤ b.bytes.map UInt8.toNat := by
  obtain ⟨hlt, heq⟩ : (compareKeys sorted a b < 0 ↔ _) ∧ (compareKeys sorted a b = 0 ↔ _) := compareKeys_rank hab hba
  rw [le_iff_lt_or_eq, le_iff_lt_or_eq, hlt, heq]

/-- The comparison is a total order of exactly the sets of keys in which no key is another one,
a null byte, and more. -/
theorem compareKeys_orders_iff (sorted : Bool) (keys : Set RimStr) :
    Orders (compareKeys sorted) keys ↔ ∀ a ∈ keys, ∀ b ∈ keys, ¬ NullExtends a.bytes b.bytes := by
  constructor
  · intro h a ha b hb hext
    have hbytes := (h.eq_zero a ha b hb).mp (compareKeys_nullExtends hext)
    obtain ⟨c, hc⟩ := hext
    have hlen := congrArg List.length hc
    rw [hbytes, List.length_append, List.length_cons] at hlen
    omega
  · intro h
    refine ⟨fun a ha b hb => ?_, fun a ha b hb c hc hab hbc => ?_, fun a ha b hb c hc hab hbc => ?_, fun a ha b hb => ?_⟩
    · have hle : compareKeys sorted b a ≤ 0 ↔ _ := compareKeys_le (h b hb a ha) (h a ha b hb)
      rw [(compareKeys_rank (h a ha b hb) (h b hb a ha)).1, ← not_le, ← not_le, hle]
    · rw [compareKeys_le (h _ ‹_› _ ‹_›) (h _ ‹_› _ ‹_›)] at hab hbc ⊢
      exact le_trans hab hbc
    · rw [(compareKeys_rank (h _ ‹_› _ ‹_›) (h _ ‹_› _ ‹_›)).2] at hab hbc ⊢
      exact hab.trans hbc
    · rw [(compareKeys_rank (h a ha b hb) (h b hb a ha)).2]
      exact List.map_inj_right fun x y hxy => UInt8.toNat_inj.mp hxy

/-- `a` and `a` with a null byte after it are two keys, and compare equal. -/
theorem compareKeys_not_orders : ¬ ∀ sorted : Bool, Orders (compareKeys sorted) Set.univ := by
  intro h
  have hzero : compareKeys true ⟨1, [97]⟩ ⟨2, [97, 0]⟩ = 0 := by decide
  have hbytes := ((h true).eq_zero ⟨1, [97]⟩ trivial ⟨2, [97, 0]⟩ trivial).mp hzero
  cases hbytes

end

end RimStone
