import Mathlib.Data.List.Induction

/-!
# Base64

Three bytes are four digits of six bits each. Where one or two bytes are left they are two or three digits, and `=`s
for the others. What is read back has three bytes for each four digits, where a `=` is a zero: the bytes that were
written and a zero for each `=`.
-/

namespace RimStone.Lib.Base64

def digit (n : Nat) : UInt8 :=
  if n < 26 then UInt8.ofNat (n + 65)
  else if n < 52 then UInt8.ofNat (n + 71)
  else if n < 62 then UInt8.ofNat (n - 4)
  else if n = 62 then 43
  else 47

/-- What is written for the digits that there are no bytes for. -/
def pad : UInt8 := 61

/-- Six bits of a digit, which are zero for a `=`. -/
def value (c : UInt8) : Option Nat :=
  if 65 ≤ c ∧ c ≤ 90 then some (c.toNat - 65)
  else if 97 ≤ c ∧ c ≤ 122 then some (c.toNat - 71)
  else if 48 ≤ c ∧ c ≤ 57 then some (c.toNat + 4)
  else if c = 43 then some 62
  else if c = 47 then some 63
  else if c = pad then some 0
  else none

def encode : List UInt8 → List UInt8
  | a :: b :: c :: x =>
    digit (a.toNat / 4) :: digit (a.toNat % 4 * 16 + b.toNat / 16) :: digit (b.toNat % 16 * 4 + c.toNat / 64) ::
      digit (c.toNat % 64) :: encode x
  | [a, b] => [digit (a.toNat / 4), digit (a.toNat % 4 * 16 + b.toNat / 16), digit (b.toNat % 16 * 4), pad]
  | [a] => [digit (a.toNat / 4), digit (a.toNat % 4 * 16), pad, pad]
  | [] => []

/-- The bytes of some digits, three for each four of them. -/
def decode : List UInt8 → Option (List UInt8)
  | a :: b :: c :: d :: v => do
    let a ← value a
    let b ← value b
    let c ← value c
    let d ← value d
    let x ← decode v
    some (UInt8.ofNat (a * 4 + b / 16) :: UInt8.ofNat (b % 16 * 16 + c / 4) :: UInt8.ofNat (c % 4 * 64 + d) :: x)
  | [] => some []
  | _ => none

/-- How many `=`s there are for `n` bytes. -/
def padding (n : Nat) : Nat := (3 - n % 3) % 3

/-- The `=`s at the end. -/
def pads (v : List UInt8) : Nat := (v.reverse.takeWhile (· = pad)).length

theorem value_digit {n : Nat} (h : n < 64) : value (digit n) = some n := by
  have hall : ∀ n < 64, value (digit n) = some n := by decide
  exact hall n h

theorem digit_ne_pad {n : Nat} (h : n < 64) : digit n ≠ pad := by
  have hall : ∀ n < 64, digit n ≠ pad := by decide
  exact hall n h

theorem length_encode (x : List UInt8) : (encode x).length = 4 * ((x.length + 2) / 3) := by
  induction x using encode.induct with
  | case1 a b c x ih =>
    simp only [encode, List.length_cons, ih]
    omega
  | case2 a b => simp [encode]
  | case3 a => simp [encode]
  | case4 => rfl

/-- Every group of bytes is read back. -/
theorem decode_encode (x : List UInt8) : decode (encode x) = some (x ++ List.replicate (padding x.length) 0) := by
  have hbyte : ∀ (a : UInt8) (n : Nat), n = a.toNat → UInt8.ofNat n = a := by
    intro a n h
    rw [h, UInt8.ofNat_toNat]
  induction x using encode.induct with
  | case1 a b c x ih =>
    have ha := a.toNat_lt
    have hb := b.toNat_lt
    have hc := c.toNat_lt
    have hpadding : padding (a :: b :: c :: x).length = padding x.length := by
      unfold padding
      simp only [List.length_cons]
      omega
    simp only [encode, decode, value_digit (show a.toNat / 4 < 64 by omega),
      value_digit (show a.toNat % 4 * 16 + b.toNat / 16 < 64 by omega),
      value_digit (show b.toNat % 16 * 4 + c.toNat / 64 < 64 by omega), value_digit (show c.toNat % 64 < 64 by omega),
      ih, Option.bind_eq_bind, Option.bind_some, hpadding, List.cons_append]
    rw [hbyte a _ (by omega), hbyte b _ (by omega), hbyte c _ (by omega)]
  | case2 a b =>
    have ha := a.toNat_lt
    have hb := b.toNat_lt
    simp only [encode, decode, value_digit (show a.toNat / 4 < 64 by omega),
      value_digit (show a.toNat % 4 * 16 + b.toNat / 16 < 64 by omega),
      value_digit (show b.toNat % 16 * 4 < 64 by omega), show value pad = some 0 from rfl, Option.bind_eq_bind,
      Option.bind_some]
    rw [hbyte a _ (by omega), hbyte b _ (by omega), hbyte 0 _ (by rw [UInt8.toNat_zero]; omega)]
    rfl
  | case3 a =>
    have ha := a.toNat_lt
    simp only [encode, decode, value_digit (show a.toNat / 4 < 64 by omega),
      value_digit (show a.toNat % 4 * 16 < 64 by omega), show value pad = some 0 from rfl, Option.bind_eq_bind,
      Option.bind_some]
    rw [hbyte a _ (by omega), hbyte 0 _ (by rw [UInt8.toNat_zero]; omega)]
    rfl
  | case4 => rfl

/-- There are three bytes for each four digits. -/
theorem length_decode {v x : List UInt8} (h : decode v = some x) : 4 * x.length = 3 * v.length := by
  induction v using decode.induct generalizing x with
  | case1 a b c d v ih =>
    simp only [decode, Option.bind_eq_bind, Option.bind_eq_some_iff] at h
    obtain ⟨a', -, b', -, c', -, d', -, y, hy, h⟩ := h
    obtain rfl := Option.some.inj h
    have hlen := ih hy
    simp only [List.length_cons]
    omega
  | case2 =>
    obtain rfl := Option.some.inj h
    rfl
  | case3 v hfour hnil =>
    rw [decode] at h
    · cases h
    · exact hfour
    · exact hnil

/-! ## The end of a text -/

theorem pads_concat (w : List UInt8) {c : UInt8} (hc : c ≠ pad) (k : Nat) : pads (w ++ c :: List.replicate k pad) = k := by
  unfold pads
  rw [List.reverse_append, List.reverse_cons, List.reverse_replicate, List.append_assoc, List.takeWhile_append_of_pos]
  · simp [hc]
  · intro x hx
    simpa using List.eq_of_mem_replicate hx

/-- A text is all `=`s, or has a last byte that is none. -/
theorem pads_cases (v : List UInt8) :
    v = List.replicate v.length pad ∨ ∃ w c, c ≠ pad ∧ v = w ++ c :: List.replicate (pads v) pad := by
  induction v using List.reverseRecOn with
  | nil => exact .inl rfl
  | append_singleton v c ih =>
    by_cases hc : c = pad
    · subst hc
      obtain hall | ⟨w, c, hc, hv⟩ := ih
      · refine .inl ?_
        rw [List.length_append, List.length_singleton, List.replicate_succ', ← hall]
      · refine .inr ⟨w, c, hc, ?_⟩
        have hend : v ++ [pad] = w ++ c :: List.replicate (pads v + 1) pad := by
          rw [List.replicate_succ', ← List.cons_append, ← List.append_assoc, ← hv]
        rw [hend, pads_concat w hc]
    · refine .inr ⟨v, c, hc, ?_⟩
      rw [show v ++ [c] = v ++ c :: List.replicate 0 pad from rfl, pads_concat v hc]

/-- The `=`s of the digits of some bytes. -/
theorem encode_ends {x : List UInt8} (h : x ≠ []) :
    ∃ w c, c ≠ pad ∧ encode x = w ++ c :: List.replicate (padding x.length) pad := by
  induction x using encode.induct with
  | case1 a b c x ih =>
    by_cases hx : x = []
    · subst hx
      refine ⟨[digit (a.toNat / 4), digit (a.toNat % 4 * 16 + b.toNat / 16), digit (b.toNat % 16 * 4 + c.toNat / 64)],
        digit (c.toNat % 64), digit_ne_pad (by omega), ?_⟩
      simp [encode, padding]
    · obtain ⟨w, e, he, hend⟩ := ih hx
      have hpadding : padding (a :: b :: c :: x).length = padding x.length := by
        unfold padding
        simp only [List.length_cons]
        omega
      refine ⟨digit (a.toNat / 4) :: digit (a.toNat % 4 * 16 + b.toNat / 16) ::
        digit (b.toNat % 16 * 4 + c.toNat / 64) :: digit (c.toNat % 64) :: w, e, he, ?_⟩
      rw [encode, hend, hpadding]
      rfl
  | case2 a b =>
    exact ⟨[digit (a.toNat / 4), digit (a.toNat % 4 * 16 + b.toNat / 16)], digit (b.toNat % 16 * 4),
      digit_ne_pad (by omega), by simp [encode, padding]⟩
  | case3 a =>
    exact ⟨[digit (a.toNat / 4)], digit (a.toNat % 4 * 16), digit_ne_pad (by omega),
      by simp [encode, padding, List.replicate]⟩
  | case4 => exact absurd rfl h

end RimStone.Lib.Base64
