import RimStone.Text.Encode
import RimStone.Laws.Memory.Chars

/-!
# Decoding undoes encoding

The loops of `rim_decode` take what `rim_encode_base` wrote for one byte at a time.
Web encoding writes an entity for the five bytes with a meaning in markup and leaves
out null bytes. URL encoding writes `%` and two hexadecimal digits.
-/

namespace RimStone

open RimStone.Lib

/-! ## Writing to a new block -/

/-- The loop of `rim_encode_base` writes one byte's form after the other. -/
theorem rimEncodeLoop_eq (enc : RimEnc) (s out : Bytes) {free : Bytes}
    (hroom : (s.flatMap enc.char).length ≤ free.length) :
    rimEncodeLoop enc s (out ++ free) out.length =
      some (out ++ s.flatMap enc.char ++ free.drop (s.flatMap enc.char).length,
        (out ++ s.flatMap enc.char).length) := by
  induction s generalizing out free with
  | nil => simp [rimEncodeLoop]
  | cons c s ih =>
    rw [List.flatMap_cons, List.length_append] at hroom
    have hfits : (enc.char c).length ≤ free.length := by omega
    have hmem := memcpy_append out hfits
    have hrest : (s.flatMap enc.char).length ≤ (free.drop (enc.char c).length).length := by
      rw [List.length_drop]
      omega
    have hih := ih (out ++ enc.char c) hrest
    rw [List.length_append] at hih
    simp only [rimEncodeLoop, hmem, bind, Option.bind]
    rw [hih]
    simp only [List.flatMap_cons, List.drop_drop, List.length_append, List.append_assoc]

theorem char_length_le (enc : RimEnc) (c : UInt8) : (enc.char c).length ≤ 6 := by
  cases enc with
  | web =>
    show (rimEncodeWeb c).length ≤ 6
    unfold rimEncodeWeb
    split_ifs <;> simp [ascii]
  | url =>
    show (rimEncodeUrl c).length ≤ 6
    unfold rimEncodeUrl
    split_ifs <;> simp

theorem flatMap_char_length_le (enc : RimEnc) (s : Bytes) : (s.flatMap enc.char).length ≤ s.length * 6 := by
  induction s with
  | nil => simp
  | cons c s ih =>
    have hc := char_length_le enc c
    rw [List.flatMap_cons, List.length_append, List.length_cons]
    omega

/-- `rim_encode_base` fits in the block it asks for. -/
theorem rimEncodeBase_eq (enc : RimEnc) (s : Bytes) {block : Bytes}
    (hblock : block.length = RIM_MAX_ENC_BLOWUP s.length) :
    rimEncodeBase enc s block = some (s.flatMap enc.char ++ [0], (s.flatMap enc.char).length) := by
  have hlen := flatMap_char_length_le enc s
  have hroom : (s.flatMap enc.char).length < block.length := by
    rw [hblock, RIM_MAX_ENC_BLOWUP]
    omega
  have hloop := rimEncodeLoop_eq enc s [] (Nat.le_of_lt hroom)
  simp only [List.nil_append, List.length_nil] at hloop
  have hlast : (s.flatMap enc.char).length <
      (s.flatMap enc.char ++ block.drop (s.flatMap enc.char).length).length := by
    rw [List.length_append, List.length_drop]
    omega
  simp only [rimEncodeBase, hloop, bind, Option.bind, poke, if_pos hlast]
  rw [List.set_append_right _ _ (Nat.le_refl _), Nat.sub_self]
  obtain ⟨x, xs, hx⟩ : ∃ x xs, block.drop (s.flatMap enc.char).length = x :: xs := by
    cases hd : block.drop (s.flatMap enc.char).length with
    | nil =>
      have hz := congrArg List.length hd
      rw [List.length_drop, List.length_nil] at hz
      omega
    | cons x xs => exact ⟨x, xs, rfl⟩
  rw [hx, List.set_cons_zero, List.take_append, List.take_of_length_le (by omega)]
  simp

/-! ## Web decoding -/

/-- What web encoding does with a byte. -/
theorem rimEncodeWeb_cases (c : UInt8) :
    (∃ e ∈ webEntities, rimEncodeWeb c = 38 :: e.1 ∧ c = e.2) ∨ (rimEncodeWeb c = [] ∧ c = 0) ∨
      (rimEncodeWeb c = [c] ∧ c ≠ 0 ∧ c ≠ 38 ∧ c ≠ 34 ∧ c ≠ 39 ∧ c ≠ 60 ∧ c ≠ 62) := by
  by_cases hamp : c = 38
  · exact Or.inl ⟨(ascii "amp;", 38), by decide, by rw [hamp]; decide, hamp⟩
  by_cases hquot : c = 34
  · exact Or.inl ⟨(ascii "quot;", 34), by decide, by rw [hquot]; decide, hquot⟩
  by_cases hapos : c = 39
  · exact Or.inl ⟨(ascii "apos;", 39), by decide, by rw [hapos]; decide, hapos⟩
  by_cases hlt : c = 60
  · exact Or.inl ⟨(ascii "lt;", 60), by decide, by rw [hlt]; decide, hlt⟩
  by_cases hgt : c = 62
  · exact Or.inl ⟨(ascii "gt;", 62), by decide, by rw [hgt]; decide, hgt⟩
  by_cases hnull : c = 0
  · exact Or.inr (Or.inl ⟨by rw [hnull]; decide, hnull⟩)
  refine Or.inr (Or.inr ⟨?_, hnull, hamp, hquot, hapos, hlt, hgt⟩)
  unfold rimEncodeWeb
  rw [if_neg hamp, if_neg hquot, if_neg hapos, if_neg hlt, if_neg hgt, if_neg hnull]

theorem find_webEntities {e : Bytes × UInt8} (he : e ∈ webEntities) (s : Bytes) :
    (webEntities.find? fun x => strncmp x.1.length (e.1 ++ s) x.1 = 0) = some e := by
  have hall : ∀ e ∈ [(ascii "amp;", (38 : UInt8)), (ascii "quot;", 34), (ascii "apos;", 39),
      (ascii "lt;", 60), (ascii "gt;", 62)],
      (webEntities.find? fun x => strncmp x.1.length (e.1 ++ s) x.1 = 0) = some e := by
    simp only [List.forall_mem_cons, List.not_mem_nil, false_implies, implies_true, and_true]
    exact ⟨rfl, rfl, rfl, rfl, rfl⟩
  exact hall e he

section Web

variable {v out rest : Bytes} {i j inlen : Nat} {c : UInt8}

theorem rimDecodeWebLoop_entity (fuel : Nat) {e : Bytes × UInt8} (he : e ∈ webEntities)
    (h : InPlace v out (38 :: (e.1 ++ rest)) i j) (hi : i < inlen) :
    ∃ v', rimDecodeWebLoop inlen (fuel + 1) v i j =
        rimDecodeWebLoop inlen fuel v' (i + 1 + e.1.length) (j + 1) ∧
      InPlace v' (out ++ [e.2]) rest (i + 1 + e.1.length) (j + 1) := by
  have hget : v[i]? = some 38 := h.get_zero
  have hskip : InPlace v out ([38] ++ (e.1 ++ rest)) i j := h
  have hrest : v.drop (i + 1) = e.1 ++ rest := hskip.skip.unread
  refine ⟨v.set j e.2, ?_, (h.step e.2).skip⟩
  simp only [rimDecodeWebLoop, if_pos hi, hget, hrest, find_webEntities he, poke_eq h.lt, bind, Option.bind, if_true]

/-- The loop takes a byte that is no `&`. -/
theorem rimDecodeWebLoop_plain (fuel : Nat) (hc : c ≠ 38) (h : InPlace v out (c :: rest) i j) (hi : i < inlen) :
    ∃ v', rimDecodeWebLoop inlen (fuel + 1) v i j = rimDecodeWebLoop inlen fuel v' (i + 1) (j + 1) ∧
      InPlace v' (out ++ [c]) rest (i + 1) (j + 1) := by
  have hget : v[i]? = some c := h.get_zero
  refine ⟨v.set j c, ?_, h.step c⟩
  simp only [rimDecodeWebLoop, if_pos hi, hget, poke_eq h.lt, bind, Option.bind, if_neg hc]

/-- The loop takes what was encoded. -/
theorem rimDecodeWebLoop_encoded (s : Bytes) {tail : Bytes} {fuel : Nat}
    (h : InPlace v out (s.flatMap rimEncodeWeb ++ tail) i j)
    (hi : i + (s.flatMap rimEncodeWeb).length = inlen)
    (hfuel : (s.flatMap rimEncodeWeb).length < fuel) :
    ∃ v', rimDecodeWebLoop inlen fuel v i j = some (v', j + (s.filter (· ≠ 0)).length) ∧
      InPlace v' (out ++ s.filter (· ≠ 0)) tail inlen (j + (s.filter (· ≠ 0)).length) := by
  induction s generalizing v out i j fuel with
  | nil =>
    obtain ⟨fuel, rfl⟩ := Nat.exists_eq_succ_of_ne_zero (Nat.ne_of_gt (Nat.zero_lt_of_lt hfuel))
    rw [List.flatMap_nil, List.length_nil, Nat.add_zero] at hi
    refine ⟨v, ?_, ?_⟩
    · have hend : ¬ i < inlen := by omega
      rw [rimDecodeWebLoop, if_neg hend]
      rfl
    · rw [← hi]
      simpa using h
  | cons c s ih =>
    rw [List.flatMap_cons, List.append_assoc] at h
    rw [List.flatMap_cons, List.length_append] at hi hfuel
    rcases rimEncodeWeb_cases c with ⟨e, he, henc, rfl⟩ | ⟨henc, rfl⟩ | ⟨henc, hnull, hamp, -⟩
    · -- an entity
      rw [henc] at h hi hfuel
      rw [List.length_cons] at hi hfuel
      obtain ⟨fuel, rfl⟩ := Nat.exists_eq_succ_of_ne_zero (Nat.ne_of_gt (Nat.zero_lt_of_lt hfuel))
      have hne : e.2 ≠ 0 := by
        have hall : ∀ e ∈ webEntities, e.2 ≠ 0 := by decide
        exact hall e he
      have hlt : i < inlen := by omega
      have hleft : (s.flatMap rimEncodeWeb).length < fuel := by omega
      obtain ⟨v₁, hstep, h₁⟩ := rimDecodeWebLoop_entity fuel he h hlt
      obtain ⟨v', hloop, h'⟩ := ih h₁ (by omega) hleft
      have hfilter : (e.2 :: s).filter (· ≠ 0) = e.2 :: s.filter (· ≠ 0) := by
        rw [List.filter_cons_of_pos (by simpa using hne)]
      refine ⟨v', ?_, ?_⟩
      · rw [hstep, hloop, hfilter, List.length_cons, Nat.add_assoc, Nat.add_comm 1]
      · rw [hfilter, List.length_cons, Nat.add_comm _ 1, ← Nat.add_assoc]
        rw [List.append_assoc] at h'
        exact h'
    · -- a null byte, which is not there
      rw [henc] at h hi hfuel
      rw [List.length_nil] at hi hfuel
      have hfilter : (0 :: s).filter (fun x : UInt8 => x ≠ 0) = s.filter (· ≠ 0) := by
        rw [List.filter_cons_of_neg (by simp)]
      rw [hfilter]
      exact ih h (by omega) (by omega)
    · -- a byte as it is
      rw [henc] at h hi hfuel
      rw [List.length_singleton] at hi hfuel
      obtain ⟨fuel, rfl⟩ := Nat.exists_eq_succ_of_ne_zero (Nat.ne_of_gt (Nat.zero_lt_of_lt hfuel))
      have hlt : i < inlen := by omega
      have hleft : (s.flatMap rimEncodeWeb).length < fuel := by omega
      obtain ⟨v₁, hstep, h₁⟩ := rimDecodeWebLoop_plain fuel hamp h hlt
      obtain ⟨v', hloop, h'⟩ := ih h₁ (by omega) hleft
      have hfilter : (c :: s).filter (· ≠ 0) = c :: s.filter (· ≠ 0) := by
        rw [List.filter_cons_of_pos (by simpa using hnull)]
      refine ⟨v', ?_, ?_⟩
      · rw [hstep, hloop, hfilter, List.length_cons, Nat.add_assoc, Nat.add_comm 1]
      · rw [hfilter, List.length_cons, Nat.add_comm _ 1, ← Nat.add_assoc]
        rw [List.append_assoc] at h'
        exact h'

end Web

/-! ## URL decoding -/

/-- What URL encoding does with a byte. -/
theorem rimEncodeUrl_cases (c : UInt8) :
    (rimEncodeUrl c = [c] ∧ urlPlain c = true ∧ c ≠ 37 ∧ c ≠ 43) ∨
      ∃ x y h l, rimEncodeUrl c = [37, x, y] ∧ urlDig x = some h ∧ urlDig y = some l ∧ h * 16 + l = c := by
  by_cases hplain : urlPlain c = true
  · left
    refine ⟨?_, hplain, ?_, ?_⟩
    · rw [rimEncodeUrl, if_pos hplain]
    · rintro rfl
      revert hplain
      decide
    · rintro rfl
      revert hplain
      decide
  · right
    have hall : ∀ n : Nat, n < 256 →
        ∃ h l, urlDig (urlHex (charVal (.ofNat n) / 16)) = some h ∧
          urlDig (urlHex (charVal (.ofNat n) % 16)) = some l ∧ h * 16 + l = UInt8.ofNat n := by
      have hdigits : ∀ n : Nat, n < 256 →
          ((urlDig (urlHex (charVal (.ofNat n) / 16))).bind fun h =>
            (urlDig (urlHex (charVal (.ofNat n) % 16))).map fun l => h * 16 + l) =
          some (UInt8.ofNat n) := by decide +kernel
      intro n hn
      obtain ⟨h, hh, hl⟩ := Option.bind_eq_some_iff.mp (hdigits n hn)
      obtain ⟨l, hl, heq⟩ := Option.map_eq_some_iff.mp hl
      exact ⟨h, l, hh, hl, heq⟩
    obtain ⟨h, l, hh, hl, heq⟩ := hall c.toNat c.toNat_lt
    rw [UInt8.ofNat_toNat] at hh hl heq
    exact ⟨_, _, h, l, by rw [rimEncodeUrl, if_neg hplain], hh, hl, heq⟩

section Url

variable {v out rest : Bytes} {i j inlen : Nat} {c : UInt8}

/-- The loop takes a byte that is no `%`. A `+` is a space. -/
theorem rimDecodeUrlLoop_plain (fuel : Nat) (hc : c ≠ 37) (h : InPlace v out (c :: rest) i j) (hi : i < inlen) :
    ∃ v', rimDecodeUrlLoop inlen (fuel + 1) v i j = rimDecodeUrlLoop inlen fuel v' (i + 1) (j + 1) ∧
      InPlace v' (out ++ [if c = 43 then 32 else c]) rest (i + 1) (j + 1) := by
  have hget : v[i]? = some c := h.get_zero
  refine ⟨v.set j (if c = 43 then 32 else c), ?_, h.step _⟩
  simp only [rimDecodeUrlLoop, if_pos hi, hget, poke_eq h.lt, bind, Option.bind, if_neg hc]

theorem rimDecodeUrlLoop_digits (fuel : Nat) {x y d l : UInt8} (hx : urlDig x = some d)
    (hy : urlDig y = some l) (h : InPlace v out (37 :: x :: y :: rest) i j) (hi : i < inlen) :
    ∃ v', rimDecodeUrlLoop inlen (fuel + 1) v i j = rimDecodeUrlLoop inlen fuel v' (i + 3) (j + 1) ∧
      InPlace v' (out ++ [d * 16 + l]) rest (i + 3) (j + 1) := by
  have hget : v[i]? = some 37 := h.get_zero
  have hget₁ : v[i + 1]? = some x := h.get 1
  have hget₂ : v[i + 2]? = some y := h.get 2
  have hskip : InPlace (v.set j (d * 16 + l)) (out ++ [d * 16 + l]) ([x, y] ++ rest) (i + 1) (j + 1) :=
    h.step _
  refine ⟨v.set j (d * 16 + l), ?_, hskip.skip⟩
  simp only [rimDecodeUrlLoop, if_pos hi, hget, hget₁, hget₂, hx, hy, poke_eq h.lt, bind, Option.bind, if_true]

/-- The loop takes what was encoded. -/
theorem rimDecodeUrlLoop_encoded (s : Bytes) {tail : Bytes} {fuel : Nat}
    (h : InPlace v out (s.flatMap rimEncodeUrl ++ tail) i j)
    (hi : i + (s.flatMap rimEncodeUrl).length = inlen)
    (hfuel : (s.flatMap rimEncodeUrl).length < fuel) :
    ∃ v', rimDecodeUrlLoop inlen fuel v i j = some (v', j + s.length, inlen) ∧
      InPlace v' (out ++ s) tail inlen (j + s.length) := by
  induction s generalizing v out i j fuel with
  | nil =>
    obtain ⟨fuel, rfl⟩ := Nat.exists_eq_succ_of_ne_zero (Nat.ne_of_gt (Nat.zero_lt_of_lt hfuel))
    rw [List.flatMap_nil, List.length_nil, Nat.add_zero] at hi
    refine ⟨v, ?_, ?_⟩
    · have hend : ¬ i < inlen := by omega
      rw [rimDecodeUrlLoop, if_neg hend, hi]
      rfl
    · rw [← hi]
      simpa using h
  | cons c s ih =>
    rw [List.flatMap_cons, List.append_assoc] at h
    rw [List.flatMap_cons, List.length_append] at hi hfuel
    obtain ⟨fuel, rfl⟩ := Nat.exists_eq_succ_of_ne_zero (Nat.ne_of_gt (Nat.zero_lt_of_lt hfuel))
    -- after the byte, whichever form it had
    have hrest : ∀ v₁ i₁, i₁ + (s.flatMap rimEncodeUrl).length = inlen → 
        (s.flatMap rimEncodeUrl).length < fuel →
        rimDecodeUrlLoop inlen (fuel + 1) v i j = rimDecodeUrlLoop inlen fuel v₁ i₁ (j + 1) →
        InPlace v₁ (out ++ [c]) (s.flatMap rimEncodeUrl ++ tail) i₁ (j + 1) →
        ∃ v', rimDecodeUrlLoop inlen (fuel + 1) v i j = some (v', j + (c :: s).length, inlen) ∧
          InPlace v' (out ++ c :: s) tail inlen (j + (c :: s).length) := by
      intro v₁ i₁ hi₁ hleft hstep h₁
      obtain ⟨v', hloop, h'⟩ := ih h₁ hi₁ hleft
      rw [List.append_assoc, Nat.add_assoc, Nat.add_comm 1] at h'
      refine ⟨v', ?_, h'⟩
      rw [hstep, hloop, List.length_cons, Nat.add_assoc, Nat.add_comm 1]
    rcases rimEncodeUrl_cases c with ⟨henc, -, hpct, hplus⟩ | ⟨x, y, d, l, henc, hx, hy, rfl⟩
    · rw [henc] at h hi hfuel
      rw [List.length_singleton] at hi hfuel
      have hlt : i < inlen := by omega
      obtain ⟨v₁, hstep, h₁⟩ := rimDecodeUrlLoop_plain fuel hpct h hlt
      rw [if_neg hplus] at h₁
      exact hrest v₁ _ (by omega) (by omega) hstep h₁
    · rw [henc] at h hi hfuel
      simp only [List.length_cons, List.length_nil] at hi hfuel
      have hlt : i < inlen := by omega
      obtain ⟨v₁, hstep, h₁⟩ := rimDecodeUrlLoop_digits fuel hx hy h hlt
      exact hrest v₁ _ (by omega) (by omega) hstep h₁

end Url

/-! ## Both ways -/

/-- An element of a flattened list is in the form of one of the elements it comes from. -/
theorem exists_split_of_flatMap {f : UInt8 → Bytes} {s a b : Bytes} {p : UInt8}
    (h : s.flatMap f = a ++ p :: b) : ∃ c ∈ s, ∃ a' b' r, f c = a' ++ p :: b' ∧ b = b' ++ r := by
  induction s generalizing a with
  | nil =>
    rw [List.flatMap_nil] at h
    exact absurd h.symm (by simp)
  | cons c s ih =>
    rw [List.flatMap_cons] at h
    rcases List.append_eq_append_iff.mp h with ⟨a', rfl, hs⟩ | ⟨c', hc, hs⟩
    · obtain ⟨d, hd, hsplit⟩ := ih hs
      exact ⟨d, List.mem_cons_of_mem _ hd, hsplit⟩
    · cases c' with
      | nil =>
        obtain ⟨d, hd, hsplit⟩ := ih (a := []) hs.symm
        exact ⟨d, List.mem_cons_of_mem _ hd, hsplit⟩
      | cons q c' =>
        obtain ⟨rfl, rfl⟩ := List.cons.inj hs
        exact ⟨c, List.mem_cons_self .., a, c', s.flatMap f, hc, rfl⟩

/-- No byte that has to be escaped is left, but for those that begin an escape. -/
def RimEnc.Escaped : RimEnc → Bytes → Prop
  | web, e => (∀ c ∈ e, c ≠ 34 ∧ c ≠ 39 ∧ c ≠ 60 ∧ c ≠ 62) ∧
      ∀ a b, e = a ++ 38 :: b → ∃ x ∈ webEntities, x.1 <+: b
  | url, e => (∀ c ∈ e, urlPlain c = true ∨ c = 37) ∧
      ∀ a b, e = a ++ 37 :: b → ∃ x y r, b = x :: y :: r ∧ urlDig x ≠ none ∧ urlDig y ≠ none

def RimEnc.kept : RimEnc → Bytes → Bytes
  | web, s => s.filter (· ≠ 0)
  | url, s => s

theorem urlPlain_of_urlDig {x d : UInt8} (h : urlDig x = some d) : urlPlain x = true := by
  have hd : (65 ≤ x ∧ x ≤ 70) ∨ (97 ≤ x ∧ x ≤ 102) ∨ (48 ≤ x ∧ x ≤ 57) := by
    unfold urlDig at h
    split_ifs at h with h₁ h₂ h₃
    · exact Or.inl h₁
    · exact Or.inr (Or.inl h₂)
    · exact Or.inr (Or.inr h₃)
  simp only [UInt8.le_iff_toNat_le] at hd
  simp only [urlPlain, isalnum, isdigit, Bool.or_eq_true, Bool.and_eq_true, decide_eq_true_eq, UInt8.le_iff_toNat_le]
  simp only [UInt8.reduceToNat] at hd ⊢
  omega

theorem web_escaped (s : Bytes) : RimEnc.web.Escaped (s.flatMap rimEncodeWeb) := by
  constructor
  · intro c hc
    obtain ⟨d, -, hd⟩ := List.mem_flatMap.mp hc
    rcases rimEncodeWeb_cases d with ⟨e, he, henc, -⟩ | ⟨henc, -⟩ | ⟨henc, -, -, hq, ha, hl, hg⟩
    · have hall : ∀ e ∈ webEntities, ∀ c ∈ 38 :: e.1, c ≠ 34 ∧ c ≠ 39 ∧ c ≠ 60 ∧ c ≠ 62 := by
        simp [webEntities, ascii]
      exact hall e he c (henc ▸ hd)
    · rw [henc] at hd
      cases hd
    · rw [henc] at hd
      rw [List.mem_singleton.mp hd]
      exact ⟨hq, ha, hl, hg⟩
  · intro a b hab
    obtain ⟨d, -, a', b', r, hd, rfl⟩ := exists_split_of_flatMap hab
    rcases rimEncodeWeb_cases d with ⟨e, he, henc, -⟩ | ⟨henc, -⟩ | ⟨henc, -, hamp, -⟩
    · have hno : 38 ∉ e.1 := by
        have hall : ∀ e ∈ webEntities, (38 : UInt8) ∉ e.1 := by decide
        exact hall e he
      rw [henc] at hd
      cases a' with
      | nil =>
        obtain ⟨-, rfl⟩ := List.cons.inj hd
        exact ⟨e, he, List.prefix_append _ _⟩
      | cons q a' =>
        obtain ⟨-, hd⟩ := List.cons.inj hd
        exact absurd (hd ▸ by simp) hno
    · rw [henc] at hd
      exact absurd hd.symm (by simp)
    · rw [henc] at hd
      have hmem : 38 ∈ [d] := by
        rw [hd]
        simp
      exact absurd (List.mem_singleton.mp hmem).symm hamp

theorem url_escaped (s : Bytes) : RimEnc.url.Escaped (s.flatMap rimEncodeUrl) := by
  constructor
  · intro c hc
    obtain ⟨d, -, hmem⟩ := List.mem_flatMap.mp hc
    rcases rimEncodeUrl_cases d with ⟨henc, hp, -⟩ | ⟨x, y, h, l, henc, hx, hy, -⟩
    · rw [henc] at hmem
      rw [List.mem_singleton.mp hmem]
      exact Or.inl hp
    · rw [henc] at hmem
      simp only [List.mem_cons, List.not_mem_nil, or_false] at hmem
      rcases hmem with rfl | rfl | rfl
      · exact Or.inr rfl
      · exact Or.inl (urlPlain_of_urlDig hx)
      · exact Or.inl (urlPlain_of_urlDig hy)
  · intro a b hab
    obtain ⟨d, -, a', b', r, hsplit, rfl⟩ := exists_split_of_flatMap hab
    rcases rimEncodeUrl_cases d with ⟨henc, -, hpct, -⟩ | ⟨x, y, h, l, henc, hx, hy, -⟩
    · rw [henc] at hsplit
      have hmem : 37 ∈ [d] := by
        rw [hsplit]
        simp
      exact absurd (List.mem_singleton.mp hmem).symm hpct
    · rw [henc] at hsplit
      have hno : ∀ z d : UInt8, urlDig z = some d → z ≠ 37 := by
        rintro z d hz rfl
        have hnone : urlDig 37 = none := by decide
        rw [hnone] at hz
        cases hz
      cases a' with
      | nil =>
        obtain ⟨-, hb⟩ := List.cons.inj hsplit
        rw [← hb]
        exact ⟨x, y, r, rfl, by simp [hx], by simp [hy]⟩
      | cons q a' =>
        obtain ⟨-, hb⟩ := List.cons.inj hsplit
        have hmem : 37 ∈ [x, y] := by
          rw [hb]
          simp
        simp only [List.mem_cons, List.not_mem_nil, or_false] at hmem
        rcases hmem with heq | heq
        · exact absurd heq.symm (hno x h hx)
        · exact absurd heq.symm (hno y l hy)

/-- Decoding gives back what was encoded: with web encoding all of a string but its
null bytes. -/
theorem rimDecode_rimEncodeBase (enc : RimEnc) {s block : Bytes}
    (hblock : block.length = RIM_MAX_ENC_BLOWUP s.length) :
    ∃ e, rimEncodeBase enc s block = some (e ++ [0], e.length) ∧
      e.length < RIM_MAX_ENC_BLOWUP s.length ∧ enc.Escaped e ∧
      ∃ d, rimDecode enc (e ++ [0]) e.length = some d ∧ d.memory = enc.kept s ++ [0] ∧
        d.len = (enc.kept s).length ∧ (enc = .url → d.status = some RIM_OKAY) := by
  have hlen := flatMap_char_length_le enc s
  refine ⟨s.flatMap enc.char, rimEncodeBase_eq enc s hblock, ?_, ?_⟩
  · rw [RIM_MAX_ENC_BLOWUP]
    omega
  cases enc with
  | web =>
    refine ⟨web_escaped s, ?_⟩
    have hstart := InPlace.start (s.flatMap rimEncodeWeb ++ [0])
    obtain ⟨v, hloop, hv⟩ := rimDecodeWebLoop_encoded s hstart (Nat.zero_add _) (Nat.lt_succ_self _)
    obtain ⟨v', hpoke, hout⟩ := exists_poke_null hv
    rw [Nat.zero_add] at hloop hpoke hout
    refine ⟨{ block := v', len := (s.filter (· ≠ 0)).length, status := none }, ?_, hout, rfl, ?_⟩
    · simp only [rimDecode, RimEnc.char, hloop, hpoke, bind, Option.bind]
    · rintro ⟨⟩
  | url =>
    refine ⟨url_escaped s, ?_⟩
    have hstart := InPlace.start (s.flatMap rimEncodeUrl ++ [0])
    obtain ⟨v, hloop, hv⟩ :=
      rimDecodeUrlLoop_encoded s hstart (Nat.zero_add _) (Nat.lt_succ_self _)
    obtain ⟨v', hpoke, hout⟩ := exists_poke_null hv
    rw [Nat.zero_add] at hloop hpoke hout
    refine ⟨{ block := v', len := s.length, status := some RIM_OKAY }, ?_, hout, rfl, fun _ => rfl⟩
    simp only [rimDecode, RimEnc.char, hloop, hpoke, bind, Option.bind, ne_eq, not_true_eq_false,
      if_false]

/-- Every kind of byte, in both encodings. -/
theorem rimDecode_rimEncodeBase_kinds :
    (∃ e d, rimEncodeBase .web (ascii "a&b<'c" ++ [200]) (List.replicate 43 7) = some (e ++ [0], e.length) ∧
      rimDecode .web (e ++ [0]) e.length = some d ∧ d.memory = ascii "a&b<'c" ++ [200, 0]) ∧
    ∃ e d, rimEncodeBase .url (ascii "a b+%" ++ [0, 200]) (List.replicate 43 7) = some (e ++ [0], e.length) ∧
      rimDecode .url (e ++ [0]) e.length = some d ∧ d.memory = ascii "a b+%" ++ [0, 200, 0] := by
  constructor
  · have hblock : (List.replicate 43 (7 : UInt8)).length =
        RIM_MAX_ENC_BLOWUP (ascii "a&b<'c" ++ [200]).length := by decide
    obtain ⟨e, henc, -, -, d, hdec, hmem, -⟩ := rimDecode_rimEncodeBase .web hblock
    exact ⟨e, d, henc, hdec, hmem⟩
  · have hblock : (List.replicate 43 (7 : UInt8)).length =
        RIM_MAX_ENC_BLOWUP (ascii "a b+%" ++ [0, 200]).length := by decide
    obtain ⟨e, henc, -, -, d, hdec, hmem, -⟩ := rimDecode_rimEncodeBase .url hblock
    exact ⟨e, d, henc, hdec, hmem⟩

theorem rimDecode_rimEncodeBase_fails :
    ¬ ∀ enc s block e d, block.length = RIM_MAX_ENC_BLOWUP s.length →
      rimEncodeBase enc s block = some (e ++ [0], e.length) →
      rimDecode enc (e ++ [0]) e.length = some d → d.memory = s ++ [0] := by
  intro h
  have hbad := h .web [0] (List.replicate 7 7) [] ⟨[0], 0, none⟩ (by decide) (by decide) (by decide)
  revert hbad
  decide

end RimStone
