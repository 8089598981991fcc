import RimStone.Lib.Yields
import RimStone.Text.Utf

/-!
# What the conversion to text reads and writes

A sequence of `n` bytes is written as at most `3*n` bytes, which is what the block of the result
counts on. `rim_encode_utf` takes as many bytes as the first one asks for, wherever the string is to
end: a null after the string stops it, as a null is in no sequence, but the end of a part of the
string does not.
-/

namespace RimStone

open RimStone.Lib

def IsLead (c : UInt8) : Prop := c &&& 192 = 192

def IsTail (c : UInt8) : Prop := c &&& 128 = 128

instance : DecidablePred IsLead := fun c => inferInstanceAs (Decidable (c &&& 192 = 192))
instance : DecidablePred IsTail := fun c => inferInstanceAs (Decidable (c &&& 128 = 128))

/-- How many bytes a sequence has that begins with `c`. -/
def utfBytes (c : UInt8) : Nat := if c &&& 240 = 240 then 4 else if c &&& 224 = 224 then 3 else 2

/-- Read sequence by sequence, a text ends within one. -/
inductive EndsInSequence : Bytes → Prop
  | here {c : UInt8} {t : Bytes} : IsLead c → t.length + 1 < utfBytes c → (∀ x ∈ t, IsTail x) → EndsInSequence (c :: t)
  | byte {c : UInt8} {s : Bytes} : ¬ IsLead c → EndsInSequence s → EndsInSequence (c :: s)
  | sequence {c : UInt8} {t s : Bytes} : IsLead c → t.length + 1 = utfBytes c → (∀ x ∈ t, IsTail x) →
      EndsInSequence s → EndsInSequence (c :: (t ++ s))

/-- The bytes that a conversion of the first `len` bytes may read: these, and the null where they
are all. -/
def utfReadable (v : Bytes) (len : Nat) : Bytes := if len = v.length then v ++ [0] else v.take len

/-- It reads no other bytes, and writes no more than `3*len + 1`. -/
def ConvertsWithin (v : Bytes) (len : Nat) (json : Bool) : Prop :=
  rimUtfToText (utfReadable v len) len json ≠ .error .undefined

/-! ## One sequence -/

theorem length_rimUnicodeText (json : Bool) (u : Nat) :
    (rimUnicodeText json u).length ≤ 12 ∧ (u < 0x10000 → (rimUnicodeText json u).length ≤ 6) := by
  unfold rimUnicodeText
  by_cases hu : 0x10000 ≤ u
  · rw [if_pos hu]
    refine ⟨?_, fun h => absurd hu (by omega)⟩
    cases json <;> simp [rimHexFromInt32, rimHexFromInt16, rimHexFromByte]
  · rw [if_neg hu]
    exact ⟨by simp [rimHexFromInt16, rimHexFromByte], fun _ => by simp [rimHexFromInt16, rimHexFromByte]⟩

theorem length_rimByteText (c : UInt8) : (rimByteText c).length ≤ 2 := by
  unfold rimByteText
  split_ifs <;> simp

variable {r t B : Bytes} {k len i : Nat} {x c : UInt8}

theorem utfTail_none (h : r[k]? = none) (e : RimUtfErr) : utfTail r k e = .error .undefined := by
  unfold utfTail
  rw [h]
  rfl

theorem utfTail_bad (h : r[k]? = some x) (hx : ¬ IsTail x) (e : RimUtfErr) : utfTail r k e = .error (.err e) := by
  unfold utfTail
  rw [h]
  exact if_neg hx

theorem utfTail_good (h : r[k]? = some x) (hx : IsTail x) (e : RimUtfErr) : ∃ b < 64, utfTail r k e = .ok b := by
  refine ⟨(x &&& 63).toNat, ?_, ?_⟩
  · rw [UInt8.toNat_and]
    exact Nat.lt_succ_of_le Nat.and_le_right
  · unfold utfTail
    rw [h]
    exact if_pos hx

/-- A sequence is read, or it has a byte that is none of it, or it is not all there. -/
inductive Encodes (c : UInt8) (t : Bytes) : Except TextFault (Nat × Nat) → Prop
  | short : t.length + 1 < utfBytes c → (∀ x ∈ t, IsTail x) → Encodes c t (.error .undefined)
  | bad (e : RimUtfErr) {x : UInt8} : x ∈ t.take (utfBytes c - 1) → ¬ IsTail x → Encodes c t (.error (.err e))
  | whole {a s : Bytes} {u : Nat} : t = a ++ s → a.length + 1 = utfBytes c → (∀ x ∈ a, IsTail x) →
      (utfBytes c ≠ 4 → u < 0x10000) → Encodes c t (.ok (u, utfBytes c))

/-- Tails that are there, and the first one that is none. -/
theorem Encodes.bad_of_get (hget : t[k]? = some x) (hk : k + 1 < utfBytes c) (hx : ¬ IsTail x) (e : RimUtfErr) :
    Encodes c t (.error (.err e)) := by
  refine .bad e (List.mem_of_getElem? (i := k) ?_) hx
  rw [List.getElem?_take, if_pos (by omega)]
  exact hget

theorem rimEncodeUtf_encodes (hc : IsLead c) (t : Bytes) : Encodes c t (rimEncodeUtf (c :: t)) := by
  have h128 : ¬ c &&& 128 = 0 := by
    have hall : ∀ n < 256, UInt8.ofNat n &&& 192 = 192 → ¬ UInt8.ofNat n &&& 128 = 0 := by decide +kernel
    have hbit := hall c.toNat c.toNat_lt
    rw [UInt8.ofNat_toNat] at hbit
    exact hbit hc
  have hget : (c :: t)[0]? = some c := rfl
  unfold rimEncodeUtf
  simp only [hget, inBlock, bind, Except.bind, if_neg h128]
  by_cases h240 : c &&& 240 = 240
  · have hbytes : utfBytes c = 4 := if_pos h240
    rw [if_pos h240]
    match t with
    | [] =>
      rw [utfTail_none rfl]
      exact .short (by rw [hbytes]; decide) (by simp)
    | x :: t =>
      by_cases hx : IsTail x
      · obtain ⟨b, -, hok⟩ := utfTail_good (r := c :: x :: t) (k := 1) rfl hx .RIM_UTF_ERR_SECOND_BYTE
        rw [hok]
        match t with
        | [] =>
          simp only [utfTail_none (r := [c, x]) (k := 2) rfl]
          exact .short (by rw [hbytes]; simp) (by simpa using hx)
        | y :: t =>
          by_cases hy : IsTail y
          · obtain ⟨d, -, hok⟩ := utfTail_good (r := c :: x :: y :: t) (k := 2) rfl hy .RIM_UTF_ERR_THIRD_BYTE
            simp only [hok]
            match t with
            | [] =>
              simp only [utfTail_none (r := [c, x, y]) (k := 3) rfl]
              exact .short (by rw [hbytes]; simp) (by simpa using ⟨hx, hy⟩)
            | z :: t =>
              by_cases hz : IsTail z
              · obtain ⟨e, -, hok⟩ := utfTail_good (r := c :: x :: y :: z :: t) (k := 3) rfl hz
                  .RIM_UTF_ERR_FOURTH_BYTE
                simp only [hok]
                rw [← hbytes]
                exact .whole (a := [x, y, z]) rfl hbytes.symm (by simpa using ⟨hx, hy, hz⟩) fun h => absurd hbytes h
              · simp only [utfTail_bad (r := c :: x :: y :: z :: t) (k := 3) rfl hz]
                exact .bad_of_get (k := 2) rfl (by rw [hbytes]; decide) hz _
          · simp only [utfTail_bad (r := c :: x :: y :: t) (k := 2) rfl hy]
            exact .bad_of_get (k := 1) rfl (by rw [hbytes]; decide) hy _
      · rw [utfTail_bad (r := c :: x :: t) (k := 1) rfl hx]
        exact .bad_of_get (k := 0) rfl (by rw [hbytes]; decide) hx _
  rw [if_neg h240]
  by_cases h224 : c &&& 224 = 224
  · have hbytes : utfBytes c = 3 := by rw [utfBytes, if_neg h240, if_pos h224]
    rw [if_pos h224]
    match t with
    | [] =>
      rw [utfTail_none rfl]
      exact .short (by rw [hbytes]; decide) (by simp)
    | x :: t =>
      by_cases hx : IsTail x
      · obtain ⟨b, hb, hok⟩ := utfTail_good (r := c :: x :: t) (k := 1) rfl hx .RIM_UTF_ERR_SECOND_BYTE
        rw [hok]
        match t with
        | [] =>
          simp only [utfTail_none (r := [c, x]) (k := 2) rfl]
          exact .short (by rw [hbytes]; simp) (by simpa using hx)
        | y :: t =>
          by_cases hy : IsTail y
          · obtain ⟨d, hd, hok⟩ := utfTail_good (r := c :: x :: y :: t) (k := 2) rfl hy .RIM_UTF_ERR_THIRD_BYTE
            simp only [hok]
            rw [← hbytes]
            refine .whole (a := [x, y]) rfl hbytes.symm (by simpa using ⟨hx, hy⟩) fun _ => ?_
            have hlead : (c &&& 15).toNat ≤ 15 := by
              rw [UInt8.toNat_and]
              exact Nat.and_le_right
            simp only [Nat.shiftLeft_eq]
            omega
          · simp only [utfTail_bad (r := c :: x :: y :: t) (k := 2) rfl hy]
            exact .bad_of_get (k := 1) rfl (by rw [hbytes]; decide) hy _
      · rw [utfTail_bad (r := c :: x :: t) (k := 1) rfl hx]
        exact .bad_of_get (k := 0) rfl (by rw [hbytes]; decide) hx _
  have hbytes : utfBytes c = 2 := by rw [utfBytes, if_neg h240, if_neg h224]
  have hlead : c &&& 192 = 192 := hc
  rw [if_neg h224, if_pos hlead]
  match t with
  | [] =>
    rw [utfTail_none rfl]
    exact .short (by rw [hbytes]; decide) (by simp)
  | x :: t =>
    by_cases hx : IsTail x
    · obtain ⟨b, hb, hok⟩ := utfTail_good (r := c :: x :: t) (k := 1) rfl hx .RIM_UTF_ERR_SECOND_BYTE
      simp only [hok]
      rw [← hbytes]
      refine .whole (a := [x]) rfl hbytes.symm (by simpa using hx) fun _ => ?_
      have hlead : (c &&& 31).toNat ≤ 31 := by
        rw [UInt8.toNat_and]
        exact Nat.and_le_right
      simp only [Nat.shiftLeft_eq]
      omega
    · rw [utfTail_bad (r := c :: x :: t) (k := 1) rfl hx]
      exact .bad_of_get (k := 0) rfl (by rw [hbytes]; decide) hx _

/-- A sequence is written as at most three times its bytes. -/
theorem length_text_le (json : Bool) {u : Nat} (hu : utfBytes c ≠ 4 → u < 0x10000) :
    (rimUnicodeText json u).length ≤ 3 * utfBytes c := by
  obtain ⟨hall, hsmall⟩ := length_rimUnicodeText json u
  by_cases hfour : utfBytes c = 4
  · omega
  · have hsix := hsmall (hu hfour)
    have htwo : 2 ≤ utfBytes c := by
      unfold utfBytes
      split_ifs <;> omega
    omega

/-! ## The loop -/

/-- What is left of a text, with what may be read behind it. -/
theorem rimUtfLoop_within {e : Bytes} {fuel : Nat} {json : Bool} {res : Bytes} (hB : B.drop i = t ++ e)
    (hend : e = [0] ∨ e = [] ∧ ¬ EndsInSequence t) (hlen : i + t.length = len) (hres : res.length ≤ 3 * i)
      (hfuel : t.length < fuel) :
    Yields (· ≠ .undefined) (fun r => r.length ≤ 3 * len) (rimUtfLoop B len json fuel i res) := by
  induction fuel generalizing t i res with
  | zero => exact absurd hfuel (Nat.not_lt_zero _)
  | succ fuel ih =>
    unfold rimUtfLoop
    match t, hlen, hfuel with
    | [], hlen, _ =>
      rw [List.length_nil, Nat.add_zero] at hlen
      rw [if_neg (by omega)]
      exact Yields.ok (by omega)
    | c :: t, hlen, hfuel =>
      rw [List.length_cons] at hlen hfuel
      have hget : B[i]? = some c := by
        have h := congrArg (·[0]?) hB
        simpa [List.getElem?_drop] using h
      rw [if_pos (by omega), hget]
      simp only [inBlock, bind, Except.bind]
      by_cases hc : IsLead c
      · have hlead : c &&& 192 = 192 := hc
        rw [if_pos hlead, hB, List.cons_append]
        have hencodes := rimEncodeUtf_encodes hc (t ++ e)
        generalize rimEncodeUtf (c :: (t ++ e)) = x at hencodes
        cases hencodes with
        | short hshort htails =>
          -- what may be read ends in a sequence
          exfalso
          obtain rfl | ⟨rfl, hnot⟩ := hend
          · have hnull : IsTail 0 := htails 0 (List.mem_append_right _ (List.mem_singleton_self 0))
            exact absurd hnull (by decide)
          · rw [List.append_nil] at hshort htails
            exact hnot (.here hc hshort htails)
        | bad err => exact Yields.error (by simp)
        | @whole a s u hsplit ha htails hu =>
          -- the sequence is within the text
          obtain ⟨s', rfl, rfl⟩ : ∃ s', t = a ++ s' ∧ s = s' ++ e := by
            obtain ⟨a', rfl, he⟩ | ⟨s', ht, hs⟩ := List.append_eq_append_iff.mp hsplit
            · have hnil : a' = [] := by
                obtain rfl | ⟨rfl, -⟩ := hend
                · match a', he with
                  | [], _ => rfl
                  | x :: a', he =>
                    have hx : x = 0 := (List.cons.inj he).1.symm
                    have htail := htails x (List.mem_append_right _ List.mem_cons_self)
                    rw [hx] at htail
                    exact absurd htail (by decide)
                · exact (List.append_eq_nil_iff.mp he.symm).1
              subst hnil
              refine ⟨[], ?_, he.symm⟩
              rw [List.append_nil, List.append_nil]
            · exact ⟨s', ht, hs⟩
          rw [List.length_append] at hlen hfuel
          refine ih (t := s') ?_ ?_ (by omega) ?_ (by omega)
          · rw [← List.drop_drop, hB, ← ha, Nat.add_comm, List.cons_append, List.append_assoc, Nat.add_comm 1,
              List.drop_succ_cons, List.drop_left]
          · obtain rfl | ⟨rfl, hnot⟩ := hend
            · exact Or.inl rfl
            · exact Or.inr ⟨rfl, fun h => hnot (.sequence hc ha htails h)⟩
          · have htext := length_text_le json hu
            show (res ++ rimUnicodeText json u).length ≤ 3 * (i + utfBytes c)
            rw [List.length_append]
            omega
      · have hlead : ¬ c &&& 192 = 192 := hc
        have htext := length_rimByteText c
        rw [if_neg hlead]
        refine ih (t := t) ?_ ?_ (by omega) ?_ (by omega)
        · rw [← List.drop_drop, hB]
          rfl
        · obtain rfl | ⟨rfl, hnot⟩ := hend
          · exact Or.inl rfl
          · exact Or.inr ⟨rfl, fun h => hnot (.byte hc h)⟩
        · rw [List.length_append]
          omega

/-- The loop looks at the byte that is next. -/
theorem rimUtfLoop_cons (hB : B.drop i = c :: t) (hi : i < len) (json : Bool) (fuel : Nat) (res : Bytes) :
    rimUtfLoop B len json (fuel + 1) i res =
      if c &&& 192 = 192 then do
        let p ← rimEncodeUtf (c :: t)
        rimUtfLoop B len json fuel (i + p.2) (res ++ rimUnicodeText json p.1)
      else rimUtfLoop B len json fuel (i + 1) (res ++ rimByteText c) := by
  have hget : B[i]? = some c := by
    have h := congrArg (·[0]?) hB
    simpa [List.getElem?_drop] using h
  rw [rimUtfLoop, if_pos hi, hget, hB]
  rfl

/-- Where a part of a string ends within a sequence, more is read. -/
theorem rimUtfLoop_outside (ht : EndsInSequence t) {fuel : Nat} {json : Bool} {res : Bytes} (hB : B.drop i = t)
    (hlen : i + t.length = len) : rimUtfLoop B len json fuel i res = .error .undefined := by
  induction ht generalizing i fuel res with
  | @here c t hc hshort htails =>
    match fuel with
    | 0 => rfl
    | fuel + 1 =>
      have hlead : c &&& 192 = 192 := hc
      rw [List.length_cons] at hlen
      rw [rimUtfLoop_cons hB (by omega), if_pos hlead]
      have hencodes := rimEncodeUtf_encodes hc t
      generalize rimEncodeUtf (c :: t) = x at hencodes
      cases hencodes with
      | short => rfl
      | bad e hx hbad => exact absurd (htails _ (List.mem_of_mem_take hx)) hbad
      | whole hsplit ha =>
        have hcount := congrArg List.length hsplit
        rw [List.length_append] at hcount
        omega
  | @byte c s hc hs ih =>
    match fuel with
    | 0 => rfl
    | fuel + 1 =>
      have hlead : ¬ c &&& 192 = 192 := hc
      rw [List.length_cons] at hlen
      rw [rimUtfLoop_cons hB (by omega), if_neg hlead]
      refine ih ?_ (by omega)
      rw [← List.drop_drop, hB]
      rfl
  | @sequence c t s hc hcount htails hs ih =>
    match fuel with
    | 0 => rfl
    | fuel + 1 =>
      have hlead : c &&& 192 = 192 := hc
      rw [List.length_cons, List.length_append] at hlen
      rw [rimUtfLoop_cons hB (by omega), if_pos hlead]
      have hencodes := rimEncodeUtf_encodes hc (t ++ s)
      generalize rimEncodeUtf (c :: (t ++ s)) = x at hencodes
      cases hencodes with
      | short hshort =>
        rw [List.length_append] at hshort
        omega
      | bad e hx hbad =>
        rw [List.take_left' (by omega)] at hx
        exact absurd (htails _ hx) hbad
      | @whole a s' u hsplit ha =>
        obtain ⟨rfl, rfl⟩ := List.append_inj hsplit (by omega)
        refine ih ?_ (by omega)
        rw [← List.drop_drop, hB, ← ha, List.drop_succ_cons, List.drop_left]

/-! ## The conversion -/

/-- The conversion keeps to its bytes exactly where the part to be converted is the whole string, or
does not end within a sequence. -/
theorem convertsWithin_iff {v : Bytes} {len : Nat} (hlen : len ≤ v.length) (json : Bool) :
    ConvertsWithin v len json ↔ (len = v.length ∨ ¬ EndsInSequence (v.take len)) := by
  have hcount : (v.take len).length = len := by
    rw [List.length_take]
    omega
  have hgo : ∀ {B t e : Bytes}, B = t ++ e → t.length = len → (e = [0] ∨ e = [] ∧ ¬ EndsInSequence t) →
      rimUtfToText B len json ≠ .error .undefined := by
    intro B t e hB ht hend
    have hloop : Yields (· ≠ .undefined) (fun r => r.length ≤ 3 * len) (rimUtfLoop B len json (len + 1) 0 []) :=
      rimUtfLoop_within hB hend (by omega) (Nat.zero_le _) (by omega)
    have hyields : Yields (· ≠ .undefined) (fun _ => True) (rimUtfToText B len json) := by
      refine hloop.bind fun r hr => ?_
      rw [if_pos hr]
      exact Yields.ok trivial
    intro hfault
    exact hyields.of_error hfault rfl
  constructor
  · intro h
    by_contra hnot
    obtain ⟨hpart, hends⟩ := not_or.mp hnot
    have hends := not_not.mp hends
    refine h ?_
    unfold utfReadable rimUtfToText
    rw [if_neg hpart, rimUtfLoop_outside hends List.drop_zero (by rw [hcount, Nat.zero_add])]
    rfl
  · rintro (hall | hnot)
    · unfold ConvertsWithin utfReadable
      rw [if_pos hall]
      exact hgo rfl hall.symm (Or.inl rfl)
    · unfold ConvertsWithin utfReadable
      split
      · next hall => exact hgo rfl hall.symm (Or.inl rfl)
      · exact hgo (List.append_nil _).symm hcount (Or.inr ⟨rfl, hnot⟩)

/-- A whole string that ends within a sequence. -/
theorem convertsWithin_whole : ConvertsWithin (ascii "a" ++ [240, 144]) 3 true ∧
    rimUtfToText (ascii "a" ++ [240, 144, 0]) 3 true = .error (.err .RIM_UTF_ERR_THIRD_BYTE) :=
  ⟨(convertsWithin_iff (by decide) true).mpr (Or.inl rfl), rfl⟩

/-- The first byte of a sequence of two, which is converted with the byte behind it to six bytes. -/
theorem not_convertsWithin : ¬ (∀ (v : Bytes) (len : Nat) (json : Bool), len ≤ v.length → ConvertsWithin v len json) ∧
    rimUtfLoop [195, 169, 0] 1 false 2 0 [] = .ok ([92, 117, 48, 48, 101, 57]) := by
  constructor
  · intro h
    have hwithin := h [195, 169] 1 false (by decide)
    refine hwithin ?_
    rfl
  · rfl

end RimStone
