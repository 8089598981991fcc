import RimStone.Text.Base64
import RimStone.Laws.Text.Hex
import RimStone.Lib.Yields

/-!
# Base64, there and back

What is encoded is decoded to what it was, but for the empty string: the `=`s at the end are counted backwards, and
nothing stops the count at the beginning. A text that is all `=`s, or has none of any bytes, is read in front of its
beginning; and where OpenSSL refuses a text, or there are more `=`s than bytes, the null is written in front of the
bytes. OpenSSL is taken at its documentation, `Documented`, and an `int` has to hold the lengths it is given and
answers.
-/

namespace RimStone

open RimStone.Lib

structure Evp.Documented (evp : Evp) : Prop where
  encode : ∀ x, evp.encodeBlock x = Base64.encode x
  /-- three bytes for each four digits, zero bits where there are none -/
  decode : ∀ x, evp.decodeBlock (Base64.encode x) = some (x ++ List.replicate (Base64.padding x.length) 0)
  /-- of any text that is not refused, with what is left of it when it is trimmed -/
  size : ∀ v out, evp.decodeBlock v = some out → ∃ t, t <:+: v ∧ 4 * out.length = 3 * t.length

def B64Returns (evp : Evp) (x : Bytes) : Prop :=
  ∀ block : Bytes, (block.length : Int) = b64EncodeSize x.length →
    ∃ text, rimB64Encode evp (x ++ [0]) x.length (-1) block = .ok text ∧
      ∀ block' : Bytes, (block'.length : Int) = b64DecodeSize text.length →
        rimB64Decode evp (text ++ [0]) text.length (-1) block' = .ok x

/-- The first `ilen` bytes of a string are decoded, in its memory and in that of the result. -/
def B64Within (evp : Evp) (s : Bytes) (ilen : Nat) : Prop :=
  ∀ block : Bytes, (block.length : Int) = b64DecodeSize ilen →
    ∃ bytes, rimB64Decode evp (s ++ [0]) s.length ilen block = .ok bytes

/-- A text that can be decoded: there is a byte in it that is no `=`, OpenSSL takes it, and it gives more bytes than
there are `=`s at the end. -/
structure B64Text (evp : Evp) (v : Bytes) : Prop where
  digit : ∃ c ∈ v, c ≠ Base64.pad
  taken : ∃ f out, evpInput v v.length = some f ∧ evp.decodeBlock f = some out ∧ Base64.pads v ≤ out.length

section Base64

variable {evp : Evp} {s v block : Bytes} {ilen : Nat}

/-! ## The `=`s at the end -/

theorem b64FinalLoop_pad {src : Bytes} {n f : Int} (h : peekAt src (n - 1 - f) = some Base64.pad) (fuel : Nat) :
    b64FinalLoop src n (fuel + 1) f = b64FinalLoop src n fuel (f + 1) := by
  rw [b64FinalLoop, h, Option.bind_eq_bind, Option.bind_some]
  exact if_pos rfl

theorem b64FinalLoop_counts (w x : Bytes) {c : UInt8} (hc : c ≠ Base64.pad) {k f fuel : Nat} (hf : f ≤ k) (hfuel : k < f + fuel) :
    b64FinalLoop (w ++ c :: List.replicate k Base64.pad ++ x) (w.length + 1 + k : Nat) fuel f = some (k : Int) := by
  induction fuel generalizing f with
  | zero => omega
  | succ fuel ih =>
    have hidx : ((w.length + 1 + k : Nat) : Int) - 1 - f = (w.length + (k - f) : Nat) := by omega
    have hpeek : peekAt (w ++ c :: List.replicate k Base64.pad ++ x) ((w.length + 1 + k : Nat) - 1 - f) =
        (c :: List.replicate k Base64.pad)[k - f]? := by
      unfold peekAt
      rw [hidx, if_pos (Int.natCast_nonneg _), Int.toNat_natCast, List.append_assoc, List.getElem?_append_right (by omega),
        List.getElem?_append_left (by rw [List.length_cons, List.length_replicate]; omega), Nat.add_sub_cancel_left]
    obtain rfl | hlt := Nat.eq_or_lt_of_le hf
    · rw [b64FinalLoop, hpeek, Nat.sub_self]
      exact if_neg hc
    · have hpad : (c :: List.replicate k Base64.pad)[k - f]? = some Base64.pad := by
        rw [show k - f = k - f - 1 + 1 by omega, List.getElem?_cons_succ, List.getElem?_replicate, if_pos (by omega)]
      rw [b64FinalLoop_pad (hpeek.trans hpad)]
      exact ih hlt (show k < f + 1 + fuel by omega)

/-- Nothing stops the count of a text that is all `=`s. -/
theorem b64FinalLoop_outside (x : Bytes) {n f fuel : Nat} (hf : f ≤ n) :
    b64FinalLoop (List.replicate n Base64.pad ++ x) n fuel f = none := by
  induction fuel generalizing f with
  | zero => rfl
  | succ fuel ih =>
    obtain rfl | hlt := Nat.eq_or_lt_of_le hf
    · have hpeek : peekAt (List.replicate f Base64.pad ++ x) ((f : Int) - 1 - f) = none := if_neg (by omega)
      rw [b64FinalLoop, hpeek]
      rfl
    · have hpeek : peekAt (List.replicate n Base64.pad ++ x) ((n : Int) - 1 - f) = some Base64.pad := by
        unfold peekAt
        rw [if_pos (by omega), List.getElem?_append_left (by rw [List.length_replicate]; omega),
          List.getElem?_replicate, if_pos (by omega)]
      rw [b64FinalLoop_pad hpeek]
      exact ih hlt

theorem b64FinalLoop_eq (h : ilen ≤ s.length) :
    b64FinalLoop (s ++ [0]) ilen (ilen + 1) 0 =
      if ∃ c ∈ s.take ilen, c ≠ Base64.pad then some (Base64.pads (s.take ilen) : Int) else none := by
  have hlen : (s.take ilen).length = ilen := List.length_take_of_le h
  have hsplit : s ++ [0] = s.take ilen ++ (s.drop ilen ++ [0]) := by
    rw [← List.append_assoc, List.take_append_drop]
  obtain hall | ⟨w, c, hc, hv⟩ := Base64.pads_cases (s.take ilen)
  · rw [if_neg, hsplit, hall, hlen]
    · exact b64FinalLoop_outside _ (Nat.zero_le _)
    · rintro ⟨c, hmem, hc⟩
      rw [hall] at hmem
      exact hc (List.eq_of_mem_replicate hmem)
  · have hsize : w.length + 1 + Base64.pads (s.take ilen) = ilen := by
      have heq := congrArg List.length hv
      rw [hlen, List.length_append, List.length_cons, List.length_replicate] at heq
      omega
    rw [if_pos ⟨c, hv ▸ List.mem_append_right _ List.mem_cons_self, hc⟩, hsplit]
    have hcount := b64FinalLoop_counts w (s.drop ilen ++ [0]) hc (Nat.zero_le (Base64.pads (s.take ilen)))
      (show _ < 0 + (ilen + 1) by omega)
    rw [← hv, hsize] at hcount
    exact hcount

/-! ## What OpenSSL is given -/

/-- An `int` is not more than the length it is made of. -/
theorem natCast_bmod_le (n : Nat) : (n : Int).bmod (2 ^ 32) ≤ n := by
  have hmod := Nat.mod_le n (2 ^ 32)
  rw [Int.bmod_def]
  split <;> omega

theorem evpInput_front (h : ilen ≤ s.length) : evpInput (s ++ [0]) ilen = evpInput (s.take ilen) ilen := by
  have hle := natCast_bmod_le ilen
  unfold evpInput
  by_cases hn : 0 ≤ (ilen : Int).bmod (2 ^ 32)
  · have hin : ((ilen : Int).bmod (2 ^ 32)).toNat ≤ ilen := by omega
    rw [if_pos ⟨hn, by rw [List.length_append]; omega⟩, if_pos ⟨hn, by rw [List.length_take_of_le h]; exact hin⟩,
      List.take_append_of_le_length (by omega), List.take_take, Nat.min_eq_left hin]
  · rw [if_neg fun hand => hn hand.1, if_neg fun hand => hn hand.1]

theorem evpInput_length {f : Bytes} {n : Int} (h : evpInput v n = some f) : f.length ≤ v.length := by
  unfold evpInput at h
  dsimp only at h
  split at h
  · obtain rfl := Option.some.inj h
    exact List.length_take_le' _ _
  · cases h

/-- A length that an `int` holds. -/
theorem evpInput_whole (x : Bytes) (h : v.length < 2 ^ 31) : evpInput (v ++ x) v.length = some v := by
  have hn : (v.length : Int).bmod (2 ^ 32) = v.length := by
    apply Int.bmod_eq_of_le_mul_two <;> omega
  unfold evpInput
  rw [hn, if_pos ⟨Int.natCast_nonneg _, by rw [List.length_append]; omega⟩, Int.toNat_natCast, List.take_left]

/-! ## Decoding -/

/-- There is room for the bytes, and a null. -/
theorem decode_room (h : evp.Documented) (hl : ilen ≤ s.length) (hblock : (block.length : Int) = b64DecodeSize ilen)
    {f out : Bytes} (hf : evpInput (s.take ilen) ilen = some f) (hout : evp.decodeBlock f = some out) :
    out.length < block.length := by
  obtain ⟨t, ht, hsize⟩ := h.size f out hout
  have hle := ht.length_le
  have hin := evpInput_length hf
  rw [List.length_take_of_le hl] at hin
  unfold b64DecodeSize at hblock
  rw [Int.tdiv_eq_ediv_of_nonneg (by omega)] at hblock
  omega

theorem rimB64Decode_part (hl : ilen ≤ s.length) :
    rimB64Decode evp (s ++ [0]) s.length ilen block = b64Answer (b64Decoded evp (s ++ [0]) ilen block) := by
  unfold rimB64Decode
  rw [hexLength_part hl, ok_bind]

/-- The bytes without those for the `=`s. -/
theorem b64Decoded_eq (h : evp.Documented) (hl : ilen ≤ s.length) (hblock : (block.length : Int) = b64DecodeSize ilen)
    {f out : Bytes} (hdigit : ∃ c ∈ s.take ilen, c ≠ Base64.pad) (hf : evpInput (s.take ilen) ilen = some f)
    (hout : evp.decodeBlock f = some out) (hpads : Base64.pads (s.take ilen) ≤ out.length) :
    b64Decoded evp (s ++ [0]) ilen block = some (out.take (out.length - Base64.pads (s.take ilen))) := by
  have hroom := decode_room h hl hblock hf hout
  have hfinal := b64FinalLoop_eq hl
  rw [if_pos hdigit] at hfinal
  have hcopy : memcpy block 0 out = some (out ++ block.drop out.length) := memcpy_append [] (Nat.le_of_lt hroom)
  have hdecode : evp.decodeInto block (s ++ [0]) ilen = some (out ++ block.drop out.length, (out.length : Int)) := by
    unfold Evp.decodeInto
    rw [evpInput_front hl, hf]
    simp only [Option.bind_eq_bind, Option.bind_some, hout, hcopy]
  obtain ⟨n, hn⟩ := Nat.exists_eq_add_of_le hpads
  have hidx : (out.length : Int) - (Base64.pads (s.take ilen) : Int) = (n : Int) := by omega
  have hpoke : pokeAt (out ++ block.drop out.length) (n : Int) 0 = some ((out ++ block.drop out.length).set n 0) := by
    unfold pokeAt
    rw [if_pos (Int.natCast_nonneg _), Int.toNat_natCast, poke_eq]
    rw [List.length_append, List.length_drop]
    omega
  unfold b64Decoded
  rw [Int.toNat_natCast, hfinal, Option.bind_eq_bind, Option.bind_some, hdecode, Option.bind_eq_bind, Option.bind_some]
  dsimp only
  rw [hidx, hpoke, Option.bind_eq_bind, Option.bind_some, Int.toNat_natCast, List.take_set_of_le (Nat.le_refl n),
    List.take_append_of_le_length (by omega), hn, Nat.add_sub_cancel_left]

/-- Where bytes are made, the text is one that can be decoded. -/
theorem b64Text_of_decoded (hl : ilen ≤ s.length) {bytes : Bytes} (h : b64Decoded evp (s ++ [0]) ilen block = some bytes) :
    B64Text evp (s.take ilen) := by
  unfold b64Decoded at h
  rw [Int.toNat_natCast, b64FinalLoop_eq hl] at h
  by_cases hdigit : ∃ c ∈ s.take ilen, c ≠ Base64.pad
  · rw [if_pos hdigit, Option.bind_eq_bind, Option.bind_some] at h
    obtain ⟨⟨dst, outLen⟩, hdecode, h⟩ := Option.bind_eq_some_iff.mp h
    obtain ⟨dst', hpoke, -⟩ := Option.bind_eq_some_iff.mp h
    have hnonneg : 0 ≤ outLen - (Base64.pads (s.take ilen) : Int) := by
      by_contra hneg
      rw [pokeAt, if_neg hneg] at hpoke
      cases hpoke
    unfold Evp.decodeInto at hdecode
    obtain ⟨f, hf, hdecode⟩ := Option.bind_eq_some_iff.mp hdecode
    rw [evpInput_front hl] at hf
    refine ⟨hdigit, f, ?_⟩
    rw [List.length_take_of_le hl]
    cases hout : evp.decodeBlock f with
    | none =>
      -- -1 is in front of the block, whatever the count
      rw [hout] at hdecode
      obtain ⟨-, rfl⟩ := Prod.mk.inj (Option.some.inj hdecode)
      omega
    | some out =>
      rw [hout] at hdecode
      obtain ⟨t, -, hdecode⟩ := Option.bind_eq_some_iff.mp hdecode
      obtain ⟨-, rfl⟩ := Prod.mk.inj (Option.some.inj hdecode)
      exact ⟨out, hf, rfl, by omega⟩
  · rw [if_neg hdigit] at h
    cases h

theorem b64DecodeSize_block (n : Nat) : ∃ block : Bytes, (block.length : Int) = b64DecodeSize n := by
  refine ⟨List.replicate (b64DecodeSize n).toNat 0, ?_⟩
  rw [List.length_replicate]
  unfold b64DecodeSize
  rw [Int.tdiv_eq_ediv_of_nonneg (by omega)]
  omega

/-- A part of a string is decoded in its memory just where it is a text that can be. -/
theorem b64Within_iff (h : evp.Documented) (hl : ilen ≤ s.length) : B64Within evp s ilen ↔ B64Text evp (s.take ilen) := by
  unfold B64Within
  simp only [rimB64Decode_part hl]
  constructor
  · intro hwithin
    obtain ⟨block, hblock⟩ := b64DecodeSize_block ilen
    obtain ⟨bytes, hok⟩ := hwithin block hblock
    cases hdecoded : b64Decoded evp (s ++ [0]) ilen block with
    | none =>
      rw [hdecoded] at hok
      cases hok
    | some bytes => exact b64Text_of_decoded hl hdecoded
  · intro htext block hblock
    obtain ⟨f, out, hf, hout, hpads⟩ := htext.taken
    rw [List.length_take_of_le hl] at hf
    rw [b64Decoded_eq h hl hblock htext.digit hf hout hpads]
    exact ⟨_, rfl⟩

/-! ## There and back -/

theorem evpInput_string (x : Bytes) : evpInput (x ++ [0]) x.length = evpInput x x.length := by
  have hfront := evpInput_front (Nat.le_refl x.length)
  rwa [List.take_length] at hfront

/-- Where an `int` holds the length, the digits are written to the block. -/
theorem encodeInto_eq (h : evp.Documented) {x f : Bytes} (hf : evpInput x x.length = some f)
    (hsize : (Base64.encode f).length < 2 ^ 31) (hblock : (block.length : Int) = b64EncodeSize x.length) :
    ∃ free, evp.encodeInto block (x ++ [0]) x.length = some (Base64.encode f ++ free, ((Base64.encode f).length : Int)) := by
  have hle := evpInput_length hf
  have hroom : (Base64.encode f ++ [0]).length ≤ block.length := by
    unfold b64EncodeSize at hblock
    rw [Int.tdiv_eq_ediv_of_nonneg (by omega)] at hblock
    rw [List.length_append, Base64.length_encode, List.length_singleton]
    omega
  have hcopy := memcpy_append [] hroom
  rw [List.nil_append, List.nil_append, List.length_nil, List.append_assoc] at hcopy
  refine ⟨[0] ++ block.drop (Base64.encode f ++ [0]).length, ?_⟩
  unfold Evp.encodeInto
  rw [evpInput_string, hf, Option.bind_eq_bind, Option.bind_some, h.encode]
  dsimp only
  rw [if_pos hsize, hcopy, Option.bind_some]

theorem rimB64Encode_whole (x : Bytes) :
    rimB64Encode evp (x ++ [0]) x.length (-1) block = b64Answer (b64Encoded evp (x ++ [0]) x.length block) := by
  have hwhole : hexLength x.length (-1) = .ok (x.length : Int) := rfl
  unfold rimB64Encode
  rw [hwhole, ok_bind]

theorem b64Encoded_eq (h : evp.Documented) {x f : Bytes} (hf : evpInput x x.length = some f)
    (hsize : (Base64.encode f).length < 2 ^ 31) (hblock : (block.length : Int) = b64EncodeSize x.length) :
    b64Encoded evp (x ++ [0]) x.length block = some (Base64.encode f) := by
  obtain ⟨free, hencode⟩ := encodeInto_eq h hf hsize hblock
  unfold b64Encoded
  rw [hencode, Option.bind_eq_bind, Option.bind_some]
  dsimp only
  rw [Int.toNat_natCast, List.take_left]

/-- Where a text is made, it is that of the bytes OpenSSL is given. -/
theorem encoded_of_eq (h : evp.Documented) {x text : Bytes} (hblock : (block.length : Int) = b64EncodeSize x.length)
    (htext : b64Encoded evp (x ++ [0]) x.length block = some text) :
    ∃ f, evpInput x x.length = some f ∧ (Base64.encode f).length < 2 ^ 31 ∧ text = Base64.encode f := by
  cases hf : evpInput x x.length with
  | none =>
    unfold b64Encoded Evp.encodeInto at htext
    rw [evpInput_string, hf] at htext
    cases htext
  | some f =>
    by_cases hsize : (Base64.encode f).length < 2 ^ 31
    · rw [b64Encoded_eq h hf hsize hblock] at htext
      exact ⟨f, rfl, hsize, (Option.some.inj htext).symm⟩
    · unfold b64Encoded Evp.encodeInto at htext
      rw [evpInput_string, hf, Option.bind_eq_bind, Option.bind_eq_bind, Option.bind_some, h.encode] at htext
      dsimp only at htext
      rw [if_neg hsize] at htext
      cases htext

/-- The digits of some bytes are a text that gives them back. -/
theorem rimB64Decode_encode (h : evp.Documented) {f : Bytes} (hne : f ≠ []) (hsize : (Base64.encode f).length < 2 ^ 31)
    (hblock : (block.length : Int) = b64DecodeSize (Base64.encode f).length) :
    rimB64Decode evp (Base64.encode f ++ [0]) (Base64.encode f).length (-1) block = .ok f := by
  obtain ⟨w, c, hc, hends⟩ := Base64.encode_ends hne
  have hpads : Base64.pads (Base64.encode f) = Base64.padding f.length := by
    rw [hends, Base64.pads_concat w hc]
  have hdigit : ∃ c ∈ (Base64.encode f).take (Base64.encode f).length, c ≠ Base64.pad := by
    rw [List.take_length, hends]
    exact ⟨c, List.mem_append_right _ List.mem_cons_self, hc⟩
  have hf := evpInput_whole [] hsize
  rw [List.append_nil] at hf
  have hwhole : rimB64Decode evp (Base64.encode f ++ [0]) (Base64.encode f).length (-1) block =
      rimB64Decode evp (Base64.encode f ++ [0]) (Base64.encode f).length (Base64.encode f).length block := by
    have hlen : hexLength (Base64.encode f).length (-1) = .ok ((Base64.encode f).length : Int) := rfl
    unfold rimB64Decode
    rw [hexLength_part (Nat.le_refl _), hlen]
  rw [hwhole, rimB64Decode_part (Nat.le_refl _), b64Decoded_eq h (Nat.le_refl _) hblock hdigit
    (by rw [List.take_length]; exact hf) (h.decode f)]
  · rw [List.take_length, hpads, List.length_append, List.length_replicate, Nat.add_sub_cancel, List.take_left]
    rfl
  · rw [List.take_length, hpads, List.length_append, List.length_replicate]
    omega

theorem b64EncodeSize_block (n : Nat) : ∃ block : Bytes, (block.length : Int) = b64EncodeSize n := by
  refine ⟨List.replicate (b64EncodeSize n).toNat 0, ?_⟩
  rw [List.length_replicate]
  unfold b64EncodeSize
  rw [Int.tdiv_eq_ediv_of_nonneg (by omega)]
  omega

/-- Bytes come back where there are some, and where an `int` holds the length of their digits. -/
theorem b64Returns_iff (h : evp.Documented) (x : Bytes) : B64Returns evp x ↔ x ≠ [] ∧ 4 * ((x.length + 2) / 3) < 2 ^ 31 := by
  unfold B64Returns
  simp only [rimB64Encode_whole]
  constructor
  · intro hreturns
    obtain ⟨block, hblock⟩ := b64EncodeSize_block x.length
    obtain ⟨text, htext, hback⟩ := hreturns block hblock
    cases hencoded : b64Encoded evp (x ++ [0]) x.length block with
    | none =>
      rw [hencoded] at htext
      cases htext
    | some text' =>
      rw [hencoded] at htext
      obtain rfl := Except.ok.inj htext
      obtain ⟨f, hf, hsize, rfl⟩ := encoded_of_eq h hblock hencoded
      obtain ⟨block', hblock'⟩ := b64DecodeSize_block (Base64.encode f).length
      have hx := hback block' hblock'
      have hne : f ≠ [] := by
        rintro rfl
        have hnone : rimB64Decode evp (Base64.encode [] ++ [0]) (Base64.encode []).length (-1) block' = .error .undefined := rfl
        rw [hnone] at hx
        cases hx
      rw [rimB64Decode_encode h hne hsize hblock'] at hx
      obtain rfl := Except.ok.inj hx
      rw [Base64.length_encode] at hsize
      exact ⟨hne, hsize⟩
  · intro hshort block hblock
    obtain ⟨hne, hsize⟩ := hshort
    rw [← Base64.length_encode] at hsize
    have hf : evpInput x x.length = some x := by
      have hlen := Base64.length_encode x
      have hin := evpInput_whole (v := x) [] (by omega)
      rwa [List.append_nil] at hin
    rw [b64Encoded_eq h hf hsize hblock]
    exact ⟨_, rfl, fun block' hblock' => rimB64Decode_encode h hne hsize hblock'⟩

/-- Bytes come back from their digits, and a part of a string is decoded where it is a text. -/
theorem rimB64_exact (h : evp.Documented) :
    (∀ x, B64Returns evp x ↔ x ≠ [] ∧ 4 * ((x.length + 2) / 3) < 2 ^ 31) ∧
      ∀ (s : Bytes) (ilen : Nat), ilen ≤ s.length → (B64Within evp s ilen ↔ B64Text evp (s.take ilen)) :=
  ⟨b64Returns_iff h, fun _ _ hl => b64Within_iff h hl⟩

def plainEvp : Evp where
  encodeBlock := Base64.encode
  decodeBlock := Base64.decode

theorem plainEvp_documented : plainEvp.Documented :=
  ⟨fun _ => rfl, Base64.decode_encode, fun v _ h => ⟨v, List.infix_refl v, Base64.length_decode h⟩⟩

theorem rimB64_exact_one : B64Returns plainEvp (ascii "a") ∧ B64Within plainEvp (ascii "YQ==") 4 := by
  have hexact := rimB64_exact plainEvp_documented
  refine ⟨(hexact.1 _).mpr ⟨by decide, by decide⟩, (hexact.2 (ascii "YQ==") 4 (by decide)).mpr ⟨⟨89, by decide, by decide⟩, ?_⟩⟩
  exact ⟨ascii "YQ==", [97, 0, 0], evpInput_whole [] (by decide), by decide, by decide⟩

/-- No bytes at all, a text that is refused, and one that is all `=`s. -/
theorem rimB64_not_exact :
    ¬ B64Returns plainEvp [] ∧ ¬ B64Within plainEvp (ascii "a") 1 ∧ ¬ B64Within plainEvp (ascii "====") 4 := by
  refine ⟨?_, ?_, ?_⟩
  · rw [b64Returns_iff plainEvp_documented]
    exact fun hreturns => hreturns.1 rfl
  · rw [b64Within_iff plainEvp_documented (Nat.le_refl 1)]
    intro htext
    obtain ⟨f, out, hf, hout, -⟩ := htext.taken
    have hlen := evpInput_whole [] (show (ascii "a").length < 2 ^ 31 by decide)
    obtain rfl := Option.some.inj (hlen.symm.trans hf)
    cases hout
  · rw [b64Within_iff plainEvp_documented (Nat.le_refl 4)]
    intro htext
    exact absurd htext.digit (by decide)

end Base64

end RimStone
