import RimStone.Text.Utf
import RimStone.Laws.Text.Encode
import RimStone.Lib.Digits

/-!
# Unicode text and back

A UTF-8 string without null bytes is the encoding of characters, Unicode scalar
values. `rim_utf_to_text` writes each character in one of four forms: as it is, after
a backslash, with four digits, or with eight digits or two surrogates.
`rim_text_to_utf` takes each form in one round of its loop, and writes no more bytes
than it read. It does not take U+FEFF.
-/

namespace RimStone

open RimStone.Lib

/-! ## Digits and bits -/

theorem ofInt_natCast (n : Nat) : UInt8.ofInt (n : Int) = UInt8.ofNat n := by
  have hmod : ((n : Int) % 2 ^ 8).toNat = n % 256 := by omega
  unfold UInt8.ofInt
  rw [hmod]
  apply UInt8.toNat_inj.mp
  simp

theorem hexVal_rimToHex {x : Nat} (hx : x < 16) : hexVal (rimToHex x) = some x := by
  have hall : ∀ x, x < 16 → hexVal (rimToHex x) = some x := by decide
  exact hall x hx

/-- A byte of a sequence after the first. -/
theorem tail_bits {x : Nat} (hx : x < 64) :
    UInt8.ofNat (x + 0x80) &&& 128 = 128 ∧ (UInt8.ofNat (x + 0x80) &&& 63).toNat = x := by
  have hall : ∀ x, x < 64 →
      UInt8.ofNat (x + 0x80) &&& 128 = 128 ∧ (UInt8.ofNat (x + 0x80) &&& 63).toNat = x := by decide
  exact hall x hx

theorem lead2_bits {x : Nat} (hx : x < 32) :
    UInt8.ofNat (x + 0xc0) &&& 128 ≠ 0 ∧ UInt8.ofNat (x + 0xc0) &&& 240 ≠ 240 ∧
      UInt8.ofNat (x + 0xc0) &&& 224 ≠ 224 ∧ UInt8.ofNat (x + 0xc0) &&& 192 = 192 ∧
      (UInt8.ofNat (x + 0xc0) &&& 31).toNat = x := by
  have hall : ∀ x, x < 32 →
      UInt8.ofNat (x + 0xc0) &&& 128 ≠ 0 ∧ UInt8.ofNat (x + 0xc0) &&& 240 ≠ 240 ∧
        UInt8.ofNat (x + 0xc0) &&& 224 ≠ 224 ∧ UInt8.ofNat (x + 0xc0) &&& 192 = 192 ∧
        (UInt8.ofNat (x + 0xc0) &&& 31).toNat = x := by decide
  exact hall x hx

theorem lead3_bits {x : Nat} (hx : x < 16) :
    UInt8.ofNat (x + 0xe0) &&& 128 ≠ 0 ∧ UInt8.ofNat (x + 0xe0) &&& 240 ≠ 240 ∧
      UInt8.ofNat (x + 0xe0) &&& 224 = 224 ∧ UInt8.ofNat (x + 0xe0) &&& 192 = 192 ∧
      (UInt8.ofNat (x + 0xe0) &&& 15).toNat = x := by
  have hall : ∀ x, x < 16 →
      UInt8.ofNat (x + 0xe0) &&& 128 ≠ 0 ∧ UInt8.ofNat (x + 0xe0) &&& 240 ≠ 240 ∧
        UInt8.ofNat (x + 0xe0) &&& 224 = 224 ∧ UInt8.ofNat (x + 0xe0) &&& 192 = 192 ∧
        (UInt8.ofNat (x + 0xe0) &&& 15).toNat = x := by decide
  exact hall x hx

theorem lead4_bits {x : Nat} (hx : x < 8) :
    UInt8.ofNat (x + 0xf0) &&& 128 ≠ 0 ∧ UInt8.ofNat (x + 0xf0) &&& 240 = 240 ∧
      UInt8.ofNat (x + 0xf0) &&& 192 = 192 ∧ (UInt8.ofNat (x + 0xf0) &&& 7).toNat = x := by
  have hall : ∀ x, x < 8 →
      UInt8.ofNat (x + 0xf0) &&& 128 ≠ 0 ∧ UInt8.ofNat (x + 0xf0) &&& 240 = 240 ∧
        UInt8.ofNat (x + 0xf0) &&& 192 = 192 ∧ (UInt8.ofNat (x + 0xf0) &&& 7).toNat = x := by decide
  exact hall x hx

theorem ascii_bits {x : Nat} (hx : x ≤ 0x7f) : UInt8.ofNat x &&& 192 ≠ 192 := by
  have hall : ∀ x, x < 128 → UInt8.ofNat x &&& 192 ≠ 192 := by decide
  exact hall x (by omega)

/-! ## Characters -/

/-- What a character stands for: a number below `0x110000` that is no surrogate. -/
theorem char_bound (c : Char) : c.val.toNat < 0x110000 ∧ ¬ (0xD800 ≤ c.val.toNat ∧ c.val.toNat ≤ 0xDFFF) := by
  have hv := c.valid
  rcases hv with h | ⟨h₁, h₂⟩
  · omega
  · omega

/-- A character's first byte says whether it is ASCII, and `rim_encode_utf` reads one
that is not. -/
theorem rimEncodeUtf_char {c : Char} (hc : 0x7f < c.val.toNat) (rest : Bytes) :
    ∃ b bs, String.utf8EncodeChar c = b :: bs ∧ b &&& 192 = 192 ∧
      rimEncodeUtf (b :: bs ++ rest) = .ok (c.val.toNat, (b :: bs).length) := by
  have hbound := (char_bound c).1
  generalize hv : c.val.toNat = v at hc hbound
  unfold String.utf8EncodeChar
  rw [hv]
  by_cases h2 : v ≤ 0x7ff
  · obtain ⟨h128, h240, h224, h192, hval⟩ := lead2_bits (x := v / 64 % 0x20) (by omega)
    obtain ⟨ht, htval⟩ := tail_bits (x := v % 0x40) (by omega)
    refine ⟨UInt8.ofNat (v / 64 % 0x20 + 0xc0), [UInt8.ofNat (v % 0x40 + 0x80)], ?_, h192, ?_⟩
    · simp only [Nat.not_le.mpr hc, h2, if_true, if_false]
    · simp only [rimEncodeUtf, utfTail, List.cons_append, List.nil_append, List.getElem?_cons_zero,
        List.getElem?_cons_succ, inBlock, bind, Except.bind, h128, h240, h224, h192, ht, htval, hval,
        if_true, if_false, List.length_cons, List.length_nil, Nat.shiftLeft_eq]
      congr 2
      omega
  by_cases h3 : v ≤ 0xffff
  · obtain ⟨h128, h240, h224, h192, hval⟩ := lead3_bits (x := v / 4096 % 0x10) (by omega)
    obtain ⟨hs, hsval⟩ := tail_bits (x := v / 64 % 0x40) (by omega)
    obtain ⟨ht, htval⟩ := tail_bits (x := v % 0x40) (by omega)
    refine ⟨UInt8.ofNat (v / 4096 % 0x10 + 0xe0),
      [UInt8.ofNat (v / 64 % 0x40 + 0x80), UInt8.ofNat (v % 0x40 + 0x80)], ?_, h192, ?_⟩
    · simp only [Nat.not_le.mpr hc, h2, h3, if_true, if_false]
    · simp only [rimEncodeUtf, utfTail, List.cons_append, List.nil_append, List.getElem?_cons_zero,
        List.getElem?_cons_succ, inBlock, bind, Except.bind, h128, h240, h224, hs, hsval, ht,
        htval, hval, if_true, if_false, List.length_cons, List.length_nil, Nat.shiftLeft_eq]
      congr 2
      omega
  · obtain ⟨h128, h240, h192, hval⟩ := lead4_bits (x := v / 262144 % 0x08) (by omega)
    obtain ⟨hr, hrval⟩ := tail_bits (x := v / 4096 % 0x40) (by omega)
    obtain ⟨hs, hsval⟩ := tail_bits (x := v / 64 % 0x40) (by omega)
    obtain ⟨ht, htval⟩ := tail_bits (x := v % 0x40) (by omega)
    refine ⟨UInt8.ofNat (v / 262144 % 0x08 + 0xf0), [UInt8.ofNat (v / 4096 % 0x40 + 0x80),
      UInt8.ofNat (v / 64 % 0x40 + 0x80), UInt8.ofNat (v % 0x40 + 0x80)], ?_, h192, ?_⟩
    · simp only [Nat.not_le.mpr hc, h2, h3, if_false]
    · simp only [rimEncodeUtf, utfTail, List.cons_append, List.nil_append, List.getElem?_cons_zero,
        List.getElem?_cons_succ, inBlock, bind, Except.bind, h128, h240, hr, hrval, hs, hsval, ht,
        htval, hval, if_true, if_false, List.length_cons, List.length_nil, Nat.shiftLeft_eq]
      congr 2
      omega

/-- `rim_decode_utf` writes a character, but for U+FEFF. -/
theorem rimDecodeUtf_char {c : Char} (hfeff : c.val.toNat ≠ 0xFEFF) :
    rimDecodeUtf (c.val.toNat : Int) = .ok (String.utf8EncodeChar c) := by
  have hbound := (char_bound c).1
  generalize hv : c.val.toNat = v at hfeff hbound
  unfold rimDecodeUtf String.utf8EncodeChar
  rw [hv]
  by_cases h1 : v ≤ 0x7f
  · have h1' : (v : Int) ≤ 0x7F := by omega
    simp only [h1, h1', if_true, ofInt_natCast]
  have h1' : ¬ (v : Int) ≤ 0x7F := by omega
  by_cases h2 : v ≤ 0x7ff
  · have h2' : 0x80 ≤ (v : Int) ∧ (v : Int) ≤ 0x7FF := by omega
    have ha : 192 + (v : Int) / 64 = ((v / 64 % 0x20 + 0xc0 : Nat) : Int) := by omega
    have hb : 128 + (v : Int) % 64 = ((v % 0x40 + 0x80 : Nat) : Int) := by omega
    simp only [h1, h1', h2, h2', if_true, if_false, and_self, ha, hb, ofInt_natCast]
  have h2' : ¬ (0x80 ≤ (v : Int) ∧ (v : Int) ≤ 0x7FF) := by omega
  by_cases h3 : v ≤ 0xffff
  · have h3' : 0x800 ≤ (v : Int) ∧ (v : Int) ≤ 0xFFFF := by omega
    have hf : ¬ (v : Int) = 0xFEFF := by omega
    have ha : 224 + (v : Int) / 4096 = ((v / 4096 % 0x10 + 0xe0 : Nat) : Int) := by omega
    have hb : 128 + (v : Int) / 64 % 64 = ((v / 64 % 0x40 + 0x80 : Nat) : Int) := by omega
    have hd : 128 + (v : Int) % 64 = ((v % 0x40 + 0x80 : Nat) : Int) := by omega
    simp only [h1, h1', h2, h2', h3, h3', hf, if_true, if_false, and_self, ha, hb, hd, ofInt_natCast]
  · have h3' : ¬ (0x800 ≤ (v : Int) ∧ (v : Int) ≤ 0xFFFF) := by omega
    have h4' : 0x10000 ≤ (v : Int) ∧ (v : Int) ≤ 0x10FFFF := by omega
    have ha : 240 + (v : Int) / 262144 = ((v / 262144 % 0x08 + 0xf0 : Nat) : Int) := by omega
    have hb : 128 + (v : Int) / 4096 % 64 = ((v / 4096 % 0x40 + 0x80 : Nat) : Int) := by omega
    have hd : 128 + (v : Int) / 64 % 64 = ((v / 64 % 0x40 + 0x80 : Nat) : Int) := by omega
    have he : 128 + (v : Int) % 64 = ((v % 0x40 + 0x80 : Nat) : Int) := by omega
    simp only [h1, h1', h2, h2', h3, h3', h4', if_true, if_false, and_self, ha, hb, hd, he, ofInt_natCast]

/-! ## To text -/

def charText (json : Bool) (c : Char) : Bytes :=
  if c.val.toNat ≤ 0x7f then rimByteText (.ofNat c.val.toNat) else rimUnicodeText json c.val.toNat

def utf8 (cs : List Char) : Bytes := cs.flatMap String.utf8EncodeChar

/-- The loop of `rim_utf_to_text` writes one character after the other. -/
theorem rimUtfLoop_chars (json : Bool) (cs : List Char) (res : Bytes) {val rest : Bytes} {i len fuel : Nat}
    (hrest : val.drop i = utf8 cs ++ rest) (hlen : i + (utf8 cs).length = len)
    (hfuel : cs.length < fuel) :
    rimUtfLoop val len json fuel i res = .ok (res ++ cs.flatMap (charText json)) := by
  induction cs generalizing i res fuel with
  | nil =>
    obtain ⟨fuel, rfl⟩ := Nat.exists_eq_succ_of_ne_zero (Nat.ne_of_gt (Nat.zero_lt_of_lt hfuel))
    have hend : ¬ i < len := by
      unfold utf8 at hlen
      rw [List.flatMap_nil, List.length_nil] at hlen
      omega
    rw [rimUtfLoop, if_neg hend, List.flatMap_nil, List.append_nil]
  | cons c cs ih =>
    obtain ⟨fuel, rfl⟩ := Nat.exists_eq_succ_of_ne_zero (Nat.ne_of_gt (Nat.zero_lt_of_lt hfuel))
    have hfuel' : cs.length < fuel := by
      rw [List.length_cons] at hfuel
      omega
    have hcons : utf8 (c :: cs) = String.utf8EncodeChar c ++ utf8 cs := List.flatMap_cons
    rw [hcons, List.append_assoc] at hrest
    rw [hcons, List.length_append] at hlen
    have hnext : val.drop (i + (String.utf8EncodeChar c).length) = utf8 cs ++ rest := by
      rw [← List.drop_drop, hrest, List.drop_left]
    rw [List.flatMap_cons, ← List.append_assoc]
    by_cases hc : c.val.toNat ≤ 0x7f
    · -- one byte
      have henc : String.utf8EncodeChar c = [UInt8.ofNat c.val.toNat] := by
        unfold String.utf8EncodeChar
        rw [if_pos hc]
      rw [henc] at hrest hlen hnext
      have hget : val[i]? = some (UInt8.ofNat c.val.toNat) := by
        rw [← Nat.add_zero i, ← List.getElem?_drop, hrest]
        rfl
      have hi : i < len := by
        rw [List.length_singleton] at hlen
        omega
      have hloop := ih (res ++ rimByteText (.ofNat c.val.toNat)) hnext
        ((Nat.add_assoc ..).trans hlen) hfuel'
      have htext : charText json c = rimByteText (.ofNat c.val.toNat) := if_pos hc
      rw [htext, ← hloop, rimUtfLoop, if_pos hi, hget]
      simp only [inBlock, bind, Except.bind, if_neg (ascii_bits hc)]
      rfl
    · -- a sequence
      obtain ⟨b, bs, henc, h192, hread⟩ := rimEncodeUtf_char (Nat.lt_of_not_le hc) (utf8 cs ++ rest)
      rw [henc] at hrest hlen hnext
      have hget : val[i]? = some b := by
        rw [← Nat.add_zero i, ← List.getElem?_drop, hrest]
        rfl
      have hi : i < len := by
        rw [List.length_cons] at hlen
        omega
      have hloop := ih (res ++ rimUnicodeText json c.val.toNat) hnext
        ((Nat.add_assoc ..).trans hlen) hfuel'
      have htext : charText json c = rimUnicodeText json c.val.toNat := if_neg hc
      rw [htext, ← hloop, rimUtfLoop, if_pos hi, hget]
      simp only [inBlock, bind, Except.bind, h192, if_true, hrest, hread]

/-- A character's text takes at most three times its bytes. -/
theorem charText_length_le (json : Bool) (c : Char) :
    (charText json c).length ≤ 3 * (String.utf8EncodeChar c).length := by
  unfold charText String.utf8EncodeChar
  generalize c.val.toNat = v
  by_cases h1 : v ≤ 0x7f
  · rw [if_pos h1, if_pos h1]
    unfold rimByteText
    split_ifs <;> simp
  rw [if_neg h1, if_neg h1]
  have hunicode : (rimUnicodeText json v).length ≤ if 0x10000 ≤ v then 12 else 6 := by
    unfold rimUnicodeText
    split_ifs <;> simp [rimHexFromInt32, rimHexFromInt16, rimHexFromByte]
  by_cases h2 : v ≤ 0x7ff
  · rw [if_neg (by omega)] at hunicode
    rw [if_pos h2]
    exact hunicode
  rw [if_neg h2]
  by_cases h3 : v ≤ 0xffff
  · rw [if_neg (by omega)] at hunicode
    rw [if_pos h3]
    exact Nat.le_trans hunicode (Nat.le_of_ble_eq_true rfl)
  · rw [if_pos (by omega)] at hunicode
    rw [if_neg h3]
    exact hunicode

theorem flatMap_charText_length_le (json : Bool) (cs : List Char) :
    (cs.flatMap (charText json)).length ≤ 3 * (utf8 cs).length := by
  unfold utf8
  induction cs with
  | nil => simp
  | cons c cs ih =>
    have hc := charText_length_le json c
    rw [List.flatMap_cons, List.flatMap_cons, List.length_append, List.length_append]
    omega

theorem length_le_utf8 (cs : List Char) : cs.length ≤ (utf8 cs).length := by
  unfold utf8
  induction cs with
  | nil => simp
  | cons c cs ih =>
    have hc : 0 < (String.utf8EncodeChar c).length := List.length_pos_iff.mpr String.utf8EncodeChar_ne_nil
    rw [List.flatMap_cons, List.length_append, List.length_cons]
    omega

/-- `rim_utf_to_text` takes every UTF-8 string. -/
theorem rimUtfToText_utf8 (json : Bool) (cs : List Char) :
    rimUtfToText (utf8 cs ++ [0]) (utf8 cs).length json = .ok (cs.flatMap (charText json)) := by
  have hlen := length_le_utf8 cs
  have hstart : (utf8 cs ++ [0]).drop 0 = utf8 cs ++ [0] := rfl
  have hloop := rimUtfLoop_chars json cs [] hstart (Nat.zero_add _) (Nat.lt_succ_of_le hlen)
  rw [List.nil_append] at hloop
  simp only [rimUtfToText, hloop, bind, Except.bind, flatMap_charText_length_le, if_true]

/-! ## From text -/

/-- `rim_get_hex` reads digits. -/
theorem rimGetHexLoop_eq {val rest : Bytes} {ds : List Nat} (hds : ∀ d ∈ ds, d < 16) {i : Nat}
    (h : val.drop i = ds.map rimToHex ++ rest) (r : Nat) :
    rimGetHexLoop val ds.length i r = .ok (r + number 16 ds) := by
  induction ds generalizing i r with
  | nil => rfl
  | cons d ds ih =>
    obtain ⟨hd, hds⟩ := List.forall_mem_cons.mp hds
    have hget : val[i]? = some (rimToHex d) := by
      rw [← Nat.add_zero i, ← List.getElem?_drop, h]
      rfl
    have hnext : val.drop (i + 1) = ds.map rimToHex ++ rest := by
      rw [← List.drop_drop, h]
      rfl
    have hloop := ih hds hnext (r + d * 16 ^ ds.length)
    simp only [List.length_cons, rimGetHexLoop, hget, inBlock, bind, Except.bind, hexVal_rimToHex hd]
    rw [hloop, number, Nat.add_assoc]

theorem bmod_eq {x : Nat} (hx : x < 0x110000) : (x : Int).bmod (2 ^ 32) = x := by
  apply Int.bmod_eq_of_le_mul_two <;> omega

/-- A number of 32 bits is read as it is, unless its sign is set. -/
theorem rimGetHex_reads {v : Bytes} {i bytes r : Nat} (h : rimGetHexLoop v bytes i 0 = .ok r) (hr : r < 0x100000000) :
    ∃ u, rimGetHex v i bytes = .ok u ∧ (r < 0x110000 → u = r) ∧ (0 ≤ u → u = r) := by
  refine ⟨(r : Int).bmod (2 ^ 32), ?_, bmod_eq, fun hu => ?_⟩
  · simp only [rimGetHex, h, bind, Except.bind]
  · have hmod : (r : Int) % ((2 ^ 32 : Nat) : Int) = r := by omega
    rw [Int.bmod_def, hmod] at hu ⊢
    split at hu
    · next hlt => rw [if_pos hlt]
    · omega

theorem rimGetHex_int16 {val rest : Bytes} {i x : Nat} (hx : x < 0x10000)
    (h : val.drop i = rimHexFromInt16 x ++ rest) : rimGetHex val i 4 = .ok (x : Int) := by
  let ds := [x / 256 % 256 / 16 % 16, x / 256 % 256 % 16, x % 256 / 16 % 16, x % 256 % 16]
  have hds : ∀ d ∈ ds, d < 16 := by
    simp only [ds, List.forall_mem_cons, List.not_mem_nil, false_implies, implies_true, and_true]
    omega
  have hloop := rimGetHexLoop_eq hds (h : val.drop i = ds.map rimToHex ++ rest) 0
  have hnum : number 16 ds = x := by
    simp only [ds, number, List.length_cons, List.length_nil]
    omega
  have hfour : ds.length = 4 := rfl
  rw [hnum, Nat.zero_add, hfour] at hloop
  have hsmall : x < 0x110000 := by omega
  simp only [rimGetHex, hloop, bind, Except.bind, bmod_eq hsmall]

theorem rimGetHex_int32 {val rest : Bytes} {i x : Nat} (hx : x < 0x110000)
    (h : val.drop i = rimHexFromInt32 x ++ rest) : rimGetHex val i 8 = .ok (x : Int) := by
  let ds := [x / 16777216 % 256 / 16 % 16, x / 16777216 % 256 % 16, x / 65536 % 256 / 16 % 16,
    x / 65536 % 256 % 16, x / 256 % 256 / 16 % 16, x / 256 % 256 % 16, x % 256 / 16 % 16,
    x % 256 % 16]
  have hds : ∀ d ∈ ds, d < 16 := by
    simp only [ds, List.forall_mem_cons, List.not_mem_nil, false_implies, implies_true, and_true]
    omega
  have hloop := rimGetHexLoop_eq hds (h : val.drop i = ds.map rimToHex ++ rest) 0
  have hnum : number 16 ds = x := by
    simp only [ds, number, List.length_cons, List.length_nil]
    omega
  have height : ds.length = 8 := rfl
  rw [hnum, Nat.zero_add, height] at hloop
  simp only [rimGetHex, hloop, bind, Except.bind, bmod_eq hx]

theorem rimByteText_cases (b : UInt8) :
    (rimByteText b = [b] ∧ b ≠ 34 ∧ b ≠ 92) ∨ ∃ e, rimByteText b = [92, e] ∧ textEscape e = some b := by
  by_cases h : b ∈ [34, 92, 8, 12, 10, 13, 9]
  · right
    have hall : ∀ b ∈ [34, 92, 8, 12, 10, 13, 9],
        ∃ e ∈ [34, 92, 98, 102, 110, 114, 116], rimByteText b = [92, e] ∧ textEscape e = some b := by
      decide +kernel
    obtain ⟨e, -, he⟩ := hall b h
    exact ⟨e, he⟩
  · left
    simp only [List.mem_cons, List.not_mem_nil, or_false, not_or] at h
    obtain ⟨hquote, hslash, hb, hf, hn, hr, ht⟩ := h
    refine ⟨?_, hquote, hslash⟩
    unfold rimByteText
    rw [if_neg hquote, if_neg hslash, if_neg hb, if_neg hf, if_neg hn, if_neg hr, if_neg ht]

section Loop

variable {val out rest : Bytes} {i j pull : Nat}

theorem drop_of_inPlace {read : Bytes} (h : InPlace val out (read ++ rest) i j) :
    val.drop (i + read.length) = rest := h.skip.unread

theorem rimTextLoop_plain (fuel : Nat) {c : UInt8} (hc : c ≠ 34 ∧ c ≠ 92 ∧ c ≠ 0)
    (h : InPlace val out (c :: rest) i j) (hi : i = j + pull) :
    ∃ val', rimTextLoop (fuel + 1) val i pull = rimTextLoop fuel val' (i + 1) pull ∧
      InPlace val' (out ++ [c]) rest (i + 1) (j + 1) := by
  obtain ⟨hquote, hslash, hnull⟩ := hc
  have hget : val[i]? = some c := h.get_zero
  have hend : ¬ (c = 34 ∨ c = 0) := not_or.mpr ⟨hquote, hnull⟩
  by_cases hp : pull = 0
  · subst hp
    rw [Nat.add_zero] at hi
    subst hi
    refine ⟨val, ?_, h.keep⟩
    simp only [rimTextLoop, hget, inBlock, bind, Except.bind, if_neg hend, if_neg hslash, ne_eq,
      not_true_eq_false, if_false]
  · have hj : i - pull = j := by omega
    refine ⟨val.set j c, ?_, h.step c⟩
    simp only [rimTextLoop, hget, inBlock, bind, Except.bind, if_neg hend, if_neg hslash, ne_eq, hp,
      not_false_eq_true, if_true, hj, poke_eq h.lt]

/-- The loop takes a byte after a backslash. -/
theorem rimTextLoop_escape (fuel : Nat) {e b : UInt8} (he : textEscape e = some b)
    (h : InPlace val out (92 :: e :: rest) i j) (hi : i = j + pull) :
    ∃ val', rimTextLoop (fuel + 1) val i pull = rimTextLoop fuel val' (i + 2) (pull + 1) ∧
      InPlace val' (out ++ [b]) rest (i + 2) (j + 1) := by
  have hget : val[i]? = some 92 := h.get_zero
  have hget₁ : val[i + 1]? = some e := h.get 1
  have hj : i - pull = j := by omega
  have hend : ¬ ((92 : UInt8) = 34 ∨ (92 : UInt8) = 0) := by decide
  have hstep : InPlace (val.set j b) (out ++ [b]) ([e] ++ rest) (i + 1) (j + 1) := h.step b
  refine ⟨val.set j b, ?_, hstep.skip⟩
  simp only [rimTextLoop, hget, hget₁, inBlock, bind, Except.bind, if_neg hend, if_true, he, hj, poke_eq h.lt]

/-- The loop takes a code point. -/
theorem rimTextLoop_code (fuel : Nat) {e : UInt8} {form bytes : Bytes} {u : Int} (he : e = 85 ∨ e = 117)
    (hcode : (if e = 85 then rimUtfGetCode8 val (i + 1) else rimUtfGetCode val (i + 1)) =
      .ok (u, form.length + 2))
    (hbytes : rimDecodeUtf u = .ok bytes) (hlen : bytes.length ≤ form.length + 2)
    (h : InPlace val out (92 :: e :: form ++ rest) i j) (hi : i = j + pull) :
    ∃ val', rimTextLoop (fuel + 1) val i pull =
        rimTextLoop fuel val' (i + (form.length + 2)) (pull + (form.length + 2 - bytes.length)) ∧
      InPlace val' (out ++ bytes) rest (i + (form.length + 2)) (j + bytes.length) := by
  have hget : val[i]? = some 92 := h.get_zero
  have hget₁ : val[i + 1]? = some e := h.get 1
  have hj : i - pull = j := by omega
  have hend : ¬ ((92 : UInt8) = 34 ∨ (92 : UInt8) = 0) := by decide
  have hno : textEscape e = none := by
    rcases he with rfl | rfl <;> decide
  have hskip := h.skip
  have htot := h.length_eq
  rw [List.length_append] at htot
  simp only [List.length_cons] at hskip htot
  have hroom : j + bytes.length ≤ val.length := by omega
  refine ⟨_, ?_, hskip.putAll (by omega)⟩
  have hne : ¬ (117 : UInt8) = 85 := by decide
  rcases he with rfl | rfl
  · rw [if_pos rfl] at hcode
    simp only [rimTextLoop, hget, hget₁, inBlock, bind, Except.bind, if_neg hend, if_true, hno,
      true_or, hcode, hbytes, hj, memcpy, if_pos hroom]
  · rw [if_neg hne] at hcode
    simp only [rimTextLoop, hget, hget₁, inBlock, bind, Except.bind, if_neg hend, if_true, hno,
      or_true, if_neg hne, hcode, hbytes, hj, memcpy, if_pos hroom]

/-- The code point that the text of a character names. -/
theorem rimUtfGetCode_char {c : Char} (hc : 0x7f < c.val.toNat) (json : Bool)
    (h : InPlace val out (rimUnicodeText json c.val.toNat ++ rest) i j) :
    ∃ e form, rimUnicodeText json c.val.toNat = 92 :: e :: form ∧ (e = 85 ∨ e = 117) ∧
      (if e = 85 then rimUtfGetCode8 val (i + 1) else rimUtfGetCode val (i + 1)) =
        .ok ((c.val.toNat : Int), form.length + 2) := by
  obtain ⟨hbound, hsur⟩ := char_bound c
  generalize c.val.toNat = v at hc hbound hsur h ⊢
  have hne : ¬ (117 : UInt8) = 85 := by decide
  by_cases h4 : 0x10000 ≤ v
  · cases json with
    | false =>
      have htext : rimUnicodeText false v = 92 :: 85 :: rimHexFromInt32 v := by
        simp [rimUnicodeText, h4]
      rw [htext] at h
      have hread : InPlace val out ([92, 85] ++ (rimHexFromInt32 v ++ rest)) i j := h
      have hhex := rimGetHex_int32 hbound (drop_of_inPlace hread)
      refine ⟨85, _, htext, Or.inl rfl, ?_⟩
      have hsur' : ¬ (0xD800 ≤ (v : Int) ∧ (v : Int) ≤ 0xDFFF) := by omega
      have hminus : ¬ (v : Int) = -1 := by omega
      rw [if_pos rfl]
      simp only [List.length_cons, List.length_nil] at hhex
      simp only [rimUtfGetCode8, Nat.add_assoc, hhex, bind, Except.bind, if_neg hsur', if_neg hminus]
      rfl
    | true =>
      let u0 := (rimGetUtfSurrogate v).1
      let u1 := (rimGetUtfSurrogate v).2
      have hu0 : u0 = 0xD7C0 + v / 1024 := by
        show 0xD800 - (0x10000 >>> 10) + (v >>> 10) = _
        rw [Nat.shiftRight_eq_div_pow, Nat.shiftRight_eq_div_pow]
      have hu1 : u1 = 0xDC00 + v % 1024 := rfl
      have htext : rimUnicodeText true v =
          92 :: 117 :: (rimHexFromInt16 u0 ++ ([92, 117] ++ rimHexFromInt16 u1)) := by
        simp [rimUnicodeText, h4, u0, u1]
      rw [htext] at h
      have hread : InPlace val out
          ([92, 117] ++ (rimHexFromInt16 u0 ++ ([92, 117] ++ rimHexFromInt16 u1) ++ rest)) i j := h
      have hrest := drop_of_inPlace hread
      simp only [List.length_cons, List.length_nil, List.append_assoc] at hrest
      have hsmall₀ : u0 < 0x10000 := by omega
      have hsmall₁ : u1 < 0x10000 := by omega
      have hhex₀ := rimGetHex_int16 hsmall₀ hrest
      have hfour : ∀ x, (rimHexFromInt16 x).length = 4 := fun _ => rfl
      -- what follows the first surrogate
      have hnext : val.drop (i + 6) = [92, 117] ++ (rimHexFromInt16 u1 ++ rest) := by
        have hsix : i + 6 = i + (0 + 1 + 1) + (rimHexFromInt16 u0).length := by
          rw [hfour]
        rw [hsix, ← List.drop_drop, hrest, List.drop_left]
      have hget₀ : val[i + 6]? = some 92 := by
        rw [← Nat.add_zero (i + 6), ← List.getElem?_drop, hnext]
        rfl
      have hget₁ : val[i + 7]? = some 117 := by
        have hone : (val.drop (i + 6))[1]? = some 117 := by
          rw [hnext]
          rfl
        rw [List.getElem?_drop] at hone
        exact hone
      have hlast : val.drop (i + 8) = rimHexFromInt16 u1 ++ rest := by
        have height : i + 8 = i + 6 + 2 := rfl
        rw [height, ← List.drop_drop, hnext]
        rfl
      have hhex₁ := rimGetHex_int16 hsmall₁ hlast
      refine ⟨117, _, htext, Or.inr rfl, ?_⟩
      have hin : 0xD800 ≤ (u0 : Int) ∧ (u0 : Int) ≤ 0xDFFF := by omega
      have hmake : rimMakeFromUtfSurrogate u0 u1 = v := by
        unfold rimMakeFromUtfSurrogate
        omega
      rw [if_neg hne]
      simp only [rimUtfGetCode, Nat.add_assoc, Nat.reduceAdd, hhex₀, bind, Except.bind, if_pos hin,
        inBlock, hget₀, hget₁, hhex₁, hmake, ne_eq, not_true_eq_false, if_false]
      rfl
  · have htext : rimUnicodeText json v = 92 :: 117 :: rimHexFromInt16 v := by
      simp [rimUnicodeText, h4]
    rw [htext] at h
    have hread : InPlace val out ([92, 117] ++ (rimHexFromInt16 v ++ rest)) i j := h
    have hhex := rimGetHex_int16 (Nat.lt_of_not_le h4) (drop_of_inPlace hread)
    refine ⟨117, _, htext, Or.inr rfl, ?_⟩
    have hsur' : ¬ (0xD800 ≤ (v : Int) ∧ (v : Int) ≤ 0xDFFF) := by omega
    rw [if_neg hne]
    simp only [List.length_cons, List.length_nil] at hhex
    simp only [rimUtfGetCode, Nat.add_assoc, hhex, bind, Except.bind, if_neg hsur']
    rfl

/-- The loop takes a character in one round, and falls behind by what its text is
longer. -/
theorem rimTextLoop_char (fuel : Nat) (json : Bool) {c : Char} (hnull : c.val.toNat ≠ 0)
    (hfeff : c.val.toNat ≠ 0xFEFF) (h : InPlace val out (charText json c ++ rest) i j)
    (hi : i = j + pull) :
    ∃ val' i' pull', rimTextLoop (fuel + 1) val i pull = rimTextLoop fuel val' i' pull' ∧
      InPlace val' (out ++ String.utf8EncodeChar c) rest i'
        (j + (String.utf8EncodeChar c).length) ∧
      i' = j + (String.utf8EncodeChar c).length + pull' ∧ i' = i + (charText json c).length := by
  by_cases hc : c.val.toNat ≤ 0x7f
  · have htext : charText json c = rimByteText (.ofNat c.val.toNat) := if_pos hc
    have henc : String.utf8EncodeChar c = [UInt8.ofNat c.val.toNat] := by
      unfold String.utf8EncodeChar
      rw [if_pos hc]
    have hne : UInt8.ofNat c.val.toNat ≠ 0 := by
      intro hz
      have hmod := congrArg UInt8.toNat hz
      rw [UInt8.toNat_ofNat'] at hmod
      have hzero : (0 : UInt8).toNat = 0 := rfl
      omega
    rw [htext] at h
    rw [henc]
    rcases rimByteText_cases (.ofNat c.val.toNat) with ⟨hform, hquote, hslash⟩ | ⟨e, hform, he⟩
    · rw [hform] at h
      obtain ⟨val', hloop, h'⟩ := rimTextLoop_plain fuel ⟨hquote, hslash, hne⟩ h hi
      refine ⟨val', _, _, hloop, h', ?_, ?_⟩
      · rw [List.length_singleton]
        omega
      · rw [htext, hform]
        rfl
    · rw [hform] at h
      obtain ⟨val', hloop, h'⟩ := rimTextLoop_escape fuel he h hi
      refine ⟨val', _, _, hloop, h', ?_, ?_⟩
      · rw [List.length_singleton]
        omega
      · rw [htext, hform]
        rfl
  · have htext : charText json c = rimUnicodeText json c.val.toNat := if_neg hc
    rw [htext] at h
    obtain ⟨e, form, hform, he, hcode⟩ := rimUtfGetCode_char (Nat.lt_of_not_le hc) json h
    have hlen : (String.utf8EncodeChar c).length ≤ form.length + 2 := by
      have hutf := String.length_utf8EncodeChar c
      have hfour := Char.utf8Size_le_four c
      have hform' := congrArg List.length hform
      have hsix : 6 ≤ (rimUnicodeText json c.val.toNat).length := by
        unfold rimUnicodeText
        split_ifs <;> simp [rimHexFromInt32, rimHexFromInt16, rimHexFromByte]
      simp only [List.length_cons] at hform'
      omega
    rw [hform] at h
    obtain ⟨val', hloop, h'⟩ := rimTextLoop_code fuel he hcode (rimDecodeUtf_char hfeff) hlen h hi
    refine ⟨val', _, _, hloop, h', by omega, ?_⟩
    rw [htext, hform]
    rfl

/-- The loop takes the text of characters up to the quote or the null after it. -/
theorem rimTextLoop_written (json : Bool) {x : UInt8} (hx : x = 34 ∨ x = 0) {cs : List Char}
    (hnull : ∀ c ∈ cs, c.val.toNat ≠ 0) (hfeff : ∀ c ∈ cs, c.val.toNat ≠ 0xFEFF) {fuel : Nat} (hfuel : cs.length < fuel)
    (h : InPlace val out (cs.flatMap (charText json) ++ x :: rest) i j) (hi : i = j + pull) :
    ∃ val' i' pull', rimTextLoop fuel val i pull = .ok (val', i', pull') ∧
      InPlace val' (out ++ utf8 cs) (x :: rest) i' (j + (utf8 cs).length) ∧
      i' = j + (utf8 cs).length + pull' ∧ i' = i + (cs.flatMap (charText json)).length := by
  induction cs generalizing val out i j pull fuel with
  | nil =>
    obtain ⟨fuel, rfl⟩ := Nat.exists_eq_succ_of_ne_zero (Nat.ne_of_gt (Nat.zero_lt_of_lt hfuel))
    have hget : val[i]? = some x := h.get_zero
    refine ⟨val, i, pull, ?_, ?_, hi, rfl⟩
    · simp only [rimTextLoop, hget, inBlock, bind, Except.bind, if_pos hx]
    · simpa [utf8] using h
  | cons c cs ih =>
    obtain ⟨hc, hnull⟩ := List.forall_mem_cons.mp hnull
    obtain ⟨hcf, hfeff⟩ := List.forall_mem_cons.mp hfeff
    obtain ⟨fuel, rfl⟩ := Nat.exists_eq_succ_of_ne_zero (Nat.ne_of_gt (Nat.zero_lt_of_lt hfuel))
    have hleft : cs.length < fuel := by
      rw [List.length_cons] at hfuel
      omega
    rw [List.flatMap_cons, List.append_assoc] at h
    obtain ⟨val₁, i₁, pull₁, hstep, h₁, hi₁, hread₁⟩ := rimTextLoop_char fuel json hc hcf h hi
    obtain ⟨val', i', pull', hloop, h', hi', hread'⟩ := ih hnull hfeff hleft h₁ hi₁
    have hcons : utf8 (c :: cs) = String.utf8EncodeChar c ++ utf8 cs := List.flatMap_cons
    refine ⟨val', i', pull', hstep.trans hloop, ?_, ?_, ?_⟩
    · rw [hcons, ← List.append_assoc, List.length_append, ← Nat.add_assoc]
      exact h'
    · rw [hcons, List.length_append, ← Nat.add_assoc]
      exact hi'
    · rw [List.flatMap_cons, List.length_append, ← Nat.add_assoc, ← hread₁]
      exact hread'

theorem rimTextLoop_chars (json : Bool) {cs : List Char} (hnull : ∀ c ∈ cs, c.val.toNat ≠ 0)
    (hfeff : ∀ c ∈ cs, c.val.toNat ≠ 0xFEFF) {fuel : Nat} (hfuel : cs.length < fuel)
    (h : InPlace val out (cs.flatMap (charText json) ++ [0]) i j) (hi : i = j + pull) :
    ∃ val' i' pull', rimTextLoop fuel val i pull = .ok (val', i', pull') ∧
      InPlace val' (out ++ utf8 cs) [0] i' (j + (utf8 cs).length) ∧
      i' = j + (utf8 cs).length + pull' ∧ i' = i + (cs.flatMap (charText json)).length :=
  rimTextLoop_written json (Or.inr rfl) hnull hfeff hfuel h hi

end Loop

/-- The string in a block after `rim_text_to_utf`, with the null after it: of the length
that was set, or else of the length it had. -/
def TextEnd.memory (t : TextEnd) (len : Nat) : Bytes := t.val.take (t.len.getD len + 1)

/-- `rim_text_to_utf` gives back what `rim_utf_to_text` was given, but for a string with
U+FEFF. -/
theorem rimTextToUtf_rimUtfToText (json : Bool) {cs : List Char} (hnull : ∀ c ∈ cs, c.val.toNat ≠ 0)
    (hfeff : ∀ c ∈ cs, c.val.toNat ≠ 0xFEFF) :
    ∃ text t, rimUtfToText (utf8 cs ++ [0]) (utf8 cs).length json = .ok text ∧
      rimTextToUtf (text ++ [0]) false true true = .ok t ∧
      t.memory text.length = utf8 cs ++ [0] ∧ t.len.getD text.length = (utf8 cs).length := by
  let text := cs.flatMap (charText json)
  have hfuel : cs.length < (text ++ [0]).length + 1 := by
    have hlen : cs.length ≤ text.length := by
      have hone : ∀ c, 1 ≤ (charText json c).length := by
        intro c
        unfold charText rimByteText rimUnicodeText
        split_ifs <;> simp
      show cs.length ≤ (cs.flatMap (charText json)).length
      clear hnull hfeff
      induction cs with
      | nil => simp
      | cons c cs ih =>
        have hc := hone c
        rw [List.flatMap_cons, List.length_append, List.length_cons]
        omega
    rw [List.length_append]
    omega
  obtain ⟨val, i, pull, hloop, h, hi, hread⟩ := rimTextLoop_chars json hnull hfeff hfuel
    (InPlace.start (text ++ [0])) (Nat.zero_add 0).symm
  rw [List.nil_append, Nat.zero_add] at h
  rw [Nat.zero_add] at hi
  have htext := rimUtfToText_utf8 json cs
  have hget : val[i]? = some 0 := h.get_zero
  by_cases hp : pull = 0
  · -- nothing was written
    subst hp
    rw [Nat.add_zero] at hi
    subst hi
    have hkeep := h.keep
    have hlen : text.length = (utf8 cs).length := by
      rw [hread, Nat.zero_add]
    refine ⟨text, { val, last := (utf8 cs).length, len := none }, htext, ?_, ?_, hlen⟩
    · simp only [rimTextToUtf, Bool.false_eq_true, if_false, if_true, hloop, bind, Except.bind, ne_eq,
        not_true_eq_false, inBlock, hget, and_false, false_and]
    · show val.take (text.length + 1) = _
      rw [hlen]
      exact hkeep.written
  · have hback : i - pull = (utf8 cs).length := by omega
    have hput := h.put (by omega) 0
    have hpoke := poke_eq h.lt 0
    have hget' : (val.set (utf8 cs).length 0)[i]? = some 0 := hput.get_zero
    refine ⟨text, { val := val.set (utf8 cs).length 0, last := i, len := some (utf8 cs).length },
      htext, ?_, hput.written, rfl⟩
    simp only [rimTextToUtf, Bool.false_eq_true, if_false, if_true, hloop, bind, Except.bind, ne_eq,
      hp, not_false_eq_true, hback, hpoke, inBlock, hget', and_false, and_self]

/-- Characters of one to four bytes, and escapes. -/
theorem rimTextToUtf_rimUtfToText_kinds :
    ∃ text t, rimUtfToText (utf8 ['a', '"', '\n', 'љ', '€', '𝄞'] ++ [0])
        (utf8 ['a', '"', '\n', 'љ', '€', '𝄞']).length true = .ok text ∧
      rimTextToUtf (text ++ [0]) false true true = .ok t ∧
      t.memory text.length = utf8 ['a', '"', '\n', 'љ', '€', '𝄞'] ++ [0] ∧
      t.len.getD text.length = (utf8 ['a', '"', '\n', 'љ', '€', '𝄞']).length :=
  rimTextToUtf_rimUtfToText true (by simp) (by simp)

theorem rimTextToUtf_not_feff :
    ¬ ∀ (json : Bool) (cs : List Char), (∀ c ∈ cs, c.val.toNat ≠ 0) →
      ∃ text t, rimUtfToText (utf8 cs ++ [0]) (utf8 cs).length json = .ok text ∧
        rimTextToUtf (text ++ [0]) false true true = .ok t := by
  intro h
  obtain ⟨text, t, htext, ht⟩ := h true ['\uFEFF'] (by simp)
  have hfeff : rimUtfToText (utf8 ['\uFEFF'] ++ [0]) (utf8 ['\uFEFF']).length true =
      .ok [92, 117, 102, 101, 102, 102] := by decide
  rw [hfeff] at htext
  obtain rfl := Except.ok.inj htext
  have herr : rimTextToUtf ([92, 117, 102, 101, 102, 102] ++ [0]) false true true =
      .error (.err .RIM_UTF_ERR_ILLEGAL_CHARACTER_FEFF) := by decide
  rw [herr] at ht
  cases ht

end RimStone
