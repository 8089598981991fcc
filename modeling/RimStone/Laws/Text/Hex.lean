import RimStone.Laws.Memory.Chars
import RimStone.Text.Hex

/-!
# What hexadecimal conversion reads

`rim_bin2hex` writes pairs of digits that `rim_hex2bin` turns back into the bytes. Of other texts,
`rim_hex2bin` makes a byte from each pair of digits up to the first byte that is no digit. It only
checks that there is a first digit to a pair: where the length is odd and all of it is digits, the second
one of the last pair is the byte behind the part that is to be converted.
-/

namespace RimStone

/-- The bytes that pairs of digits make, up to what is no digit. -/
def hexPairs : Bytes → Bytes
  | x :: y :: s =>
    match urlDig x, urlDig y with
    | some h, some l => (h <<< 4 + l) :: hexPairs s
    | _, _ => []
  | _ => []

/-- `rim_hex2bin` keeps to the first `ilen` bytes, and to what it allocated. -/
structure HexWithin (s : Bytes) (ilen : Nat) (block : Bytes) : Prop where
  /-- it returns where no other byte can be read -/
  reads : ∃ bytes, rimHex2bin (s.take ilen) s.length ilen block = .ok bytes
  /-- and it returns the same for any string that begins with these bytes -/
  same : ∀ t : Bytes, ilen ≤ t.length → t.take ilen = s.take ilen →
    rimHex2bin (t ++ [0]) t.length ilen block = rimHex2bin (s.take ilen) s.length ilen block

section Hex

variable {src out free : Bytes} {n : Nat}

@[simp] theorem hexPairs_nil : hexPairs [] = [] := rfl

/-- What is no digit ends the bytes, as the first or the second one of a pair. -/
theorem hexPairs_stop {x : UInt8} {s : Bytes} (h : urlDig x = none ∨ ∃ y t, s = y :: t ∧ urlDig y = none) :
    hexPairs (x :: s) = [] := by
  cases s with
  | nil => rfl
  | cons y s =>
    rw [hexPairs]
    split
    next hx hy =>
      obtain hnone | ⟨y', t, hs, hnone⟩ := h
      · cases hx.symm.trans hnone
      · obtain ⟨rfl, rfl⟩ := List.cons.inj hs
        cases hy.symm.trans hnone
    next => rfl

theorem hexPairs_pair {x y d l : UInt8} {s : Bytes} (hx : urlDig x = some d) (hy : urlDig y = some l) :
    hexPairs (x :: y :: s) = (d <<< 4 + l) :: hexPairs s := by
  rw [hexPairs, hx, hy]

theorem length_hexPairs (s : Bytes) : 2 * (hexPairs s).length ≤ s.length := by
  induction hn : s.length using Nat.strong_induction_on generalizing s with
  | _ n ih =>
    cases s with
    | nil => exact Nat.zero_le _
    | cons x s =>
      cases hx : urlDig x with
      | none =>
        rw [hexPairs_stop (.inl hx)]
        exact Nat.zero_le _
      | some d =>
        cases s with
        | nil => exact Nat.zero_le _
        | cons y s =>
          cases hy : urlDig y with
          | none =>
            rw [hexPairs_stop (.inr ⟨y, s, rfl, hy⟩)]
            exact Nat.zero_le _
          | some l =>
            rw [List.length_cons, List.length_cons] at hn
            have hle := ih s.length (by omega) s rfl
            rw [hexPairs_pair hx hy, List.length_cons]
            omega

/-- A pair of digits is read as long as there is one to read. -/
theorem hex2binLoop_even (fuel : Nat) (pre out free : Bytes) (h : n ≤ src.length)
    (hn : n % 2 = 0 ∨ ∃ c ∈ src.take n, urlDig c = none) (hfree : n / 2 ≤ free.length) (hfuel : n < 2 * fuel) :
    hex2binLoop (pre ++ src) (pre.length + n : Nat) fuel (out ++ free) pre.length out.length =
      some (out ++ hexPairs (src.take n) ++ free.drop (hexPairs (src.take n)).length,
        (out ++ hexPairs (src.take n)).length) := by
  induction fuel generalizing pre src out free n with
  | zero => omega
  | succ fuel ih =>
    rw [hex2binLoop]
    cases n with
    | zero =>
      rw [if_neg (by omega), List.take_zero, hexPairs_nil, List.append_nil]
      rfl
    | succ n =>
      obtain ⟨x, src, rfl⟩ := List.exists_cons_of_length_pos (Nat.lt_of_lt_of_le (Nat.succ_pos n) h)
      rw [if_pos (by omega), getElem?_middle]
      simp only [bind, Option.bind]
      cases hx : urlDig x with
      | none =>
        rw [List.take_succ_cons, hexPairs_stop (.inl hx), List.append_nil]
        rfl
      | some d =>
        cases n with
        | zero =>
          obtain ⟨c, hc, hbad⟩ := hn.resolve_left (by omega)
          obtain rfl := List.mem_singleton.mp hc
          cases hx.symm.trans hbad
        | succ n =>
          obtain ⟨y, src, rfl⟩ : ∃ y t, src = y :: t :=
            List.exists_cons_of_length_pos (by rw [List.length_cons] at h; omega)
          have hy : (pre ++ x :: y :: src)[pre.length + 1]? = some y := by
            rw [List.getElem?_append_right (by omega), Nat.add_sub_cancel_left]
            rfl
          simp only [hy]
          cases hl : urlDig y with
          | none =>
            rw [List.take_succ_cons, List.take_succ_cons, hexPairs_stop (.inr ⟨y, _, rfl, hl⟩), List.append_nil]
            rfl
          | some l =>
            obtain ⟨z, free, rfl⟩ : ∃ z t, free = z :: t := List.exists_cons_of_length_pos (by omega)
            have hrest : n % 2 = 0 ∨ ∃ c ∈ src.take n, urlDig c = none := by
              refine hn.imp (by omega) ?_
              rintro ⟨c, hc, hbad⟩
              obtain rfl | hc := List.mem_cons.mp hc
              · cases hx.symm.trans hbad
              · obtain rfl | hc := List.mem_cons.mp hc
                · cases hl.symm.trans hbad
                · exact ⟨c, hc, hbad⟩
            have hstep := ih (pre ++ [x, y]) (out ++ [d <<< 4 + l]) free
              (show n ≤ src.length by simpa using h) hrest (by rw [List.length_cons] at hfree; omega) (by omega)
            have hidx : pre.length + (n + 1 + 1) = pre.length + (0 + 1 + 1) + n := by omega
            simp only [poke_middle]
            rw [List.take_succ_cons, List.take_succ_cons, hexPairs_pair hx hl, hidx]
            simp only [List.append_assoc, List.cons_append, List.nil_append, List.length_append, List.length_cons,
              List.length_nil] at hstep
            rw [hstep]
            simp only [List.append_assoc, List.cons_append, List.length_append, List.length_cons, List.drop_succ_cons]

/-- An odd number of digits is read one byte too far. -/
theorem hex2binLoop_odd (fuel : Nat) (pre out free : Bytes) (hdigits : ∀ c ∈ src, urlDig c ≠ none) (hodd : src.length % 2 = 1)
    (hfree : src.length / 2 ≤ free.length) :
    hex2binLoop (pre ++ src) (pre.length + src.length : Nat) fuel (out ++ free) pre.length out.length = none := by
  induction fuel generalizing pre src out free with
  | zero => rfl
  | succ fuel ih =>
    obtain ⟨x, src, rfl⟩ := List.exists_cons_of_length_pos (show 0 < src.length by omega)
    obtain ⟨hx, hdigits⟩ := List.forall_mem_cons.mp hdigits
    obtain ⟨d, hx⟩ := Option.ne_none_iff_exists'.mp hx
    rw [hex2binLoop, if_pos (by rw [List.length_cons]; omega), getElem?_middle]
    simp only [bind, Option.bind, hx]
    cases src with
    | nil =>
      have hbehind : (pre ++ [x])[pre.length + 1]? = none := List.getElem?_eq_none (by simp)
      simp only [hbehind]
    | cons y src =>
      obtain ⟨hy, hdigits⟩ := List.forall_mem_cons.mp hdigits
      obtain ⟨l, hl⟩ := Option.ne_none_iff_exists'.mp hy
      have hy : (pre ++ x :: y :: src)[pre.length + 1]? = some y := by
        rw [List.getElem?_append_right (by omega), Nat.add_sub_cancel_left]
        rfl
      rw [List.length_cons, List.length_cons] at hodd hfree
      obtain ⟨z, free, rfl⟩ : ∃ z t, free = z :: t := List.exists_cons_of_length_pos (by omega)
      have hstep := ih (pre ++ [x, y]) (out ++ [d <<< 4 + l]) free hdigits (by omega)
        (by rw [List.length_cons] at hfree; omega)
      have hidx : pre.length + (src.length + 1 + 1) = pre.length + (0 + 1 + 1) + src.length := by omega
      simp only [hy, hl, poke_middle]
      rw [List.length_cons, List.length_cons, hidx]
      simp only [List.append_assoc, List.cons_append, List.nil_append, List.length_append, List.length_cons,
        List.length_nil] at hstep
      exact hstep

/-! ## What `rim_hex2bin` returns -/

theorem hexLength_part {l : Nat} (h : n ≤ l) : hexLength l n = .ok (n : Int) := by
  unfold hexLength
  rw [if_neg (by omega), if_neg (by omega)]

/-- What was written is ended with a null, for which there is room. -/
theorem poke_end {x : UInt8} (out free : Bytes) :
    ∃ dst, poke (out ++ x :: free) out.length 0 = some dst ∧ dst.take out.length = out :=
  ⟨out ++ 0 :: free, poke_middle out x free 0, List.take_left⟩

/-- The bytes of a part of a string that has an even length or ends at what is no digit, whatever is behind it. -/
theorem rimHex2bin_part {s : Bytes} {ilen lsrc : Nat} {block : Bytes} (hl : ilen ≤ lsrc) (h : ilen ≤ s.length)
    (heven : ilen % 2 = 0 ∨ ∃ c ∈ s.take ilen, urlDig c = none) (hblock : (block.length : Int) = hex2binSize ilen) :
    rimHex2bin s lsrc ilen block = .ok (hexPairs (s.take ilen)) := by
  have hsize : block.length = ilen / 2 + 2 := by
    have hdiv : (ilen : Int).tdiv 2 = (ilen / 2 : Nat) := rfl
    unfold hex2binSize at hblock
    omega
  have hpairs := length_hexPairs (s.take ilen)
  rw [List.length_take, Nat.min_eq_left h] at hpairs
  have hloop := hex2binLoop_even (ilen + 1) [] [] block h heven (by omega) (by omega)
  rw [List.nil_append, List.nil_append, List.nil_append, List.length_nil, Nat.zero_add] at hloop
  obtain ⟨x, free, hfree⟩ := List.exists_cons_of_length_pos (show 0 < (block.drop (hexPairs (s.take ilen)).length).length by
      rw [List.length_drop]; omega)
  obtain ⟨dst, hpoke, hdst⟩ := poke_end (x := x) (hexPairs (s.take ilen)) free
  unfold rimHex2bin
  rw [hexLength_part hl]
  simp only [bind, Except.bind, Option.bind, Int.toNat_natCast, hloop, hfree, hpoke, hdst]

theorem rimHex2bin_behind {s : Bytes} {lsrc : Nat} {block : Bytes} (hl : s.length ≤ lsrc) (hdigits : ∀ c ∈ s, urlDig c ≠ none)
    (hodd : s.length % 2 = 1) (hblock : (block.length : Int) = hex2binSize s.length) :
    rimHex2bin s lsrc s.length block = .error .undefined := by
  have hsize : block.length = s.length / 2 + 2 := by
    have hdiv : (s.length : Int).tdiv 2 = (s.length / 2 : Nat) := rfl
    unfold hex2binSize at hblock
    omega
  have hloop := hex2binLoop_odd (s.length + 1) [] [] block hdigits hodd (by omega)
  rw [List.nil_append, List.nil_append, List.length_nil, Nat.zero_add] at hloop
  unfold rimHex2bin
  rw [hexLength_part hl]
  simp only [bind, Except.bind, Option.bind, Int.toNat_natCast, hloop]

/-- `rim_hex2bin` keeps to its part of the string where that has an even length or is not all digits. -/
theorem hexWithin_iff {s : Bytes} {ilen : Nat} {block : Bytes} (h : ilen ≤ s.length)
    (hblock : (block.length : Int) = hex2binSize ilen) :
    HexWithin s ilen block ↔ ilen % 2 = 0 ∨ ∃ c ∈ s.take ilen, urlDig c = none := by
  have hlen : (s.take ilen).length = ilen := List.length_take_of_le h
  have htake : (s.take ilen).take ilen = s.take ilen := List.take_of_length_le (by omega)
  constructor
  · intro hw
    by_contra hno
    obtain ⟨hodd, hdigits⟩ := not_or.mp hno
    obtain ⟨bytes, hok⟩ := hw.reads
    have hbehind : rimHex2bin (s.take ilen) s.length (s.take ilen).length block = .error .undefined :=
      rimHex2bin_behind (by omega) (fun c hc hbad => hdigits ⟨c, hc, hbad⟩) (by omega) (by rw [hlen]; exact hblock)
    rw [hlen] at hbehind
    cases hok.symm.trans hbehind
  · intro heven
    have hpart := rimHex2bin_part (s := s.take ilen) h (by omega) (by rwa [htake]) hblock
    refine ⟨⟨_, hpart⟩, fun t ht hsame => ?_⟩
    have hbegin : (t ++ [0]).take ilen = s.take ilen := by rw [List.take_append_of_le_length ht, hsame]
    rw [hpart, rimHex2bin_part ht (by rw [List.length_append]; omega) (by rwa [hbegin]) hblock, hbegin, htake]

/-! ## There and back -/

/-- The digits of a byte are its two halves. -/
theorem urlDig_byteHex (x : UInt8) : ∃ a b h l, byteHex x = [a, b] ∧ urlDig a = some h ∧ urlDig b = some l ∧ h <<< 4 + l = x := by
  have hall : ∀ i : Fin 256, ((urlDig (rimToHex (i.val / 16 % 16))).bind fun h =>
      (urlDig (rimToHex (i.val % 16))).map fun l => h <<< 4 + l) = some (UInt8.ofNat i.val) := by decide +kernel
  have hx := hall ⟨x.toNat, x.toNat_lt⟩
  rw [UInt8.ofNat_toNat] at hx
  obtain ⟨h, hh, hl⟩ := Option.bind_eq_some_iff.mp hx
  obtain ⟨l, hl, hbyte⟩ := Option.map_eq_some_iff.mp hl
  exact ⟨_, _, h, l, rfl, hh, hl, hbyte⟩

theorem hexPairs_flatMap (s : Bytes) : hexPairs (s.flatMap byteHex) = s := by
  induction s with
  | nil => rfl
  | cons x s ih =>
    obtain ⟨a, b, h, l, hdigits, hh, hl, hbyte⟩ := urlDig_byteHex x
    rw [List.flatMap_cons, hdigits]
    show hexPairs (a :: b :: s.flatMap byteHex) = x :: s
    rw [hexPairs_pair hh hl, hbyte, ih]

/-- Two digits are written for each byte. -/
theorem bin2hexLoop_eq (fuel : Nat) (pre out free : Bytes) (h : n ≤ src.length) (hfree : 2 * n ≤ free.length) (hfuel : n < fuel) :
    bin2hexLoop (pre ++ src) (pre.length + n : Nat) fuel (out ++ free) pre.length out.length =
      some (out ++ (src.take n).flatMap byteHex ++ free.drop (2 * n),
        (out ++ (src.take n).flatMap byteHex).length) := by
  induction fuel generalizing pre src out free n with
  | zero => omega
  | succ fuel ih =>
    rw [bin2hexLoop]
    cases n with
    | zero =>
      rw [if_neg (by omega), List.take_zero, List.flatMap_nil, List.append_nil]
      rfl
    | succ n =>
      obtain ⟨x, src, rfl⟩ := List.exists_cons_of_length_pos (Nat.lt_of_lt_of_le (Nat.succ_pos n) h)
      have hcopy : memcpy (out ++ free) out.length (byteHex x) =
          some (out ++ byteHex x ++ free.drop 2) := memcpy_append out (by show 2 ≤ free.length; omega)
      have hstep := ih (pre ++ [x]) (out ++ byteHex x) (free.drop 2) (show n ≤ src.length by simpa using h)
        (by rw [List.length_drop]; omega) (by omega)
      have hidx : pre.length + (n + 1) = (pre ++ [x]).length + n := by
        rw [List.length_append, List.length_singleton]
        omega
      have hnext : out.length + 2 = (out ++ byteHex x).length := by
        rw [List.length_append]
        rfl
      have hread : pre.length + 1 = (pre ++ [x]).length := by rw [List.length_append, List.length_singleton]
      have hpre : pre ++ x :: src = pre ++ [x] ++ src := by rw [List.append_assoc, List.singleton_append]
      rw [if_pos (by omega), getElem?_middle]
      simp only [bind, Option.bind, hcopy]
      rw [hidx, hnext, hpre, hread, hstep,
        List.take_succ_cons, List.flatMap_cons, List.append_assoc out, List.drop_drop, Nat.mul_succ, Nat.add_comm 2]

theorem length_flatMap_byteHex (s : Bytes) : (s.flatMap byteHex).length = 2 * s.length := by
  induction s with
  | nil => rfl
  | cons x s ih =>
    have htwo : (byteHex x).length = 2 := rfl
    rw [List.flatMap_cons, List.length_append, ih, List.length_cons, htwo]
    omega

theorem rimBin2hex_eq {s pref block : Bytes} {ilen : Nat} (h : ilen ≤ s.length)
    (hblock : block.length = pref.length + ilen * 2 + 1) :
    rimBin2hex (s ++ [0]) s.length ilen pref block = .ok (pref ++ (s.take ilen).flatMap byteHex) := by
  have hpref : memcpy block 0 pref = some (pref ++ block.drop pref.length) := memcpy_append [] (by omega)
  have hloop := bin2hexLoop_eq (ilen + 1) [] pref (block.drop pref.length)
    (show ilen ≤ (s ++ [0]).length by rw [List.length_append]; omega) (show 2 * ilen ≤ _ by rw [List.length_drop]; omega) (by omega)
  rw [List.nil_append, List.length_nil, Nat.zero_add, List.take_append_of_le_length h] at hloop
  obtain ⟨x, free, hfree⟩ := List.exists_cons_of_length_pos
    (show 0 < ((block.drop pref.length).drop (2 * ilen)).length by rw [List.length_drop, List.length_drop]; omega)
  obtain ⟨dst, hpoke, hdst⟩ := poke_end (x := x) (pref ++ (s.take ilen).flatMap byteHex) free
  unfold rimBin2hex
  rw [hexLength_part h]
  simp only [bind, Except.bind, Option.bind, Int.toNat_natCast, hpref, hloop, hfree, hpoke, hdst]

theorem rimHex2bin_whole {hex block : Bytes} (heven : hex.length % 2 = 0)
    (hblock : (block.length : Int) = hex2binSize hex.length) :
    rimHex2bin (hex ++ [0]) hex.length (-1) block = .ok (hexPairs hex) := by
  have hwhole : hexLength hex.length (-1) = hexLength hex.length hex.length := by
    rw [hexLength_part (Nat.le_refl _)]
    rfl
  have hpart := rimHex2bin_part (s := hex ++ [0]) (Nat.le_refl hex.length) (by rw [List.length_append]; omega)
    (.inl heven) hblock
  rw [List.take_left] at hpart
  rw [← hpart]
  unfold rimHex2bin
  rw [hwhole]

/-- What `rim_bin2hex` writes after the prefix is turned back into the bytes, and `rim_hex2bin` keeps to its part
of a string where that has an even length or is not all digits. -/
theorem rimHex2bin_exact (s : Bytes) {ilen : Nat} (h : ilen ≤ s.length) :
    (∀ pref block block' : Bytes, block.length = pref.length + ilen * 2 + 1 →
      (block'.length : Int) = hex2binSize (2 * ilen : Nat) →
      ∃ hex, rimBin2hex (s ++ [0]) s.length ilen pref block = .ok (pref ++ hex) ∧
        rimHex2bin (hex ++ [0]) hex.length (-1) block' = .ok (s.take ilen)) ∧
    ∀ block : Bytes, (block.length : Int) = hex2binSize ilen →
      (HexWithin s ilen block ↔ ilen % 2 = 0 ∨ ∃ c ∈ s.take ilen, urlDig c = none) := by
  refine ⟨fun pref block block' hblock hblock' => ⟨_, rimBin2hex_eq h hblock, ?_⟩, fun block => hexWithin_iff h⟩
  have hlen : ((s.take ilen).flatMap byteHex).length = 2 * ilen := by
    rw [length_flatMap_byteHex, List.length_take_of_le h]
  rw [← hlen] at hblock'
  have hwhole := rimHex2bin_whole (show ((s.take ilen).flatMap byteHex).length % 2 = 0 by omega) hblock'
  rwa [hexPairs_flatMap] at hwhole

/-- One byte there and back, and one digit that is read alone. -/
theorem rimHex2bin_exact_one :
    ∃ hex, rimBin2hex (ascii "g" ++ [0]) 1 1 (ascii "0x") (List.replicate 5 0) = .ok (ascii "0x" ++ hex) ∧
      rimHex2bin (hex ++ [0]) hex.length (-1) (List.replicate 3 0) = .ok (ascii "g") :=
  (rimHex2bin_exact (ascii "g") (Nat.le_refl 1)).1 _ _ _ rfl rfl

/-- The first digit of two, converted alone. -/
theorem rimHex2bin_not_within : ¬ HexWithin (ascii "67") 1 (List.replicate 2 0) := by
  intro h
  obtain ⟨bytes, hok⟩ := h.reads
  cases hok

end Hex

end RimStone
