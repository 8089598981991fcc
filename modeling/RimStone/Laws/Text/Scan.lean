import RimStone.Text.Scan
import RimStone.Laws.Memory.Chars

/-!
# A string is scanned where asked

`memchr` and `memmem` answer the first place of some bytes, so `scan-string` answers the first one in the area,
counted from the beginning of the string, wherever the area is one of the string (`scanStatus_finds`). With a length
that is what the check before it is for, as long as the sum it makes is one of 64 bits. Without a length nothing is
checked but that the start is not below zero; beyond the end the length of the area is below zero, and bytes that are
not the string's are searched.
-/

namespace RimStone

open RimStone.Lib

/-! ## Places of bytes -/

/-- The bytes `t` begin at `k`. -/
def BeginsAt (t b : Bytes) (k : Nat) : Prop := k + t.length ≤ b.length ∧ (b.drop k).take t.length = t

theorem strstr_first (t b : Bytes) : FirstWhere (BeginsAt t b) (strstr b t) := by
  apply (strstr_where t b).congr
  intro k
  unfold BeginsAt
  refine ⟨fun ⟨hk, h⟩ => ⟨?_, h⟩, fun ⟨hk, h⟩ => ⟨by omega, h⟩⟩
  have hlen := congrArg List.length h
  rw [List.length_take, List.length_drop] at hlen
  omega

/-- To search a byte is to search a string of one. -/
theorem memchr_eq (c : UInt8) (b : Bytes) : memchr c b = strstr b [c] := by
  induction b with
  | nil => rfl
  | cons x b ih =>
    rw [memchr, strstr, ih]
    by_cases hx : x = c
    · rw [if_pos hx, if_pos (by rw [hx]; rfl)]
    · have htake : ¬ (x :: b).take [c].length = [c] := fun h => hx (List.cons.inj h).1
      rw [if_neg hx, if_neg htake]

theorem search_first (fors : ScanFor) (b : Bytes) : FirstWhere (BeginsAt fors.bytes b) (fors.search b) := by
  cases fors with
  | number n =>
    show FirstWhere (BeginsAt [charOf n] b) (memchr (charOf n) b)
    rw [memchr_eq]
    exact strstr_first _ b
  | string s => exact strstr_first s b

/-! ## The area -/

/-- The bytes `t` are in a string at `p`, from `start` on and not beyond `limit`. -/
def OccursIn (mtext t : Bytes) (start limit : Int) (p : Nat) : Prop :=
  start ≤ p ∧ p + t.length ≤ limit ∧ (mtext.drop p).take t.length = t

def positionStatus : Option Nat → Int
  | none => RIM_ERR_POSITION
  | some p => p

variable {mtext : Bytes} {fors : ScanFor} {swith len : Option Int}

/-- An area of the string is searched. -/
theorem scanStatus_finds (mtext : Bytes) (fors : ScanFor) {start n : Int} (hstart : 0 ≤ start) (hn : 0 ≤ n) (hlimit : start + n ≤ mtext.length) :
    ∃ o, scanStatus mtext fors start n = .ok (positionStatus o) ∧
      FirstWhere (OccursIn mtext fors.bytes start (start + n)) o := by
  obtain ⟨s, rfl⟩ := Int.eq_ofNat_of_zero_le hstart
  obtain ⟨m, rfl⟩ := Int.eq_ofNat_of_zero_le hn
  have hle : s + m ≤ mtext.length := by omega
  have harea : scanArea (mtext ++ [0]) s m = some ((mtext.drop s).take m) := by
    unfold scanArea
    rw [if_pos ⟨hstart, hn, by rw [List.length_append]; push_cast; omega⟩, Int.toNat_natCast, Int.toNat_natCast,
      List.drop_append_of_le_length (by omega), List.take_append_of_le_length (by rw [List.length_drop]; omega)]
  have hlen : ((mtext.drop s).take m).length = m := by
    rw [List.length_take, List.length_drop]
    omega
  refine ⟨(fors.search ((mtext.drop s).take m)).map (s + ·), ?_, ?_⟩
  · unfold scanStatus
    simp only [harea]
    cases fors.search ((mtext.drop s).take m) with
    | none => rfl
    | some k => rfl
  · apply (search_first fors _).shift
    · intro p hp
      have := hp.1
      omega
    · intro k
      unfold BeginsAt OccursIn
      rw [hlen]
      have hpart : k + fors.bytes.length ≤ m →
          (((mtext.drop s).take m).drop k).take fors.bytes.length = (mtext.drop (s + k)).take fors.bytes.length := by
        intro hk
        rw [List.drop_take, List.take_take, Nat.min_eq_left (by omega), List.drop_drop]
      constructor
      · intro h
        exact ⟨by push_cast; omega, by push_cast; omega, hpart h.1 ▸ h.2⟩
      · intro h
        have hk : k + fors.bytes.length ≤ m := by
          have := h.2.1
          push_cast at this
          omega
        exact ⟨hk, (hpart hk).trans h.2.2⟩

theorem scanStatus_undefined {start n : Int} (h : n < 0) : scanStatus mtext fors start n = .error .undefined := by
  have harea : scanArea (mtext ++ [0]) start n = none := if_neg (by omega)
  unfold scanStatus
  rw [harea]

/-! ## The statement -/

def scanLimit (mtext : Bytes) (swith len : Option Int) : Int := len.elim mtext.length (swith.getD 0 + ·)

def ScanArea (mtext : Bytes) (swith len : Option Int) : Prop :=
  0 ≤ swith.getD 0 ∧ swith.getD 0 ≤ scanLimit mtext swith len ∧ scanLimit mtext swith len ≤ mtext.length

/-- Where the area is one of the string, the status is the first place in it; else an error is reported. -/
structure ScansOnly (mtext : Bytes) (fors : ScanFor) (swith len : Option Int) : Prop where
  found : ScanArea mtext swith len → ∃ o, scanString mtext fors swith len = .ok (positionStatus o) ∧
    FirstWhere (OccursIn mtext fors.bytes (swith.getD 0) (scanLimit mtext swith len)) o
  reported : ¬ ScanArea mtext swith len → ∃ message, scanString mtext fors swith len = .error (.report message ())

/-- The start is below zero; or there is no length and it is not beyond the string; or there is one that is below
zero, or makes a sum of 64 bits. -/
def ScanChecked (mtext : Bytes) (swith : Option Int) : Option Int → Prop
  | none => swith.getD 0 ≤ mtext.length
  | some len => swith.getD 0 < 0 ∨ len < 0 ∨ swith.getD 0 + len < 2 ^ 63

theorem scanString_negative (h : swith.getD 0 < 0) :
    ∃ message, scanString mtext fors swith len = .error (.report message ()) := ⟨_, if_pos h⟩

/-- The check that is made where there is a length. -/
theorem scanString_limit (mtext : Bytes) (fors : ScanFor) {n : Int} (hstart : ¬ swith.getD 0 < 0) (hn : ¬ n < 0) (hsum : swith.getD 0 + n < 2 ^ 63) :
    scanString mtext fors swith (some n) =
      if swith.getD 0 + n > mtext.length then
        .error (.report "Scan area in string extends to byte [%ld] with string limit [%ld]" ())
      else scanStatus mtext fors (swith.getD 0) n := by
  have hadd : rimNumAdd (swith.getD 0) n = some (swith.getD 0 + n) := if_pos ⟨by omega, hsum⟩
  refine (if_neg hstart).trans ((if_neg hn).trans ?_)
  simp only [hadd]

/-- A string is scanned only in the area that is asked for just where the area is checked. -/
theorem scanString_only_iff (mtext : Bytes) (fors : ScanFor) (swith len : Option Int) :
    ScansOnly mtext fors swith len ↔ ScanChecked mtext swith len := by
  by_cases hstart : swith.getD 0 < 0
  · -- the first check
    have hchecked : ScanChecked mtext swith len := by
      cases len with
      | none => exact Int.le_trans (Int.le_of_lt hstart) (Int.natCast_nonneg _)
      | some len => exact .inl hstart
    refine iff_of_true ⟨fun h => ?_, fun _ => scanString_negative hstart⟩ hchecked
    exact absurd h.1 (Int.not_le.mpr hstart)
  · cases len with
    | none =>
      have hrun : scanString mtext fors swith none =
          scanStatus mtext fors (swith.getD 0) (mtext.length - swith.getD 0) := if_neg hstart
      show ScansOnly mtext fors swith none ↔ swith.getD 0 ≤ mtext.length
      by_cases hle : swith.getD 0 ≤ mtext.length
      · have harea : ScanArea mtext swith none := ⟨by omega, hle, Int.le_refl _⟩
        refine iff_of_true ⟨fun _ => ?_, fun h => absurd harea h⟩ hle
        obtain ⟨o, ho, hfirst⟩ := scanStatus_finds mtext fors (Int.not_lt.mp hstart)
          (n := mtext.length - swith.getD 0) (by omega) (by omega)
        refine ⟨o, hrun.trans ho, ?_⟩
        rw [show swith.getD 0 + ((mtext.length : Int) - swith.getD 0) = mtext.length by omega] at hfirst
        exact hfirst
      · -- the area would end before it begins
        refine iff_of_false (fun h => ?_) hle
        have hundefined : scanString mtext fors swith none = .error .undefined :=
          hrun.trans (scanStatus_undefined (by omega))
        obtain ⟨message, hreport⟩ := h.reported fun harea => hle harea.2.1
        cases hundefined.symm.trans hreport
    | some len =>
      by_cases hlen : len < 0
      · have hreport : scanString mtext fors swith (some len) = .error (.report "length is negative [%ld]" ()) :=
          (if_neg hstart).trans (if_pos hlen)
        refine iff_of_true ⟨fun h => ?_, fun _ => ⟨_, hreport⟩⟩ (.inr (.inl hlen))
        have hle : swith.getD 0 ≤ swith.getD 0 + len := h.2.1
        omega
      · by_cases hsum : swith.getD 0 + len < 2 ^ 63
        · have hrun := scanString_limit mtext fors hstart hlen hsum
          refine iff_of_true ⟨fun h => ?_, fun h => ?_⟩ (.inr (.inr hsum))
          · have hlimit : swith.getD 0 + len ≤ mtext.length := h.2.2
            obtain ⟨o, ho, hfirst⟩ := scanStatus_finds mtext fors (Int.not_lt.mp hstart) (Int.not_lt.mp hlen) hlimit
            exact ⟨o, hrun.trans ((if_neg (Int.not_lt.mpr hlimit)).trans ho), hfirst⟩
          · have hlimit : swith.getD 0 + len > mtext.length := by
              by_contra hle
              have hbetween : swith.getD 0 ≤ swith.getD 0 + len := by omega
              exact h ⟨by omega, hbetween, Int.not_lt.mp hle⟩
            exact ⟨_, hrun.trans (if_pos hlimit)⟩
        · -- the sum that is checked is not one of 64 bits
          have hadd : rimNumAdd (swith.getD 0) len = none := if_neg fun h => hsum h.2
          have hundefined : scanString mtext fors swith (some len) = .error .undefined := by
            refine (if_neg hstart).trans ((if_neg hlen).trans ?_)
            simp only [hadd]
          refine iff_of_false (fun h => ?_) (fun h => h.elim hstart fun h => h.elim hlen hsum)
          by_cases harea : ScanArea mtext swith (some len)
          · obtain ⟨o, ho, -⟩ := h.found harea
            cases hundefined.symm.trans ho
          · obtain ⟨message, hreport⟩ := h.reported harea
            cases hundefined.symm.trans hreport

theorem scanString_beyond : ¬ ScansOnly (ascii "ab") (.number 97) (some 3) none := by
  intro h
  have hundefined : scanString (ascii "ab") (.number 97) (some 3) none = .error .undefined := rfl
  obtain ⟨message, hreport⟩ := h.reported fun harea => absurd harea.2.1 (by decide)
  cases hundefined.symm.trans hreport

end RimStone
