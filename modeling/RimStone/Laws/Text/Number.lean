import Mathlib.Data.Nat.Digits.Lemmas
import RimStone.Laws.Text.Strings
import RimStone.Text.Number

/-!
# Numbers are read as they were written

The array of digits holds what `Nat.digits` gives, and it is written backwards to the end of the
string. What `strtoll` makes of the text is the number of its digits. Only the least number has no
negation: it keeps its sign, its digits are negative, and they are read from before the literal.
-/

namespace RimStone

open RimStone.Lib

variable {heap : Heap} {base : Nat}

def digitChar (d : Nat) : UInt8 := if d < 10 then .ofNat (48 + d) else .ofNat (87 + d)

/-- The digits of a number, the first one first. Only zero begins with a zero. -/
def numeral (base n : Nat) : List Nat := if n = 0 then [0] else (Nat.digits base n).reverse

def signedText (base : Nat) (n : Int) : Bytes :=
  (if n < 0 then [45] else []) ++ (numeral base n.natAbs).map digitChar

/-! ## Digits -/

theorem numeral_of_pos {n : Nat} (h : n ≠ 0) : numeral base n = (Nat.digits base n).reverse := if_neg h

theorem numeral_lt (hb : 2 ≤ base) (n : Nat) : ∀ d ∈ numeral base n, d < base := by
  intro d hd
  unfold numeral at hd
  split at hd
  · rw [List.mem_singleton.mp hd]
    omega
  · exact Nat.digits_lt_base hb (List.mem_reverse.mp hd)

theorem number_numeral (n : Nat) : number base (numeral base n) = n := by
  by_cases h : n = 0
  · rw [numeral, if_pos h, h]
    rfl
  · rw [numeral_of_pos h, number_reverse_digits]

theorem numeral_head (base n : Nat) : ∃ d ds, numeral base n = d :: ds ∧ (d = 0 → ds = []) := by
  by_cases h : n = 0
  · refine ⟨0, [], ?_, fun _ => rfl⟩
    rw [numeral, if_pos h]
  · have hne : Nat.digits base n ≠ [] := Nat.digits_ne_nil_iff_ne_zero.mpr h
    have hlast : (Nat.digits base n).getLast hne ≠ 0 := Nat.getLast_digit_ne_zero base h
    refine ⟨(Nat.digits base n).getLast hne, (Nat.digits base n).dropLast.reverse, ?_, ?_⟩
    · rw [numeral_of_pos h]
      conv_lhs => rw [← List.dropLast_append_getLast hne]
      rw [List.reverse_append, List.reverse_singleton]
      rfl
    · intro hzero
      exact absurd hzero hlast

theorem digitChar_all : ∀ d < 36, numberDigits[d]? = some (digitChar d) ∧ digitVal (digitChar d) = some d ∧
    isspace (digitChar d) = false ∧ (digitChar d ≠ 45 ∧ digitChar d ≠ 43 ∧ digitChar d ≠ 0) ∧
    (digitChar d = 48 → d = 0) := by
  decide

theorem digitIn_digitChar {d : Nat} (h : d < base) (hb : base ≤ 36) : digitIn base (digitChar d) = some d := by
  obtain ⟨-, hval, -⟩ := digitChar_all d (by omega)
  rw [digitIn, hval, Option.filter_some, if_pos (by simpa using h)]

/-- The digits are taken off one after the other. -/
theorem modsLoop_eq (hb : 2 ≤ base) {fuel : Nat} (a : Nat) (mods : List Int)
    (hroom : mods.length + (Nat.digits base a).length ≤ RIM_NUMBER_LENGTH) (hfuel : (Nat.digits base a).length < fuel) :
    modsLoop base fuel a mods = .ok (mods ++ (Nat.digits base a).map Int.ofNat) := by
  induction fuel generalizing a mods with
  | zero => exact absurd hfuel (Nat.not_lt_zero _)
  | succ fuel ih =>
    by_cases ha : a = 0
    · have hzero : (a : Int) = 0 := by omega
      rw [modsLoop, if_pos hzero, ha, Nat.digits_zero, List.map_nil, List.append_nil]
    · have hdigits := Nat.digits_eq_cons_digits_div hb ha
      rw [hdigits, List.length_cons] at hroom hfuel
      have hne : ¬ (a : Int) = 0 := by omega
      have hlt : mods.length < RIM_NUMBER_LENGTH := by omega
      have hdiv : (a : Int).tdiv base = (a / base : Nat) := rfl
      have hmod : (a : Int).tmod base = (a % base : Nat) := rfl
      rw [modsLoop, if_neg hne, if_pos hlt, hdiv, hmod, ih (a / base) _ (by simp; omega) (by omega), hdigits,
        List.map_cons, List.append_assoc]
      rfl

/-- The digits of a number are written backwards, to the place where they end. -/
theorem writeMods_eq {mods : List Int} {ds : List Nat} (hds : ∀ d ∈ ds, d < 36) {n k : Nat} {pre free tail : Bytes}
    (hmods : mods.drop k = ds.map Int.ofNat) (hn : ds.length = n) (hfree : free.length = n) {p : Int}
    (hp : p = (pre.length : Int) + n - 1) :
    writeMods mods n k (pre ++ (free ++ tail)) p = .ok (pre ++ ((ds.reverse.map digitChar) ++ tail)) := by
  induction ds generalizing n k free tail p with
  | nil =>
    subst hn
    rw [List.length_nil] at hfree
    rw [List.length_eq_zero_iff.mp hfree]
    rfl
  | cons d ds ih =>
    obtain ⟨hd, hds⟩ := List.forall_mem_cons.mp hds
    obtain ⟨n, rfl⟩ : ∃ m, n = m + 1 := ⟨ds.length, hn.symm⟩
    obtain ⟨front, x, rfl⟩ : ∃ front x, free = front ++ [x] := by
      have hne : free ≠ [] := by
        intro hnil
        rw [hnil] at hfree
        cases hfree
      exact ⟨free.dropLast, free.getLast hne, (List.dropLast_append_getLast hne).symm⟩
    rw [List.length_append, List.length_singleton] at hfree
    rw [List.length_cons] at hn
    -- the next digit of the array
    have hget : mods[k]? = some (d : Int) := by
      have h := congrArg (·[0]?) hmods
      simpa [List.getElem?_drop] using h
    have hrest : mods.drop (k + 1) = ds.map Int.ofNat := by
      have h := congrArg List.tail hmods
      simpa [List.tail_drop] using h
    have hchar : peekAt numberDigits d = some (digitChar d) := by
      rw [peekAt, if_pos (Int.natCast_nonneg d), Int.toNat_natCast]
      exact (digitChar_all d hd).1
    have hpoke : pokeAt (pre ++ ((front ++ [x]) ++ tail)) p (digitChar d) =
        some (pre ++ (front ++ digitChar d :: tail)) := by
      have hplace : p = ((pre ++ front).length : Int) := by
        rw [List.length_append]
        omega
      rw [hplace, List.append_assoc, List.singleton_append, ← List.append_assoc, pokeAt_middle, List.append_assoc]
    have hlast : p - 1 = (pre.length : Int) + n - 1 := by omega
    simp only [writeMods, hget, hchar, hpoke, inside, Option.elim, bind, Except.bind]
    rw [ih hds hrest (by omega) (by omega) hlast, List.reverse_cons, List.map_append, List.append_assoc]
    rfl

/-- A number has no more digits than the array. -/
theorem length_digits_le (hb : 2 ≤ base) {n : Nat} (hn : n < 2 ^ 63) : (Nat.digits base n).length ≤ 63 := by
  rw [Nat.digits_length_le_iff hb]
  exact hn.trans_le (Nat.pow_le_pow_left hb 63)

/-! ## Writing -/

/-- There is memory of every size that an address space has. -/
def Heap.Ample (heap : Heap) : Prop := ∀ size, 0 ≤ size → size < 2 ^ 47 → heap.gives size = true

/-- The digits of a number fill the end of its string. -/
theorem writeMods_digits (hb : 2 ≤ base) (hb' : base ≤ 36) {n : Nat} (hn : n ≠ 0) (pre : Bytes) {free : Bytes}
    (hfree : free.length = (numeral base n).length) {p : Int}
    (hp : p = ((pre.length : Int) + (numeral base n).length) - 1) :
    writeMods ((Nat.digits base n).map Int.ofNat) (numeral base n).length 0 (pre ++ (free ++ [0])) p =
      .ok (pre ++ ((numeral base n).map digitChar ++ [0])) := by
  have hlt : ∀ d ∈ Nat.digits base n, d < 36 := fun d hd => (Nat.digits_lt_base hb hd).trans_le hb'
  have hnum : numeral base n = (Nat.digits base n).reverse := numeral_of_pos hn
  have hlen : (Nat.digits base n).length = (numeral base n).length := by rw [hnum, List.length_reverse]
  have hmods : ((Nat.digits base n).map Int.ofNat).drop 0 = (Nat.digits base n).map Int.ofNat := List.drop_zero
  rw [writeMods_eq hlt hmods hlen hfree hp, ← hnum]

/-- A number is written to its string. -/
theorem writeNumber_eq (hb : 2 ≤ base) (hb' : base ≤ 36) {n : Int} {b : StrBlock}
    (hlen : b.bytes.length = (signedText base n).length + 1) :
    writeNumber n (if n = 0 then [] else (Nat.digits base n.natAbs).map Int.ofNat) (signedText base n).length b =
      .ok ⟨signedText base n ++ [0], (signedText base n).length + 1⟩ := by
  obtain ⟨free, x, hbytes⟩ : ∃ free x, b.bytes = free ++ [x] := by
    have hne : b.bytes ≠ [] := List.ne_nil_of_length_eq_add_one hlen
    exact ⟨b.bytes.dropLast, b.bytes.getLast hne, (List.dropLast_append_getLast hne).symm⟩
  rw [hbytes, List.length_append, List.length_singleton, Nat.add_right_cancel_iff] at hlen
  have hnull : pokeAt b.bytes ((signedText base n).length : Int) 0 = some (free ++ [0]) := by
    rw [hbytes, ← hlen, pokeAt_middle]
  unfold writeNumber
  simp only [hnull, inside, Option.elim, bind, Except.bind]
  by_cases hz : n = 0
  · subst hz
    obtain ⟨y, rfl⟩ := List.length_eq_one_iff.mp hlen
    rfl
  rw [if_neg hz, if_neg hz]
  have habs : n.natAbs ≠ 0 := by omega
  by_cases hneg : n < 0
  · have htext : signedText base n = 45 :: (numeral base n.natAbs).map digitChar := by rw [signedText, if_pos hneg]; rfl
    rw [htext, List.length_cons, List.length_map] at hlen ⊢
    obtain ⟨y, free, rfl⟩ := List.exists_cons_of_length_eq_add_one hlen
    rw [List.length_cons, Nat.add_right_cancel_iff] at hlen
    have hsign : pokeAt (y :: free ++ [0]) 0 45 = some (45 :: (free ++ [0])) := rfl
    have hdigits := writeMods_digits hb hb' habs [45] hlen
      (p := ((((numeral base n.natAbs).length + 1 : Nat) : Int)) - 1) (by rw [List.length_singleton]; omega)
    rw [if_pos hneg]
    simp only [hsign, Nat.add_sub_cancel]
    rw [show (45 :: (free ++ [0]) : Bytes) = [45] ++ (free ++ [0]) from rfl, hdigits]
    rfl
  · have htext : signedText base n = (numeral base n.natAbs).map digitChar := by rw [signedText, if_neg hneg]; rfl
    rw [htext, List.length_map] at hlen ⊢
    have hdigits := writeMods_digits hb hb' habs [] hlen (p := ((numeral base n.natAbs).length : Int) - 1)
      (by rw [List.length_nil]; omega)
    rw [List.nil_append] at hdigits
    rw [if_neg hneg]
    simp only [hdigits]
    rfl

theorem numberMods_eq (hb : 2 ≤ base) {n : Int} (hn : -2 ^ 63 < n) (hn' : n < 2 ^ 63) :
    numberMods n base = .ok (if n = 0 then [] else (Nat.digits base n.natAbs).map Int.ofNat) := by
  unfold numberMods
  by_cases hz : n = 0
  · rw [if_pos hz, if_pos hz]
  · have habs : absNum n = n.natAbs := by
      unfold absNum
      split
      · rw [toRimNum_eq (by omega) (by omega)]
        omega
      · omega
    have hlen := length_digits_le hb (n := n.natAbs) (by omega)
    have hroom : RIM_NUMBER_LENGTH = 70 := rfl
    rw [if_neg hz, if_neg hz, habs, modsLoop_eq hb _ _ (by rw [List.length_nil]; omega) (by omega), List.nil_append]

/-- What `rim_num2str` returns. -/
theorem rimNum2str_eq (hmem : heap.Ample) (hb : 2 ≤ base) (hb' : base ≤ 36) {n : Int} (hn : -2 ^ 63 < n)
    (hn' : n < 2 ^ 63) :
    rimNum2str heap n base =
      .ok ⟨some ⟨signedText base n ++ [0], (signedText base n).length + 1⟩, (signedText base n).length⟩ := by
  have hlen : (if n = 0 then 1 else (if n < 0 then 1 else 0) +
      (if n = 0 then [] else (Nat.digits base n.natAbs).map Int.ofNat).length) = (signedText base n).length := by
    unfold signedText numeral
    by_cases hz : n = 0
    · subst hz
      rfl
    · have habs : n.natAbs ≠ 0 := by omega
      rw [if_neg hz, if_neg hz, if_neg habs, List.length_append, List.length_map, List.length_map, List.length_reverse]
      split <;> rfl
  have hsmall : (signedText base n).length ≤ 65 := by
    have hdigits := length_digits_le hb (n := n.natAbs) (by omega)
    unfold signedText numeral
    rw [List.length_append, List.length_map]
    split <;> split <;> simp <;> omega
  have hrange : ¬ ((base : Int) < 2 ∨ 36 < (base : Int)) := by omega
  unfold rimNum2str
  rw [if_neg hrange, numberMods_eq hb hn hn']
  simp only [bind, Except.bind, hlen]
  have hhead : sizeofHead = 16 := rfl
  rw [rimRealloc_given [] (by omega) (by omega) (hmem _ (by omega) (by omega))]
  have hwrite := writeNumber_eq hb hb' (n := n)
    (b := ⟨reblock heap [] (((signedText base n).length : Int) + 1).toNat, ((signedText base n).length : Int) + 1⟩)
    (by rw [length_reblock]; omega)
  simp only [hwrite]

/-! ## Reading -/

theorem digitRun_digits (hb : base ≤ 36) {ds : List Nat} (hds : ∀ d ∈ ds, d < base) :
    digitRun base (ds.map digitChar) = (ds, []) := by
  induction ds with
  | nil => rfl
  | cons d ds ih =>
    obtain ⟨hd, hds⟩ := List.forall_mem_cons.mp hds
    rw [List.map_cons, digitRun, digitIn_digitChar hd hb, ih hds]

/-- No number begins like one with a prefix. -/
theorem baseRun_numeral (hb : 2 ≤ base) (hb' : base ≤ 36) (n : Nat) :
    baseRun base ((numeral base n).map digitChar) = (base, (numeral base n).map digitChar) := by
  obtain ⟨d, ds, hnum, hzero⟩ := numeral_head base n
  have hd : d < base := numeral_lt hb n d (hnum ▸ List.mem_cons_self)
  have hhex : hexPrefix ((numeral base n).map digitChar) = none := by
    rw [hnum]
    by_cases hd0 : d = 0
    · rw [hzero hd0, hd0]
      rfl
    · have hne : digitChar d ≠ 48 := fun h => hd0 ((digitChar_all d (by omega)).2.2.2.2 h)
      unfold hexPrefix
      split
      · next heq =>
        rw [List.map_cons, List.cons.injEq] at heq
        exact absurd heq.1 hne
      · rfl
  unfold baseRun
  rw [hhex]
  have hne : base ≠ 0 := by omega
  split
  · next h =>
    obtain h | h := h
    · exact absurd h hne
    · simp only [h, if_true]
  · rfl

theorem signRun_signedText (hb : 2 ≤ base) (hb' : base ≤ 36) (n : Int) :
    signRun ((signedText base n).dropWhile isspace) = (decide (n < 0), (numeral base n.natAbs).map digitChar) := by
  unfold signedText
  by_cases hneg : n < 0
  · rw [if_pos hneg, decide_eq_true hneg]
    rfl
  · obtain ⟨d, ds, hnum, -⟩ := numeral_head base n.natAbs
    have hd : d < base := numeral_lt hb _ d (hnum ▸ List.mem_cons_self)
    obtain ⟨-, -, hspace, ⟨hminus, hplus, -⟩, -⟩ := digitChar_all d (by omega)
    have hspace : ¬ isspace (digitChar d) = true := by simp only [hspace, Bool.false_eq_true, not_false_eq_true]
    rw [if_neg hneg, decide_eq_false hneg, List.nil_append, hnum, List.map_cons, List.dropWhile_cons, if_neg hspace]
    unfold signRun
    split
    · next heq => exact absurd (List.cons.inj heq).1 hminus
    · next heq => exact absurd (List.cons.inj heq).1 hplus
    · rfl

/-- A number is read as it was written. -/
theorem strtoll_signedText (hb : 2 ≤ base) (hb' : base ≤ 36) {n : Int} (hn : -2 ^ 63 ≤ n) (hn' : n < 2 ^ 63) :
    strtoll (signedText base n) base = ⟨n, some [], .none⟩ := by
  have hne : numeral base n.natAbs ≠ [] := by
    obtain ⟨d, ds, hnum, -⟩ := numeral_head base n.natAbs
    rw [hnum]
    exact List.cons_ne_nil _ _
  have hval : (if decide (n < 0) = true then -((n.natAbs : Nat) : Int) else (n.natAbs : Nat)) = n := by
    split
    · next h =>
      have hneg := of_decide_eq_true h
      omega
    · next h =>
      have hpos := of_decide_eq_false (Bool.not_eq_true _ ▸ h)
      omega
  unfold strtoll
  simp only [signRun_signedText hb hb', baseRun_numeral hb hb', digitRun_digits hb' (numeral_lt hb _), number_numeral,
    if_neg hne, hval]
  rw [if_neg (by omega), if_neg (by omega)]

theorem rimStr2num_signedText (hb : 2 ≤ base) (hb' : base ≤ 36) {n : Int} (hn : -2 ^ 63 ≤ n) (hn' : n < 2 ^ 63) :
    rimStr2num (signedText base n) base = (n, .okay) := by
  have hrange : ¬ ((base : Int) ≠ 0 ∧ ((base : Int) < 2 ∨ 36 < (base : Int))) := by omega
  unfold rimStr2num
  simp only [if_neg hrange, Int.toNat_natCast, strtoll_signedText hb hb' hn hn']
  rw [if_neg (by simp)]

/-! ## Both ways -/

/-- A number is written as it should be, and read again. -/
structure NumberRoundTrip (heap : Heap) (n : Int) (base : Nat) : Prop where
  /-- Each index into the literal is that of a digit. -/
  digits : ∃ mods, numberMods n base = .ok mods ∧ ∀ m ∈ mods, 0 ≤ m ∧ m ≤ 35
  written : rimNum2str heap n base =
    .ok ⟨some ⟨signedText base n ++ [0], (signedText base n).length + 1⟩, (signedText base n).length⟩
  read : rimStr2num (signedText base n) base = (n, .okay)

theorem modsLoop_starts {fuel : Nat} {a b : Int} {mods res : List Int} (h : modsLoop b fuel a mods = .ok res) :
    mods <+: res := by
  induction fuel generalizing a mods with
  | zero => cases h
  | succ fuel ih =>
    unfold modsLoop at h
    split at h
    · rw [Except.ok.inj h]
    · split at h
      · exact (List.prefix_append mods _).trans (ih h)
      · cases h

/-- A negative number has a negative digit. -/
theorem modsLoop_neg {fuel : Nat} {a : Int} (ha : a < 0) {mods res : List Int}
    (h : modsLoop base fuel a mods = .ok res) : ∃ m ∈ res, m < 0 := by
  induction fuel generalizing a mods with
  | zero => cases h
  | succ fuel ih =>
    unfold modsLoop at h
    rw [if_neg (by omega)] at h
    split at h
    · have hsplit := Int.mul_tdiv_add_tmod a base
      have hsign := Int.tmod_nonneg (base : Int) (show 0 ≤ -a by omega)
      rw [Int.neg_tmod] at hsign
      by_cases hmod : a.tmod base = 0
      · have hdiv : a.tdiv base < 0 := by
          by_contra hpos
          have := Int.mul_nonneg (Int.natCast_nonneg base) (Int.not_lt.mp hpos)
          omega
        exact ih hdiv h
      · refine ⟨a.tmod base, (modsLoop_starts h).subset ?_, by omega⟩
        exact List.mem_append_right _ (List.mem_singleton_self _)
    · cases h

/-- Numbers other than the least one come back. -/
theorem rimStr2num_rimNum2str (hmem : heap.Ample) (n : Int64) (hb : 2 ≤ base) (hb' : base ≤ 36) :
    NumberRoundTrip heap n.toInt base ↔ n ≠ Int64.minValue := by
  have hlow : -2 ^ 63 ≤ n.toInt := Int64.le_toInt n
  have hhigh : n.toInt < 2 ^ 63 := Int64.toInt_lt n
  constructor
  · rintro ⟨⟨mods, hmods, hrange⟩, -, -⟩ rfl
    have habs : absNum Int64.minValue.toInt = -2 ^ 63 := by decide
    rw [numberMods, if_neg (by decide), habs] at hmods
    obtain ⟨m, hm, hneg⟩ := modsLoop_neg (by decide) hmods
    have := (hrange m hm).1
    omega
  · intro hn
    have hn : -2 ^ 63 < n.toInt := by
      refine lt_of_le_of_ne hlow fun heq => hn ?_
      rw [← Int64.toInt_inj, ← heq]
      rfl
    refine ⟨⟨_, numberMods_eq hb hn hhigh, ?_⟩, rimNum2str_eq hmem hb hb' hn hhigh,
      rimStr2num_signedText hb hb' hlow hhigh⟩
    intro m hm
    split at hm
    · cases hm
    · obtain ⟨d, hd, rfl⟩ := List.mem_map.mp hm
      have hd := Nat.digits_lt_base hb hd
      have hle : (d : Int) ≤ 35 := by omega
      exact ⟨Int.natCast_nonneg d, hle⟩

theorem plenty_ample : plenty.Ample := fun _ hpos hlt => decide_eq_true ⟨hpos, hlt⟩

theorem rimStr2num_rimNum2str_hex : NumberRoundTrip plenty (-255) 16 ∧ signedText 16 (-255) = ascii "-ff" := by
  constructor
  · exact (rimStr2num_rimNum2str plenty_ample (-255) (by decide) (by decide)).mpr (by decide)
  · decide

theorem rimNum2str_least : ¬ (∀ (n : Int64) (base : Nat), 2 ≤ base → base ≤ 36 → NumberRoundTrip plenty n.toInt base) ∧
    rimNum2str plenty Int64.minValue.toInt 10 = .error .outside := by
  constructor
  · intro h
    obtain ⟨⟨mods, hmods, hrange⟩, -, -⟩ := h Int64.minValue 10 (by decide) (by decide)
    have habs : absNum Int64.minValue.toInt = -2 ^ 63 := by decide
    rw [numberMods, if_neg (by decide), habs] at hmods
    obtain ⟨m, hm, hneg⟩ := modsLoop_neg (by decide) hmods
    have hpos := (hrange m hm).1
    omega
  · rfl

end RimStone
