import RimStone.Source.Dispatch
import RimStone.Lib.Layout
import RimStone.Lib.Lines
import RimStone.Lib.Digits
import RimStone.Laws.Hash.Run
import Mathlib.Data.Nat.Digits.Lemmas
import Mathlib.Logic.Equiv.List

/-!
# The table that is written finds the names

The names that are read are put into a hash, the buckets of the hash are laid out in one array, and the program that has
the array has the same buckets, since it makes as many of them. So it finds what is in the hash.

What is read is not the names where one of them does not fit the buffer of a line, and what is written for a parameter is
not its index where it does not fit the buffer of the data. On all other lists the table is right, and on these it is
wrong (`setupInternalHash_iff`).
-/

namespace RimStone

open RimStone.Lib

/-! ## The lines of a file -/

section Lines

variable {l rest f : Bytes} {n : Nat}

theorem fgetsTake_line (hl : 10 ∉ l) (h : l.length < n) : fgetsTake n (l ++ 10 :: rest) = (l ++ [10], rest) := by
  induction l generalizing n with
  | nil =>
    obtain _ | n := n
    · cases h
    · rw [List.nil_append, fgetsTake, if_pos rfl, List.nil_append]
  | cons c l ih =>
    obtain _ | n := n
    · cases h
    · have hc : c ≠ 10 := fun hc => hl (hc ▸ List.mem_cons_self)
      have hrest := ih (fun h10 => hl (List.mem_cons_of_mem _ h10)) (Nat.lt_of_succ_lt_succ h)
      rw [List.cons_append, fgetsTake, if_neg hc, hrest, List.cons_append]

/-- A line that does not fit the buffer is cut. -/
theorem fgetsTake_long (hl : 10 ∉ l) (h : n ≤ l.length) :
    fgetsTake n (l ++ 10 :: rest) = (l.take n, l.drop n ++ 10 :: rest) := by
  induction l generalizing n with
  | nil =>
    obtain rfl := Nat.le_zero.mp h
    rfl
  | cons c l ih =>
    obtain _ | n := n
    · rfl
    · have hc : c ≠ 10 := fun hc => hl (hc ▸ List.mem_cons_self)
      have hrest := ih (fun h10 => hl (List.mem_cons_of_mem _ h10)) (Nat.le_of_succ_le_succ h)
      rw [List.cons_append, fgetsTake, if_neg hc, hrest, List.take_succ_cons, List.drop_succ_cons]

theorem length_fgetsTake (n : Nat) (f : Bytes) : (fgetsTake n f).1.length ≤ n := by
  induction n generalizing f with
  | zero => exact Nat.le_refl 0
  | succ n ih =>
    cases f with
    | nil => exact Nat.zero_le _
    | cons c f =>
      rw [fgetsTake]
      split_ifs
      · exact Nat.succ_le_succ (Nat.zero_le n)
      · exact Nat.succ_le_succ (ih f)

theorem length_fgetsTake_rest (n : Nat) (f : Bytes) : (fgetsTake n f).2.length ≤ f.length := by
  induction n generalizing f with
  | zero => exact Nat.le_refl _
  | succ n ih =>
    cases f with
    | nil => exact Nat.le_refl _
    | cons c f =>
      rw [fgetsTake]
      split_ifs
      · exact Nat.le_succ _
      · exact Nat.le_succ_of_le (ih f)

/-- Every line takes something from the file. -/
theorem fgetsTake_lt (hn : 0 < n) (hf : f ≠ []) : (fgetsTake n f).2.length < f.length := by
  obtain ⟨c, f, rfl⟩ := List.exists_cons_of_ne_nil hf
  obtain ⟨n, rfl⟩ := Nat.exists_eq_succ_of_ne_zero (Nat.ne_of_gt hn)
  rw [fgetsTake]
  split_ifs
  · exact Nat.lt_succ_self _
  · exact Nat.lt_succ_of_le (length_fgetsTake_rest n f)

/-- The lines of a file, with as many rounds as it takes. -/
def fileLines (f : Bytes) : List Bytes := fgetsLines RIM_MAX_REQ_NAME_LEN f.length f

theorem fgetsLines_enough {fuel : Nat} (h : f.length ≤ fuel) : fgetsLines RIM_MAX_REQ_NAME_LEN fuel f = fileLines f := by
  unfold fileLines
  have hgo : ∀ (k : Nat) (f : Bytes), f.length ≤ k → ∀ fuel, f.length ≤ fuel →
      fgetsLines RIM_MAX_REQ_NAME_LEN fuel f = fgetsLines RIM_MAX_REQ_NAME_LEN f.length f := by
    intro k
    induction k with
    | zero =>
      intro f hf fuel _
      obtain rfl := List.length_eq_zero_iff.mp (Nat.le_zero.mp hf)
      cases fuel <;> rfl
    | succ k ih =>
      intro f hf fuel hfuel
      by_cases hnil : f = []
      · subst hnil
        cases fuel <;> rfl
      · have hlt := fgetsTake_lt (n := RIM_MAX_REQ_NAME_LEN - 1) (by decide) hnil
        obtain ⟨m, hm⟩ := Nat.exists_eq_succ_of_ne_zero (Nat.ne_of_gt (List.length_pos_iff.mpr hnil))
        obtain ⟨m', rfl⟩ := Nat.exists_eq_succ_of_ne_zero (Nat.ne_of_gt (lt_of_lt_of_le (List.length_pos_iff.mpr hnil) hfuel))
        rw [hm, fgetsLines, fgetsLines]
        unfold fgetsUnlocked
        rw [if_neg hnil]
        dsimp only
        rw [ih _ (by omega) m (by omega), ih _ (by omega) m' (by omega)]
  exact hgo f.length f (Nat.le_refl _) fuel h

theorem fileLines_take (hf : f ≠ []) : fileLines f = (fgetsTake 511 f).1 :: fileLines (fgetsTake 511 f).2 := by
  have hlt := fgetsTake_lt (n := RIM_MAX_REQ_NAME_LEN - 1) (by decide) hf
  obtain ⟨m, hm⟩ := Nat.exists_eq_succ_of_ne_zero (Nat.ne_of_gt (List.length_pos_iff.mpr hf))
  unfold fileLines
  rw [hm, fgetsLines]
  unfold fgetsUnlocked
  rw [if_neg hf]
  exact congrArg _ (fgetsLines_enough (by omega))

theorem fileLines_line (hl : 10 ∉ l) (h : l.length ≤ 510) (rest : Bytes) :
    fileLines (l ++ 10 :: rest) = (l ++ [10]) :: fileLines rest := by
  rw [fileLines_take (by simp), fgetsTake_line hl (Nat.lt_succ_of_le h)]

theorem fileLines_long (hl : 10 ∉ l) (h : 511 ≤ l.length) (rest : Bytes) :
    fileLines (l ++ 10 :: rest) = l.take 511 :: fileLines (l.drop 511 ++ 10 :: rest) := by
  rw [fileLines_take (by simp), fgetsTake_long hl h]

/-- What is read of a line, before what follows is read. -/
theorem exists_pieces (hl : 10 ∉ l) : ∃ ps, ∀ rest, fileLines (l ++ 10 :: rest) = ps ++ fileLines rest := by
  induction hlen : l.length using Nat.strong_induction_on generalizing l with
  | _ k ih =>
    by_cases h : l.length ≤ 510
    · exact ⟨[l ++ [10]], fun rest => fileLines_line hl h rest⟩
    · have hdrop : 10 ∉ l.drop 511 := fun h10 => hl (List.mem_of_mem_drop h10)
      obtain ⟨ps, hps⟩ := ih (l.drop 511).length (by rw [List.length_drop]; omega) hdrop rfl
      exact ⟨l.take 511 :: ps, fun rest => by rw [fileLines_long hl (by omega), hps, List.cons_append]⟩

/-- Every line that fits is read as it is. -/
theorem fileLines_unlines {ls : List Bytes} (hls : ∀ l ∈ ls, 10 ∉ l ∧ l.length ≤ 510) :
    fileLines (unlines 10 ls) = ls.map (· ++ [10]) := by
  induction ls with
  | nil => rfl
  | cons l ls ih =>
    obtain ⟨⟨h10, hlen⟩, hrest⟩ := List.forall_mem_cons.mp hls
    rw [unlines_cons, fileLines_line h10 hlen, ih hrest, List.map_cons]

/-- Behind a line of just the size of the buffer, the newline is read on its own. -/
theorem newline_mem_fileLines {ls : List Bytes} (hls : ∀ l ∈ ls, 10 ∉ l) (hl : l ∈ ls) (hlen : l.length = 511) :
    [10] ∈ fileLines (unlines 10 ls) := by
  induction ls with
  | nil => cases hl
  | cons l' ls ih =>
    obtain ⟨h10, hrest⟩ := List.forall_mem_cons.mp hls
    rw [unlines_cons]
    obtain rfl | hl := List.mem_cons.mp hl
    · have hdrop : l.drop 511 = [] := List.drop_eq_nil_of_le (by omega)
      have hempty : fileLines ([] ++ 10 :: unlines 10 ls) = [10] :: fileLines (unlines 10 ls) :=
        fileLines_line List.not_mem_nil (Nat.zero_le _) _
      rw [fileLines_long h10 (by omega), hdrop, hempty]
      exact List.mem_cons_of_mem _ (List.mem_cons_self ..)
    · obtain ⟨ps, hps⟩ := exists_pieces h10
      rw [hps]
      exact List.mem_append_right _ (ih hrest hl)

theorem length_le_of_mem_fileLines (h : l ∈ fileLines f) : l.length ≤ 511 := by
  induction hlen : f.length using Nat.strong_induction_on generalizing f with
  | _ k ih =>
    by_cases hf : f = []
    · subst hf
      cases h
    · rw [fileLines_take hf] at h
      obtain rfl | h := List.mem_cons.mp h
      · exact length_fgetsTake 511 f
      · exact ih _ (by rw [← hlen]; exact fgetsTake_lt (by decide) hf) h rfl

end Lines

/-! ## The names and their number -/

def ParamName (n : Bytes) : Prop := rimIsValidParamName n false = true

instance (n : Bytes) : Decidable (ParamName n) := inferInstanceAs (Decidable (_ = _))

def countText (n : Nat) : Bytes := if n = 0 then [48] else (Nat.digits 10 n).reverse.map fun d => UInt8.ofNat (48 + d)

def listFile (names : List Bytes) : Bytes := unlines 10 (countText names.length :: names)

section Names

variable {n : Bytes} {c : UInt8}

theorem isalnum_plain (h : isalnum c = true ∨ c = 95) : c ≠ 0 ∧ c ≠ 10 ∧ isspace c = false := by
  unfold isalnum isdigit at h
  unfold isspace
  simp only [Bool.or_eq_true, Bool.and_eq_true, decide_eq_true_eq, UInt8.le_iff_toNat_le, ne_eq, ← UInt8.toNat_inj,
    Bool.or_eq_false_iff, Bool.and_eq_false_iff, beq_eq_false_iff_ne, decide_eq_false_iff_not] at h ⊢
  simp only [UInt8.reduceToNat] at h ⊢
  omega

theorem isalpha_isalnum (h : isalpha c = true) : isalnum c = true := by
  unfold isalpha at h
  unfold isalnum
  rw [Bool.or_assoc, h, Bool.or_true]

/-- A name holds no null, no newline and no white space, and is not empty. -/
theorem ParamName.plain (h : ParamName n) : n ≠ [] ∧ ∀ c ∈ n, c ≠ 0 ∧ c ≠ 10 ∧ isspace c = false := by
  unfold ParamName rimIsValidParamName at h
  cases n with
  | nil => cases h
  | cons c n =>
    obtain ⟨hc, hn⟩ := Bool.and_eq_true_iff.mp h
    refine ⟨List.cons_ne_nil c n, ?_⟩
    intro x hx
    obtain rfl | hx := List.mem_cons.mp hx
    · exact isalnum_plain (Or.inl (isalpha_isalnum hc))
    · have hall := List.all_eq_true.mp hn x hx
      rw [Bool.and_false, Bool.or_false, Bool.or_eq_true, beq_iff_eq] at hall
      exact isalnum_plain hall

/-- Trimming a line takes the newline from a name. -/
theorem trimit_line {l : Bytes} (hl : ∀ c ∈ l, c ≠ 0 ∧ isspace c = false) : trimit (l ++ [10]) = l := by
  have hcstr : cstr (l ++ [10]) = l ++ [10] := by
    refine cstr_eq_self fun c hc => ?_
    obtain hc | hc := List.mem_append.mp hc
    · exact (hl c hc).1
    · obtain rfl := List.mem_singleton.mp hc
      decide
  unfold trimit
  rw [hcstr]
  cases l with
  | nil => rfl
  | cons c l =>
    have hc : isspace c = false := (hl c (List.mem_cons_self ..)).2
    have hfront : (c :: l ++ [10]).dropWhile isspace = c :: l ++ [10] :=
      List.dropWhile_cons_of_neg (by rw [hc]; exact Bool.false_ne_true)
    rw [hfront, List.rdropWhile_concat_pos _ _ _ (by rfl)]
    refine List.rdropWhile_eq_self_iff.mpr fun hne => ?_
    rw [(hl _ (List.getLast_mem hne)).2]
    exact Bool.false_ne_true

theorem ParamName.trimit (h : ParamName n) : trimit (n ++ [10]) = n :=
  trimit_line fun c hc => ⟨(h.plain.2 c hc).1, (h.plain.2 c hc).2.2⟩

/-- What is trimmed is not longer, and holds no null. -/
theorem length_trimit_le (l : Bytes) : (RimStone.trimit l).length ≤ l.length :=
  (List.rdropWhile_prefix _ _).length_le.trans ((List.dropWhile_suffix _).length_le.trans (List.takeWhile_prefix _).length_le)

theorem cstr_trimit (l : Bytes) : cstr (RimStone.trimit l) = RimStone.trimit l := by
  refine cstr_eq_self fun c hc => ?_
  have hmem : c ∈ cstr l := (List.dropWhile_suffix _).subset ((List.rdropWhile_prefix _ _).subset hc)
  simpa using List.mem_takeWhile_imp hmem

end Names

section Count

theorem digitsLoop_digits {ds : List Nat} (hds : ∀ d ∈ ds, d < 10) (m : Nat) :
    digitsLoop m (ds.map fun d => UInt8.ofNat (48 + d)) = m * 10 ^ ds.length + Lib.number 10 ds := by
  induction ds generalizing m with
  | nil => rw [List.map_nil, digitsLoop, Lib.number, List.length_nil, Nat.pow_zero, Nat.mul_one, Nat.add_zero]
  | cons d ds ih =>
    obtain ⟨hd, hds⟩ := List.forall_mem_cons.mp hds
    have hval : (UInt8.ofNat (48 + d)).toNat = 48 + d := by
      rw [UInt8.toNat_ofNat']
      omega
    have hdigit : isdigit (UInt8.ofNat (48 + d)) = true := by
      unfold isdigit
      simp only [Bool.and_eq_true, decide_eq_true_eq, UInt8.le_iff_toNat_le, hval]
      simp only [UInt8.reduceToNat]
      omega
    rw [List.map_cons, digitsLoop, if_pos hdigit, ih hds, hval, Lib.number, List.length_cons, Nat.pow_succ]
    rw [show 48 + d - 48 = d by omega]
    ring

/-- The text of a number is made of digits. -/
theorem countText_digits (n : Nat) : ∃ ds : List Nat, (∀ d ∈ ds, d < 10) ∧ Lib.number 10 ds = n ∧
    countText n = ds.map (fun d => UInt8.ofNat (48 + d)) ∧ ds ≠ [] := by
  unfold countText
  split_ifs with hn
  · refine ⟨[0], ?_, ?_, rfl, List.cons_ne_nil _ _⟩
    · intro d hd
      obtain rfl := List.mem_singleton.mp hd
      decide
    · rw [hn]
      rfl
  · refine ⟨(Nat.digits 10 n).reverse, fun d hd => ?_, Lib.number_reverse_digits 10 n, rfl, ?_⟩
    · exact Nat.digits_lt_base (by decide) (List.mem_reverse.mp hd)
    · rw [Ne, List.reverse_eq_nil_iff, Nat.digits_eq_nil_iff_eq_zero]
      exact hn

theorem isalnum_countText {n : Nat} {c : UInt8} (h : c ∈ countText n) : isdigit c = true := by
  obtain ⟨ds, hds, -, htext, -⟩ := countText_digits n
  rw [htext] at h
  obtain ⟨d, hd, rfl⟩ := List.mem_map.mp h
  have hlt := hds d hd
  have hval : (UInt8.ofNat (48 + d)).toNat = 48 + d := by
    rw [UInt8.toNat_ofNat']
    omega
  unfold isdigit
  simp only [Bool.and_eq_true, decide_eq_true_eq, UInt8.le_iff_toNat_le, hval]
  simp only [UInt8.reduceToNat]
  omega

theorem countText_plain {n : Nat} {c : UInt8} (h : c ∈ countText n) : c ≠ 0 ∧ c ≠ 10 ∧ isspace c = false := by
  refine isalnum_plain (Or.inl ?_)
  unfold isalnum
  rw [isalnum_countText h]
  rfl

/-- The number is read as it was written. -/
theorem strtol_countText {n : Nat} (hn : n < 2 ^ 63) : strtol (countText n) = n := by
  obtain ⟨ds, hds, hnum, htext, hne⟩ := countText_digits n
  have hloop : digitsLoop 0 (countText n) = n := by
    rw [htext, digitsLoop_digits hds, Nat.zero_mul, Nat.zero_add, hnum]
  obtain ⟨c, t, ht⟩ := List.exists_cons_of_ne_nil (l := countText n) (by rw [htext]; simpa using hne)
  have hc : c ∈ countText n := by rw [ht]; exact List.mem_cons_self ..
  have hspace : isspace c = false := (countText_plain hc).2.2
  have hdigit := isalnum_countText hc
  have hminus : c ≠ 45 := by
    rintro rfl
    exact absurd hdigit (by decide)
  have hplus : c ≠ 43 := by
    rintro rfl
    exact absurd hdigit (by decide)
  have hdrop : (countText n).dropWhile isspace = countText n := by
    rw [ht]
    exact List.dropWhile_cons_of_neg (by rw [hspace]; exact Bool.false_ne_true)
  unfold strtol
  rw [hdrop]
  split
  next hx => exact absurd (List.cons.inj (ht.symm.trans hx)).1 hminus
  next hx => exact absurd (List.cons.inj (ht.symm.trans hx)).1 hplus
  next =>
    rw [hloop]
    omega

theorem length_countText {n : Nat} (hn : n < 2 ^ 61) : (countText n).length ≤ 510 := by
  unfold countText
  split_ifs with h
  · exact Nat.le_of_ble_eq_true rfl
  · rw [List.length_map, List.length_reverse]
    have hle : (Nat.digits 10 n).length ≤ 19 := (Nat.digits_length_le_iff (by decide) n).mpr (by omega)
    omega

end Count

/-! ## The hash of the names -/

def initData (isReq : Bool) (req : Bytes) : Bytes := if isReq then req else (aprm req).take (sizeofHdata - 1)

/-- The hash after some names were added to one of `size` buckets. -/
structure HardInv (isReq : Bool) (answer : Nat → Addr) (size : Nat) (reqs : List Bytes) (h : HardHash) : Prop where
  inv : ∃ ahead, RimHash.Inv h.hash ahead
  numBuckets : h.hash.numBuckets = size
  items : ∀ a ∈ h.hash.items.keys, ∃ j, j < h.added ∧ a = answer (3 * j + 2)
  names : ∀ p ∈ h.hash.pairs, p.1.bytes ∈ reqs
  data : isReq = false → ∀ p ∈ h.hash.pairs,
    h.texts p.2 = initData false p.1.bytes ∧ ∃ j, j < h.added ∧ p.2 = answer (3 * j + 1)

section Adding

variable {isReq : Bool} {answer : Nat → Addr} {size : Nat} {reqs : List Bytes} {req : Bytes} {h h' : HardHash}

/-- What adding a pair makes of the invariant, whether the name was there or not. -/
theorem HardInv.of_added (hi : HardInv isReq answer size reqs h) {hash : RimHash} {texts : Addr → Bytes} {key : RimStr}
    {data : Addr} {ahead : Set Bytes} {new : Addr} {old : Bool} {res : List MemCall × HashOut}
    (hnew : new = answer (3 * h.added + 2)) (hsame : RimHash.SameHash h.hash hash)
    (hout : RimHash.AddOutcome h.hash ahead key data old new hash res)
    (htexts : isReq = false → (∀ j, j < h.added → texts (answer (3 * j + 1)) = h.texts (answer (3 * j + 1))) ∧
      texts data = initData false key.bytes ∧ data = answer (3 * h.added + 1)) :
    HardInv isReq answer size (reqs ++ [key.bytes]) { hash, texts, added := h.added + 1 } := by
  have hpairs : ∀ p ∈ hash.pairs, p = (key, data) ∨ p ∈ h.hash.pairs := by
    intro p hp
    cases hout with
    | replaced k d rest hkey hold hnow haddrs hinv =>
      obtain rfl | hrest := List.mem_cons.mp (hnow.mem_iff.mp hp)
      · exact Or.inl rfl
      · exact Or.inr (hold.mem_iff.mpr (List.mem_cons_of_mem _ hrest))
    | added habs hnow haddrs hinv =>
      rw [hnow] at hp
      exact List.mem_cons.mp hp
  refine ⟨?_, hsame.numBuckets.trans hi.numBuckets, fun a ha => ?_, fun p hp => ?_, fun hreq p hp => ?_⟩
  · cases hout with
    | replaced k d rest hkey hold hnow haddrs hinv => exact ⟨_, hinv⟩
    | added habs hnow haddrs hinv => exact ⟨_, hinv⟩
  · have hkeys : a = new ∨ a ∈ h.hash.items.keys := by
      cases hout with
      | replaced k d rest hkey hold hnow haddrs hinv => exact Or.inr (haddrs.mem_iff.mpr ha)
      | added habs hnow haddrs hinv =>
        have ha : a ∈ hash.items.keys := ha
        rw [haddrs] at ha
        exact List.mem_cons.mp ha
    obtain rfl | ha := hkeys
    · exact ⟨h.added, Nat.lt_succ_self _, hnew⟩
    · obtain ⟨j, hj, rfl⟩ := hi.items a ha
      exact ⟨j, Nat.lt_succ_of_lt hj, rfl⟩
  · obtain rfl | hp := hpairs p hp
    · exact List.mem_append_right _ (List.mem_singleton_self _)
    · exact List.mem_append_left _ (hi.names p hp)
  · obtain ⟨hold, hdata, haddr⟩ := htexts hreq
    obtain rfl | hp := hpairs p hp
    · exact ⟨hdata, h.added, Nat.lt_succ_self _, haddr⟩
    · obtain ⟨htext, j, hj, hp2⟩ := hi.data hreq p hp
      refine ⟨?_, j, Nat.lt_succ_of_lt hj, hp2⟩
      rw [hp2] at htext ⊢
      exact (hold j hj).trans htext

/-- One name is added, unless it is not proper. -/
theorem addName_inv (hanswer : Function.Injective answer) (hi : HardInv isReq answer size reqs h)
    (hreq : isReq = true → ParamName req) :
    ∃ h', addName isReq answer h req = .ok h' ∧ HardInv isReq answer size (reqs ++ [req]) h' ∧
      ((∀ p ∈ h.hash.pairs, cstr p.1.bytes ≠ cstr req) → ∃ p, p.1.bytes = req ∧ h'.hash.pairs = p :: h.hash.pairs) := by
  obtain ⟨ahead, hinv⟩ := hi.inv
  have hnew : h.hash.items.lookup (answer (3 * h.added + 2)) = none := by
    refine AList.lookup_eq_none.mpr fun hmem => ?_
    obtain ⟨j, hj, ha⟩ := hi.items _ hmem
    have := hanswer ha
    omega
  have hgood : ¬ (isReq = true ∧ rimIsValidParamName req false = false) := by
    rintro ⟨htrue, hfalse⟩
    have hname : rimIsValidParamName req false = true := hreq htrue
    rw [hfalse] at hname
    cases hname
  have hadd : ∀ (key : RimStr) (data : Addr) {hash : RimHash} {res : List MemCall × HashOut},
      RimHash.AddOutcome h.hash ahead key data false (answer (3 * h.added + 2)) hash res →
      (∀ p ∈ h.hash.pairs, cstr p.1.bytes ≠ cstr key.bytes) → hash.pairs = (key, data) :: h.hash.pairs := by
    intro key data hash res hout habs
    cases hout with
    | replaced k d rest hkey hold hnow haddrs hinv =>
      exact absurd hkey (habs (k, d) (hold.mem_iff.mpr (List.mem_cons_self ..)))
    | added habs' hnow haddrs hinv => exact hnow
  unfold addName
  rw [if_neg hgood]
  cases isReq with
  | true =>
    obtain ⟨hash, res, hrun, hsame, -, hout⟩ := RimHash.rimAddHash_inv hinv ⟨answer (3 * h.added), req⟩
      RIM_EMPTY_STRING.addr false hnew
    obtain ⟨calls, out⟩ := res
    dsimp only
    rw [if_pos rfl, hrun]
    refine ⟨_, rfl, hi.of_added rfl hsame hout (fun hfalse => absurd hfalse.symm Bool.false_ne_true), fun habs => ?_⟩
    exact ⟨_, rfl, hadd _ _ hout habs⟩
  | false =>
    obtain ⟨hash, res, hrun, hsame, -, hout⟩ := RimHash.rimAddHash_inv hinv ⟨answer (3 * h.added), req⟩
      (answer (3 * h.added + 1)) false hnew
    obtain ⟨calls, out⟩ := res
    dsimp only
    rw [if_neg Bool.false_ne_true, hrun]
    refine ⟨_, rfl, hi.of_added rfl hsame hout fun _ => ⟨fun j hj => ?_, ?_, rfl⟩, fun habs => ?_⟩
    · refine Function.update_of_ne (fun heq => ?_) _ _
      have := hanswer heq
      omega
    · exact Function.update_self ..
    · exact ⟨_, rfl, hadd _ _ hout habs⟩

theorem addName_error (hname : ¬ ParamName req) : addName true answer h req = .error (.srcName req) := by
  unfold addName
  rw [if_pos ⟨rfl, Bool.eq_false_of_not_eq_true hname⟩]

/-- All names are added, unless one of them is not proper. -/
theorem addNames_inv (hanswer : Function.Injective answer) {todo : List Bytes} (hi : HardInv isReq answer size reqs h)
    (htodo : isReq = true → ∀ r ∈ todo, ParamName r) :
    ∃ h', todo.foldlM (addName isReq answer) h = .ok h' ∧ HardInv isReq answer size (reqs ++ todo) h' ∧
      (todo.Nodup → (∀ r ∈ todo, cstr r = r ∧ ∀ p ∈ h.hash.pairs, cstr p.1.bytes ≠ r) →
        (h'.hash.pairs.map fun p => p.1.bytes) = todo.reverse ++ h.hash.pairs.map fun p => p.1.bytes) := by
  induction todo generalizing reqs h with
  | nil => exact ⟨h, rfl, by rwa [List.append_nil], fun _ _ => rfl⟩
  | cons r todo ih =>
    obtain ⟨h₁, hrun, hi₁, hnew⟩ := addName_inv hanswer hi fun htrue => htodo htrue r (List.mem_cons_self ..)
    obtain ⟨h₂, hrest, hi₂, hall⟩ := ih hi₁ fun htrue r hr => htodo htrue r (List.mem_cons_of_mem _ hr)
    refine ⟨h₂, ?_, ?_, fun hnd hfree => ?_⟩
    · rw [List.foldlM_cons, hrun]
      exact hrest
    · rwa [List.append_assoc] at hi₂
    · obtain ⟨hr, hnd⟩ := List.nodup_cons.mp hnd
      obtain ⟨⟨hcstr, habs⟩, hfree⟩ := List.forall_mem_cons.mp hfree
      obtain ⟨p, hp, hpairs⟩ := hnew fun p hp => by rw [hcstr]; exact habs p hp
      rw [hall hnd ?_, hpairs, List.map_cons, hp, List.reverse_cons, List.append_assoc, List.singleton_append]
      intro r' hr'
      refine ⟨(hfree r' hr').1, fun q hq => ?_⟩
      rw [hpairs] at hq
      obtain rfl | hq := List.mem_cons.mp hq
      · rw [hp, hcstr]
        rintro rfl
        exact hr hr'
      · exact (hfree r' hr').2 q hq

theorem addNames_error {todo : List Bytes} (hr : req ∈ todo) (hname : ¬ ParamName req) :
    ¬ ∃ h', todo.foldlM (addName true answer) h = .ok h' := by
  rintro ⟨h', hrun⟩
  induction todo generalizing h with
  | nil => cases hr
  | cons r todo ih =>
    rw [List.foldlM_cons] at hrun
    obtain rfl | hr := List.mem_cons.mp hr
    · rw [addName_error hname] at hrun
      cases hrun
    · cases hstep : addName true answer h r with
      | error e =>
        rw [hstep] at hrun
        cases hrun
      | ok h₁ =>
        rw [hstep] at hrun
        exact ih hr hrun

end Adding

/-! ## The array -/

def cellInit (h : HardHash) (isReq : Bool) (c : Cell Addr) : HashInit where
  index := c.place
  key := ((h.hash.items.lookup c.item).map fun e => e.key.bytes).getD []
  data := ((h.hash.items.lookup c.item).map fun e => if isReq then e.key.bytes else h.texts e.data).getD []
  next := c.next

section Unwind

variable {h : HardHash} {isReq : Bool} {b : Nat → List Addr} {r : List Addr}

theorem cellInit_of_lookup {c : Cell Addr} {e : HashItem} (he : h.hash.items.lookup c.item = some e) :
    cellInit h isReq c = ⟨c.place, e.key.bytes, if isReq then e.key.bytes else h.texts e.data, c.next⟩ := by
  unfold cellInit
  rw [he]
  rfl

/-- The loop over the items of a bucket writes the cells of the chain. -/
theorem bucketInits_eq {l : List Addr} {p : Option Addr} {fuel : Nat} (hc : Chain h.hash.items.cell p l)
    (hfuel : l.length ≤ fuel) (i bottom : Nat) :
    bucketInits h isReq fuel i bottom p =
      some ((chainCells i bottom l).map (cellInit h isReq), bottom + (l.length - 1)) := by
  induction l generalizing p fuel i bottom with
  | nil =>
    obtain rfl := seg_nil.mp hc
    rw [bucketInits]
    rfl
  | cons a l ih =>
    obtain ⟨rfl, n, hn, hrest⟩ := seg_cons.mp hc
    obtain ⟨e, he, rfl⟩ := Option.map_eq_some_iff.mp hn
    obtain _ | fuel := fuel
    · cases hfuel
    rw [bucketInits, he, Option.bind_eq_bind, Option.bind_some]
    dsimp only
    cases l with
    | nil =>
      have hnext : e.next = none := seg_nil.mp hrest
      rw [hnext, chainCells, List.map_cons, cellInit_of_lookup he]
      rfl
    | cons a' l =>
      have hnext : e.next = some a' := (seg_cons.mp hrest).1
      rw [hnext] at hrest ⊢
      dsimp only
      have hcells : (chainCells i bottom (a :: a' :: l)).map (cellInit h isReq) =
          cellInit h isReq ⟨i, a, some bottom⟩ :: (chainCells bottom (bottom + 1) (a' :: l)).map (cellInit h isReq) := rfl
      have hbottom : bottom + 1 + ((a' :: l).length - 1) = bottom + ((a :: a' :: l).length - 1) := by
        simp only [List.length_cons]
        omega
      rw [ih hrest (Nat.le_of_succ_le_succ hfuel) bottom (bottom + 1), Option.bind_eq_bind, Option.bind_some, hcells,
        cellInit_of_lookup (c := ⟨i, a, some bottom⟩) he, hbottom]

/-- The loop over the buckets writes the layout. -/
theorem tableInits_eq (hi : RimHash.HashInv h.hash b r) (n i bottom : Nat) (hn : i + n ≤ h.hash.numBuckets) :
    tableInits h isReq n i bottom = some ((layout i bottom ((List.range' i n).map b)).map (cellInit h isReq)) := by
  induction n generalizing i bottom with
  | zero => rfl
  | succ n ih =>
    have hlt : i < h.hash.numBuckets := by omega
    rw [tableInits, hi.tableGet hlt, Option.bind_eq_bind, Option.bind_some,
      bucketInits_eq (hi.chain i hlt) (hi.length_le hlt), Option.bind_eq_bind, Option.bind_some]
    dsimp only
    rw [ih (i + 1) _ (by omega), Option.bind_eq_bind, Option.bind_some, List.range'_succ, List.map_cons, layout,
      List.map_append]

theorem mapM_some {α β : Type} {f : α → Option β} {g : α → β} {l : List α} (h : ∀ a ∈ l, f a = some (g a)) :
    l.mapM f = some (l.map g) := by
  induction l with
  | nil => rfl
  | cons a l ih =>
    obtain ⟨ha, hl⟩ := List.forall_mem_cons.mp h
    rw [List.mapM_cons, ha, ih hl]
    rfl

def chains (h : HardHash) (b : Nat → List Addr) : List (List Addr) := (List.range h.hash.numBuckets).map b

theorem length_chains : (chains h b).length = h.hash.numBuckets := by
  unfold chains
  rw [List.length_map, List.length_range]

/-- The table that is written. -/
theorem unwind_eq (hi : RimHash.HashInv h.hash b r) : unwind h isReq = some {
    harr := h.hash.tot + 1 + (chains h b).countP (·.isEmpty)
    inits := (layout 0 h.hash.numBuckets (chains h b)).map (cellInit h isReq)
    last := h.hash.tot + 1 + (chains h b).countP (·.isEmpty) - 1
    ptrs := (List.range h.hash.numBuckets).map fun i => if (b i).isEmpty then none else some i
    ptrSize := h.hash.tot + 1 + (chains h b).countP (·.isEmpty) - 1
    tot := h.hash.tot } := by
  have hget : ∀ i ∈ List.range h.hash.numBuckets, h.hash.tableGet i = some (h.hash.table i) :=
    fun i hi' => hi.tableGet (List.mem_range.mp hi')
  have hhead : ∀ i ∈ List.range h.hash.numBuckets, h.hash.table i = (b i).head? :=
    fun i hi' => Seg.head_eq (hi.chain i (List.mem_range.mp hi'))
  have hempty : ((List.range h.hash.numBuckets).map h.hash.table).countP (·.isNone) =
      (chains h b).countP (·.isEmpty) := by
    unfold chains
    rw [List.countP_map, List.countP_map]
    refine List.countP_congr fun i hi' => ?_
    show (h.hash.table i).isNone = true ↔ (b i).isEmpty = true
    rw [hhead i hi']
    cases b i <;> simp
  have hptrs : ((List.range h.hash.numBuckets).map fun i => (h.hash.table i).map fun _ => i) =
      (List.range h.hash.numBuckets).map fun i => if (b i).isEmpty then none else some i := by
    refine List.map_congr_left fun i hi' => ?_
    rw [hhead i hi']
    cases b i <;> rfl
  unfold unwind
  rw [mapM_some hget, Option.bind_eq_bind, Option.bind_some, hempty, tableInits_eq hi _ 0 _ (by omega),
    Option.bind_eq_bind, Option.bind_some, hptrs, ← List.range_eq_range']
  rfl

end Unwind

/-! ## The program that has the array -/

def HashInit.item (sym : Bytes → Addr) (e : HashInit) : HashItem where
  key := ⟨0, e.key⟩
  data := sym e.data
  next := e.next

section Load

variable {sym : Bytes → Addr} {inits : List HashInit} {items : HashItems} {a : Addr}

/-- What is in memory is one of the entries. -/
theorem exists_init (sym : Bytes → Addr) {it : HashItem}
    (h : (inits.foldl (fun items e => items.insert e.index (e.item sym)) items).lookup a = some it) :
    (∃ e ∈ inits, e.index = a ∧ it = e.item sym) ∨ items.lookup a = some it := by
  induction inits generalizing items with
  | nil => exact Or.inr h
  | cons e inits ih =>
    obtain ⟨e', he', hindex, hit⟩ | hold := ih h
    · exact Or.inl ⟨e', List.mem_cons_of_mem _ he', hindex, hit⟩
    · by_cases ha : a = e.index
      · subst ha
        rw [AList.lookup_insert] at hold
        exact Or.inl ⟨e, List.mem_cons_self .., rfl, (Option.some.inj hold).symm⟩
      · rw [AList.lookup_insert_ne ha] at hold
        exact Or.inr hold

theorem lookup_other (ha : a ∉ inits.map (·.index)) :
    (inits.foldl (fun items e => items.insert e.index (e.item sym)) items).lookup a = items.lookup a := by
  induction inits generalizing items with
  | nil => rfl
  | cons e inits ih =>
    rw [List.map_cons, List.mem_cons, not_or] at ha
    rw [List.foldl_cons, ih ha.2, AList.lookup_insert_ne ha.1]

/-- An entry whose index no other has is in memory. -/
theorem lookup_init (hnd : (inits.map (·.index)).Nodup) {e : HashInit} (he : e ∈ inits) :
    (inits.foldl (fun items e => items.insert e.index (e.item sym)) items).lookup e.index = some (e.item sym) := by
  induction inits generalizing items with
  | nil => cases he
  | cons x inits ih =>
    rw [List.map_cons, List.nodup_cons] at hnd
    obtain rfl | he := List.mem_cons.mp he
    · rw [List.foldl_cons, lookup_other hnd.1, AList.lookup_insert]
    · exact ih hnd.2 he

end Load

section Find

variable {h : HardHash} {isReq : Bool} {b : Nat → List Addr} {r : List Addr} {sym : Bytes → Addr} {t : StaticTable}

/-- The table of a hash: the entries are the layout of its buckets. -/
structure Table (h : HardHash) (isReq : Bool) (b : Nat → List Addr) (t : StaticTable) : Prop where
  inits : t.inits = (layout 0 h.hash.numBuckets (chains h b)).map (cellInit h isReq)
  ptrs : t.ptrs = (List.range h.hash.numBuckets).map fun i => if (b i).isEmpty then none else some i
  harr : t.harr = (chains h b).flatten.length + (chains h b).countP (·.isEmpty) + 1
  last : t.last = t.harr - 1
  ptrSize : t.ptrSize = t.harr - 1
  tot : t.tot = h.hash.tot

theorem table_of_unwind (hi : RimHash.HashInv h.hash b r) (ht : unwind h isReq = some t) : Table h isReq b t := by
  rw [unwind_eq hi] at ht
  obtain rfl := Option.some.inj ht
  have hlen : (chains h b).flatten.length = h.hash.pairs.length := by
    rw [RimHash.length_pairs, ← hi.perm_buckets.length_eq]
    unfold chains
    rw [List.flatMap_def]
  refine ⟨rfl, rfl, ?_, rfl, rfl, rfl⟩
  show h.hash.tot + 1 + _ = _
  rw [hlen, hi.tot]
  omega

theorem Table.nodup (ht : Table h isReq b t) : (t.inits.map (·.index)).Nodup := by
  have hplaces : ((layout 0 h.hash.numBuckets (chains h b)).map Cell.place).Nodup :=
    nodup_places 0 h.hash.numBuckets (by rw [length_chains, Nat.zero_add])
  rw [ht.inits, List.map_map]
  exact hplaces

/-- Every index is within the array, and before its last one. -/
theorem Table.index_lt (ht : Table h isReq b t) {e : HashInit} (he : e ∈ t.inits) : (e.index : Int) < t.last := by
  rw [ht.inits] at he
  obtain ⟨c, hc, rfl⟩ := List.mem_map.mp he
  rw [← length_chains (h := h) (b := b)] at hc
  have hlt : c.place < _ := place_lt hc
  rw [ht.last, ht.harr]
  show (c.place : Int) < _
  omega

/-- There are pointers for all buckets. -/
theorem Table.room (ht : Table h isReq b t) : h.hash.numBuckets ≤ t.ptrSize.toNat := by
  have hlen := length_flatten_eq (chains h b)
  rw [length_chains] at hlen
  rw [ht.ptrSize, ht.harr]
  omega

theorem Table.lookup_cell (ht : Table h isReq b t) {c : Cell Addr} (hc : c ∈ layout 0 h.hash.numBuckets (chains h b)) :
    (t.items sym).lookup c.place = some ((cellInit h isReq c).item sym) := by
  have hmem : cellInit h isReq c ∈ t.inits := by
    rw [ht.inits]
    exact List.mem_map_of_mem hc
  exact lookup_init ht.nodup hmem

/-- The program has the buckets of the hash: the chain of a bucket leads through the cells of its items. -/
theorem Table.chain (sym : Bytes → Addr) (ht : Table h isReq b t) {i : Nat} (hlt : i < h.hash.numBuckets) :
    ∃ cs : List (Cell Addr), cs.map Cell.item = b i ∧ (∀ c ∈ cs, c ∈ layout 0 h.hash.numBuckets (chains h b)) ∧
      Chain (t.items sym).cell ((t.ptrs[i]?).join) (cs.map Cell.place) := by
  have hget : (chains h b)[i]? = some (b i) := by
    unfold chains
    rw [List.getElem?_map, List.getElem?_range hlt]
    rfl
  obtain ⟨bottom, hcells⟩ := chainCells_of_layout 0 h.hash.numBuckets hget
  rw [Nat.zero_add] at hcells
  refine ⟨chainCells i bottom (b i), chainCells_items i bottom (b i), hcells, ?_⟩
  have hptr : (t.ptrs[i]?).join = if (b i).isEmpty then none else some i := by
    rw [ht.ptrs, List.getElem?_map, List.getElem?_range hlt]
    rfl
  rw [hptr]
  refine chainCells_chain (t.items sym).cell id fun c hc => ?_
  unfold HashItems.cell
  show ((t.items sym).lookup c.place).map (·.next) = _
  rw [ht.lookup_cell (hcells c hc), Option.map_some, Option.map_id]
  rfl

/-- What a program that was given the table finds: the data of the name, or that there is none. -/
inductive Found (sym : Bytes → Addr) (h : HardHash) (isReq : Bool) (s : RimStr) : HashOut → Prop
  | found (a : Addr) (e : HashItem) (he : h.hash.items.lookup a = some e) (hkey : cstr e.key.bytes = cstr s.bytes) :
      Found sym h isReq s { data := sym (if isReq then e.key.bytes else h.texts e.data) }
  | absent (hnone : ∀ a e, h.hash.items.lookup a = some e → cstr e.key.bytes ≠ cstr s.bytes) :
      Found sym h isReq s { st := .errExist }

/-- The program has as many buckets as the hash had, if it is given the same number. -/
theorem Table.load (sym : Bytes → Addr) (hi : RimHash.HashInv h.hash b r) (ht : Table h isReq b t)
    (hsize : (if t.tot < 256 then 256 else t.tot.toNat) = h.hash.numBuckets) :
    ∃ p, t.load sym = some p ∧ p.numBuckets = h.hash.numBuckets ∧ p.items = t.items sym ∧
      p.table = (fun i => (t.ptrs[i]?).join) ∧ p.tableLen = t.ptrSize.toNat := by
  have hroom := ht.room
  have hpos := hi.size
  have hlt : 0 < t.ptrSize.toNat := by omega
  unfold StaticTable.load RimHash.rimCreateHashIn RimHash.rimRewindHash RimHash.tableGet
  dsimp only
  rw [if_pos hlt, Option.bind_eq_bind, Option.bind_some]
  exact ⟨_, rfl, hsize, rfl, rfl, rfl⟩

theorem Table.find (sym : Bytes → Addr) (hi : RimHash.HashInv h.hash b r) (ht : Table h isReq b t) {p : RimHash}
    (hn : p.numBuckets = h.hash.numBuckets) (hitems : p.items = t.items sym)
    (htable : p.table = fun i => (t.ptrs[i]?).join) (hlen : p.tableLen = t.ptrSize.toNat) (s : RimStr) :
    ∃ p' out, p.rimFindHash s false false = some (p', [], out) ∧ Found sym h isReq s out := by
  have hroom := ht.room
  have hlt : rimComputeHash s h.hash.numBuckets < h.hash.numBuckets := rimComputeHash_lt s hi.size
  obtain ⟨cs, hcs, hcells, hchain⟩ := ht.chain sym hlt
  have hlook : ∀ c ∈ cs, ∃ e, h.hash.items.lookup c.item = some e ∧ (t.items sym).lookup c.place =
      some ⟨⟨0, e.key.bytes⟩, sym (if isReq then e.key.bytes else h.texts e.data), c.next⟩ := by
    intro c hc
    obtain ⟨e, he, -⟩ := hi.placed _ c.item (hcs ▸ List.mem_map_of_mem hc)
    refine ⟨e, he, ?_⟩
    rw [ht.lookup_cell (hcells c hc), cellInit_of_lookup he]
    rfl
  have hfuel : (cs.map Cell.place).length ≤ (t.items sym).keys.length := by
    refine (List.subperm_of_subset (Seg.nodup hchain) fun x hx => ?_).length_le
    obtain ⟨c, hc, rfl⟩ := List.mem_map.mp hx
    obtain ⟨e, -, he⟩ := hlook c hc
    exact AList.mem_keys.mp (AList.lookup_isSome.mp (by rw [he]; rfl))
  have hsame : ∀ k : RimStr, decide (strcmp s.memory k.memory = 0) = true ↔ cstr k.bytes = cstr s.bytes := by
    intro k
    rw [decide_eq_true_iff]
    exact strcmp_eq_zero.trans eq_comm
  obtain ⟨⟨reads, prev, found⟩, hrun, hfound⟩ : ∃ res, RimHash.rimBucketLoop (t.items sym)
        (fun k => decide (strcmp s.memory k.memory = 0)) (t.items sym).keys.length 0 none
        ((t.ptrs[rimComputeHash s h.hash.numBuckets]?).join) = some res ∧
      RimHash.BucketFound (t.items sym) (fun k => decide (strcmp s.memory k.memory = 0)) (cs.map Cell.place) none res :=
    RimHash.rimBucketLoop_found none 0 hchain hfuel
  have hget : ({ p with hits := p.hits + 1 } : RimHash).tableGet (rimComputeHash s p.numBuckets) =
      some ((t.ptrs[rimComputeHash s h.hash.numBuckets]?).join) := by
    unfold RimHash.tableGet
    rw [hn, hlen, if_pos (by omega), htable]
  unfold RimHash.rimFindHash
  dsimp only
  rw [hget, Option.bind_eq_bind, Option.bind_some, hitems]
  simp only [Bool.false_eq_true, if_false]
  rw [hrun, Option.bind_eq_bind, Option.bind_some]
  cases hfound with
  | absent _ _ hnone =>
    refine ⟨_, _, rfl, .absent fun a e he hkey => ?_⟩
    -- its item would be in the bucket
    have hin := hi.covers a e he
    rw [rimComputeHash_congr hkey, ← hcs] at hin
    obtain ⟨c, hc, rfl⟩ := List.mem_map.mp hin
    obtain ⟨e', he', hcell⟩ := hlook c hc
    obtain rfl := Option.some.inj (he.symm.trans he')
    have hno := hnone c.place (List.mem_map_of_mem hc) _ hcell
    rw [(hsame ⟨0, e.key.bytes⟩).mpr hkey] at hno
    cases hno
  | found _ l₁ l₂ a e hl he hs =>
    obtain ⟨c, hc, rfl⟩ := List.mem_map.mp (hl ▸ List.mem_append_right l₁ (List.mem_cons_self ..) : a ∈ cs.map Cell.place)
    obtain ⟨e', he', hcell⟩ := hlook c hc
    obtain rfl := Option.some.inj (he.symm.trans hcell)
    dsimp only
    rw [hcell, Option.bind_eq_bind, Option.bind_some]
    exact ⟨_, _, rfl, .found c.item e' he' ((hsame _).mp hs)⟩

end Find

/-! ## What the table is for -/

/-- What a name stands for: the handler of a request, the index of a parameter. -/
def ownData (isReq : Bool) (n : Bytes) : Bytes := if isReq then n else aprm n

/-- A table as it is to be: every index is within the array and is written once, every link leads within a bucket, and a
program that has the table finds the names, each with its own data, and nothing else. -/
structure Dispatches (sym : Bytes → Addr) (isReq : Bool) (names : List Bytes) (t : StaticTable) : Prop where
  declared : (∀ e ∈ t.inits, (e.index : Int) < t.harr) ∧ 0 ≤ t.last ∧ t.last < t.harr ∧
    (t.ptrs.length : Int) ≤ t.ptrSize ∧ ∀ i, some i ∈ t.ptrs → (i : Int) < t.harr
  once : (t.inits.map (·.index)).Nodup ∧ ∀ e ∈ t.inits, (e.index : Int) ≠ t.last
  linked : ∀ e ∈ t.inits, ∀ j, e.next = some j → ∃ e' ∈ t.inits, e'.index = j ∧
    rimComputeHash ⟨0, e'.key⟩ t.ptrs.length = rimComputeHash ⟨0, e.key⟩ t.ptrs.length
  finds : ∃ p, t.load sym = some p ∧ ∀ s : RimStr, ∃ p' out, p.rimFindHash s false false = some (p', [], out) ∧
    (cstr s.bytes ∈ names → out = { data := sym (ownData isReq (cstr s.bytes)) }) ∧
    (cstr s.bytes ∉ names → out.st = .errExist)

section Main

variable {sym : Bytes → Addr} {isReq : Bool} {names : List Bytes} {answer : Nat → Addr} {addr tableAddr : Addr}
  {h : HardHash} {b : Nat → List Addr} {r : List Addr} {t : StaticTable}

theorem length_aprm (n : Bytes) : (aprm n).length = 18 + n.length := by
  unfold aprm
  rw [List.length_append]
  rfl

theorem initData_eq {n : Bytes} (hn : n.length ≤ if isReq then 510 else 281) : initData isReq n = ownData isReq n := by
  unfold initData ownData
  cases isReq with
  | true => rfl
  | false =>
    have hn : n.length ≤ 281 := hn
    have hsize : sizeofHdata - 1 = 299 := rfl
    simp only [Bool.false_eq_true, if_false]
    refine List.take_of_length_le ?_
    rw [length_aprm, hsize]
    omega

theorem initData_ne {n : Bytes} (hn : 281 < n.length) : initData false n ≠ ownData false n := by
  intro heq
  have hlen := congrArg List.length heq
  unfold initData ownData at hlen
  have hsize : sizeofHdata - 1 = 299 := rfl
  simp only [Bool.false_eq_true, if_false, List.length_take, length_aprm, hsize] at hlen
  omega

/-- The items of the hash are names, with their data. -/
theorem HardInv.item {size : Nat} {reqs : List Bytes} (hi : HardInv isReq answer size reqs h) {a : Addr} {e : HashItem}
    (he : h.hash.items.lookup a = some e) : e.key.bytes ∈ reqs ∧
      (if isReq then e.key.bytes else h.texts e.data) = initData isReq e.key.bytes := by
  have hmem : (e.key, e.data) ∈ h.hash.pairs := RimHash.mem_pairs.mpr ⟨a, e, he, rfl, rfl⟩
  refine ⟨hi.names _ hmem, ?_⟩
  cases isReq with
  | true => rfl
  | false => exact (hi.data rfl _ hmem).1

/-- Every link of the table leads within a bucket. -/
theorem Table.linked (hi : RimHash.HashInv h.hash b r) (ht : Table h isReq b t) {e : HashInit} (he : e ∈ t.inits)
    {j : Nat}
    (hj : e.next = some j) : ∃ e' ∈ t.inits, e'.index = j ∧
      rimComputeHash ⟨0, e'.key⟩ h.hash.numBuckets = rimComputeHash ⟨0, e.key⟩ h.hash.numBuckets := by
  rw [ht.inits] at he ⊢
  obtain ⟨c, hc, rfl⟩ := List.mem_map.mp he
  obtain ⟨c', hc', hplace, l, hl, hin, hin'⟩ := layout_next hc hj
  obtain ⟨i, -, rfl⟩ := List.mem_map.mp hl
  obtain ⟨x, hx, hbucket⟩ := hi.placed i c.item hin
  obtain ⟨x', hx', hbucket'⟩ := hi.placed i c'.item hin'
  refine ⟨_, List.mem_map_of_mem hc', hplace, ?_⟩
  rw [cellInit_of_lookup hx, cellInit_of_lookup hx']
  have hkey : ∀ k : RimStr, rimComputeHash ⟨0, k.bytes⟩ h.hash.numBuckets = rimComputeHash k h.hash.numBuckets :=
    fun k => rimComputeHash_congr rfl _
  exact ((hkey x'.key).trans hbucket').trans ((hkey x.key).trans hbucket).symm

/-- The table of a hash that holds the names, and nothing else. -/
theorem Table.dispatches (hi : RimHash.HashInv h.hash b r) (ht : Table h isReq b t) {size : Nat}
    (hhard : HardInv isReq answer size names h) (hall : ∀ n ∈ names, ∃ p ∈ h.hash.pairs, p.1.bytes = n)
    (hcstr : ∀ n ∈ names, cstr n = n) (hfit : ∀ n ∈ names, n.length ≤ if isReq then 510 else 281)
    (hsize : (if t.tot < 256 then 256 else t.tot.toNat) = h.hash.numBuckets) : Dispatches sym isReq names t := by
  have hlen : t.ptrs.length = h.hash.numBuckets := by
    rw [ht.ptrs, List.length_map, List.length_range]
  have hroom := ht.room
  have hpos := hi.size
  have hlast := ht.last
  have hptr := ht.ptrSize
  refine ⟨⟨fun e he => ?_, by omega, by omega, by omega, fun i hmem => ?_⟩, ⟨ht.nodup, fun e he => ?_⟩,
    fun e he j hj => ?_, ?_⟩
  · have hlt := ht.index_lt he
    omega
  · rw [ht.ptrs] at hmem
    obtain ⟨k, hk, hki⟩ := List.mem_map.mp hmem
    have hk := List.mem_range.mp hk
    split_ifs at hki
    obtain rfl := Option.some.inj hki
    omega
  · have hlt := ht.index_lt he
    omega
  · rw [hlen]
    exact ht.linked hi he hj
  · obtain ⟨p, hload, hn, hitems, htable, htableLen⟩ := ht.load sym hi hsize
    refine ⟨p, hload, fun s => ?_⟩
    obtain ⟨p', out, hrun, hfound⟩ := ht.find sym hi hn hitems htable htableLen s
    refine ⟨p', out, hrun, ?_⟩
    cases hfound with
    | found a e he hkey =>
      obtain ⟨hmem, hdata⟩ := hhard.item he
      rw [hcstr _ hmem] at hkey
      rw [← hkey, hdata, initData_eq (hfit _ hmem)]
      exact ⟨fun _ => rfl, fun hnot => absurd hmem hnot⟩
    | absent hnone =>
      refine ⟨fun hmem => ?_, fun _ => rfl⟩
      obtain ⟨q, hq, hbytes⟩ := hall _ hmem
      obtain ⟨a, e, he, hkey, -⟩ := RimHash.mem_pairs.mp hq
      refine absurd ?_ (hnone a e he)
      rw [hkey, hbytes, cstr_cstr]

def readNames (names : List Bytes) : List Bytes := (fileLines (unlines 10 names)).map trimit

theorem readNames_eq (hnames : ∀ n ∈ names, ParamName n) (hfit : ∀ n ∈ names, n.length ≤ 510) :
    readNames names = names := by
  have hlines : ∀ n ∈ names, 10 ∉ n ∧ n.length ≤ 510 :=
    fun n hn => ⟨fun h10 => ((hnames n hn).plain.2 10 h10).2.1 rfl, hfit n hn⟩
  unfold readNames
  rw [fileLines_unlines hlines, List.map_map]
  conv_rhs => rw [← List.map_id names]
  exact List.map_congr_left fun n hn => (hnames n hn).trimit

/-- A table is written if all that is read was added, and the hash could be written. -/
theorem setupInternalHash_ok (isReq : Bool) (answer : Nat → Addr) (addr tableAddr : Addr) (hlen : names.length < 2 ^ 61) :
    ∃ hash, RimHash.Created names.length false addr tableAddr hash ∧ ∀ t,
      setupInternalHash isReq answer addr tableAddr (listFile names) = .ok t ↔
        ∃ h, (readNames names).foldlM (addName isReq answer) { hash } = .ok h ∧ unwind h isReq = some t := by
  have hsize : (names.length : Int) < 2 ^ 61 := by omega
  obtain ⟨hash, hcreate, hcreated⟩ := RimHash.rimCreateHash_created hsize false addr tableAddr
  refine ⟨hash, hcreated, fun t => ?_⟩
  have hplain : 10 ∉ countText names.length := fun h10 => (countText_plain h10).2.1 rfl
  have hcount : trimit (countText names.length ++ [10]) = countText names.length :=
    trimit_line fun c hc => ⟨(countText_plain hc).1, (countText_plain hc).2.2⟩
  have hread : (fgetsLines RIM_MAX_REQ_NAME_LEN (listFile names).length (listFile names)).map trimit =
      countText names.length :: readNames names := by
    show (fileLines (listFile names)).map trimit = _
    unfold listFile
    rw [unlines_cons, fileLines_line hplain (length_countText hlen), List.map_cons, hcount]
    rfl
  unfold setupInternalHash
  rw [hread]
  dsimp only
  rw [strtol_countText (by omega), hcreate]
  dsimp only
  cases hrun : (readNames names).foldlM (addName isReq answer) { hash } with
  | error e =>
    refine iff_of_false (fun h => ?_) (fun h => ?_)
    · cases h
    · obtain ⟨h, hok, -⟩ := h
      cases hok
  | ok h =>
    have hbind : ∀ k : HardHash → Except SetupError StaticTable, (Except.ok h >>= k) = k h := fun _ => rfl
    rw [hbind]
    cases hunwind : unwind h isReq with
    | none =>
      refine iff_of_false (fun h => ?_) (fun hex => ?_)
      · cases h
      · obtain ⟨h', hok, hsome⟩ := hex
        obtain rfl := Except.ok.inj hok
        rw [hunwind] at hsome
        cases hsome
    | some t' =>
      refine ⟨fun h => ?_, fun hex => ?_⟩
      · obtain rfl := Except.ok.inj h
        exact ⟨_, rfl, hunwind⟩
      · obtain ⟨h', hok, hsome⟩ := hex
        obtain rfl := Except.ok.inj hok
        rw [hunwind] at hsome
        rw [Option.some.inj hsome]

theorem hardInv_created (isReq : Bool) (answer : Nat → Addr) {hash : RimHash}
    (hc : RimHash.Created names.length false addr tableAddr hash) :
    HardInv isReq answer (RimHash.bucketsFor names.length) [] { hash } ∧ hash.pairs = [] := by
  have hpairs : hash.pairs = [] := by
    unfold RimHash.pairs
    rw [hc.items]
    rfl
  refine ⟨⟨⟨_, hc.inv⟩, hc.numBuckets, fun a ha => ?_, fun p hp => ?_, fun _ p hp => ?_⟩, hpairs⟩
  · rw [hc.items] at ha
    cases ha
  · rw [hpairs] at hp
    cases hp
  · rw [hpairs] at hp
    cases hp

/-! The names that fit -/

theorem setupInternalHash_dispatches (hanswer : Function.Injective answer) (hnd : names.Nodup)
    (hnames : ∀ n ∈ names, ParamName n) (hlen : names.length < 2 ^ 61)
    (hfit : ∀ n ∈ names, n.length ≤ if isReq then 510 else 281) :
    ∃ t, setupInternalHash isReq answer addr tableAddr (listFile names) = .ok t ∧ Dispatches sym isReq names t := by
  have hline : ∀ n ∈ names, n.length ≤ 510 := by
    intro n hn
    have hle := hfit n hn
    split_ifs at hle <;> omega
  have hcstr : ∀ n ∈ names, cstr n = n := fun n hn => cstr_eq_self fun c hc => ((hnames n hn).plain.2 c hc).1
  obtain ⟨hash, hcreated, hok⟩ := setupInternalHash_ok isReq answer addr tableAddr hlen
  obtain ⟨hempty, hpairs⟩ := hardInv_created isReq answer hcreated
  obtain ⟨h, hrun, hhard, hkeys⟩ := addNames_inv hanswer hempty fun _ => hnames
  have hkeys : (h.hash.pairs.map fun p => p.1.bytes) = names.reverse := by
    have hkeys := hkeys hnd fun n hn => ⟨hcstr n hn, fun p hp => by rw [hpairs] at hp; cases hp⟩
    rwa [hpairs, List.map_nil, List.append_nil] at hkeys
  rw [List.nil_append] at hhard
  obtain ⟨ahead, b, r, hi, -⟩ := hhard.inv
  obtain ⟨t, ht⟩ : ∃ t, unwind h isReq = some t := ⟨_, unwind_eq hi⟩
  have htable := table_of_unwind hi ht
  have htot : t.tot = names.length := by
    rw [htable.tot, hi.tot, ← names.length_reverse, ← hkeys, List.length_map]
  refine ⟨t, (hok t).mpr ⟨h, by rw [readNames_eq hnames hline]; exact hrun, ht⟩, ?_⟩
  refine htable.dispatches hi hhard (fun n hn => ?_) hcstr hfit ?_
  · have hmem : n ∈ h.hash.pairs.map fun p => p.1.bytes := hkeys ▸ List.mem_reverse.mpr hn
    exact List.mem_map.mp hmem
  · rw [hhard.numBuckets, htot]
    rfl

/-! The names that do not -/

theorem rimBucketLoop_same {items : HashItems} {same : RimStr → Bool} {fuel : Nat} {reads reads' : Int}
    {prev prev' p : Option Addr} {a : Addr}
    (hrun : RimHash.rimBucketLoop items same fuel reads prev p = some (reads', prev', some a)) :
    ∃ e, items.lookup a = some e ∧ same e.key = true := by
  induction fuel generalizing reads prev p with
  | zero => cases p <;> cases hrun
  | succ fuel ih =>
    cases p with
    | none => cases hrun
    | some curr =>
      rw [RimHash.rimBucketLoop] at hrun
      obtain ⟨e, he, hrun⟩ := Option.bind_eq_some_iff.mp hrun
      split_ifs at hrun with hs
      · cases hrun
        exact ⟨e, he, hs⟩
      · exact ih hrun

/-- What is found has the key, as a C string. -/
theorem rimFindHash_key {p p' : RimHash} {s : RimStr} {calls : List MemCall} {out : HashOut}
    (hrun : p.rimFindHash s false false = some (p', calls, out)) (hout : out.st ≠ .errExist) :
    ∃ a e, p.items.lookup a = some e ∧ cstr e.key.bytes = cstr s.bytes ∧ out.data = e.data := by
  unfold RimHash.rimFindHash at hrun
  obtain ⟨curr, -, hrun⟩ := Option.bind_eq_some_iff.mp hrun
  obtain ⟨res, hloop, hrun⟩ := Option.bind_eq_some_iff.mp hrun
  obtain ⟨reads, prev, found⟩ := res
  cases found with
  | none =>
    cases hrun
    exact absurd rfl hout
  | some a =>
    obtain ⟨e, he, hrun⟩ := Option.bind_eq_some_iff.mp hrun
    obtain ⟨e', he', hsame⟩ := rimBucketLoop_same hloop
    obtain rfl := Option.some.inj (he.symm.trans he')
    rw [if_neg Bool.false_ne_true] at hrun
    cases hrun
    rw [if_neg Bool.false_ne_true, decide_eq_true_iff] at hsame
    exact ⟨a, e, he, (strcmp_eq_zero.mp hsame).symm, rfl⟩

/-- What a program that has the table finds is one of the names that were read, with what was written for it. -/
theorem Table.find_read (hi : RimHash.HashInv h.hash b r) (ht : Table h isReq b t) {size : Nat} {reqs : List Bytes}
    (hhard : HardInv isReq answer size reqs h) {p p' : RimHash} (hload : t.load sym = some p) {s : RimStr}
    {calls : List MemCall} {out : HashOut} (hrun : p.rimFindHash s false false = some (p', calls, out))
    (hout : out.st ≠ .errExist) :
    ∃ n ∈ reqs, cstr n = cstr s.bytes ∧ out.data = sym (initData isReq n) := by
  obtain ⟨a, e, he, hkey, hdata⟩ := rimFindHash_key hrun hout
  have hitems : p.items = t.items sym := by
    unfold StaticTable.load RimHash.rimCreateHashIn RimHash.rimRewindHash at hload
    obtain ⟨curr, -, hload⟩ := Option.bind_eq_some_iff.mp hload
    obtain rfl := Option.some.inj hload
    rfl
  rw [hitems] at he
  obtain ⟨init, hinit, -, rfl⟩ | hnone := exists_init sym he
  · rw [ht.inits] at hinit
    obtain ⟨c, hc, rfl⟩ := List.mem_map.mp hinit
    have hitem : c.item ∈ (chains h b).flatten := by
      rw [← layout_items 0 h.hash.numBuckets]
      exact List.mem_map_of_mem hc
    obtain ⟨l, hl, hin⟩ := List.mem_flatten.mp hitem
    obtain ⟨i, -, rfl⟩ := List.mem_map.mp hl
    obtain ⟨x, hx, -⟩ := hi.placed i c.item hin
    rw [cellInit_of_lookup hx] at hkey hdata
    obtain ⟨hmem, hown⟩ := hhard.item hx
    exact ⟨x.key.bytes, hmem, hkey, hdata.trans (congrArg sym hown)⟩
  · cases hnone

/-- A name that does not fit is not read, or not written, as it is. -/
theorem length_le_of_dispatches (hanswer : Function.Injective answer) (hsym : Function.Injective sym)
    (hnames : ∀ n ∈ names, ParamName n) (hlen : names.length < 2 ^ 61)
    (ht : setupInternalHash isReq answer addr tableAddr (listFile names) = .ok t) (hd : Dispatches sym isReq names t)
    {n : Bytes} (hn : n ∈ names) : n.length ≤ if isReq then 510 else 281 := by
  obtain ⟨hash, hcreated, hok⟩ := setupInternalHash_ok isReq answer addr tableAddr hlen
  obtain ⟨hempty, -⟩ := hardInv_created isReq answer hcreated
  obtain ⟨h, hrun, hunwind⟩ := (hok t).mp ht
  have hproper : isReq = true → ∀ q ∈ readNames names, ParamName q := by
    rintro rfl q hq
    by_contra hbad
    exact addNames_error hq hbad ⟨h, hrun⟩
  obtain ⟨h', hrun', hhard, -⟩ := addNames_inv hanswer hempty hproper
  obtain rfl := Except.ok.inj (hrun.symm.trans hrun')
  rw [List.nil_append] at hhard
  obtain ⟨ahead, b, r, hi, -⟩ := hhard.inv
  have hcstr : cstr n = n := cstr_eq_self fun c hc => ((hnames n hn).plain.2 c hc).1
  obtain ⟨p, hload, hfind⟩ := hd.finds
  obtain ⟨p', out, hout, hown, -⟩ := hfind ⟨0, n⟩
  have hout' : out = { data := sym (ownData isReq (cstr n)) } := hown (by rw [hcstr]; exact hn)
  obtain ⟨n', hn', hkey, hdata⟩ := (table_of_unwind hi hunwind).find_read hi hhard hload hout (by rw [hout']; rintro ⟨⟩)
  -- so the name itself was read
  obtain ⟨line, hline, rfl⟩ := List.mem_map.mp hn'
  have hsame : trimit line = n := by
    rw [← cstr_trimit, hkey]
    exact hcstr
  have hinit : ownData isReq n = initData isReq n := by
    rw [hout', hsame, hcstr] at hdata
    exact hsym hdata
  have hle : n.length ≤ 511 := by
    have htrim := length_trimit_le line
    have hcut := length_le_of_mem_fileLines hline
    rw [hsame] at htrim
    omega
  cases isReq with
  | true =>
    show n.length ≤ 510
    by_contra hlong
    have h10 : ∀ l ∈ names, 10 ∉ l := fun l hl h10 => ((hnames l hl).plain.2 10 h10).2.1 rfl
    have hnewline := newline_mem_fileLines h10 hn (by omega)
    have hbad : ParamName [] := hproper rfl [] (List.mem_map.mpr ⟨[10], hnewline, rfl⟩)
    cases hbad
  | false =>
    show n.length ≤ 281
    by_contra hlong
    exact initData_ne (by omega) hinit.symm

/-- The table that is written for a list of names dispatches them just if the names fit the buffers. -/
theorem setupInternalHash_iff (hanswer : Function.Injective answer) (hsym : Function.Injective sym) (hnd : names.Nodup)
    (hnames : ∀ n ∈ names, ParamName n) (hlen : names.length < 2 ^ 61) :
    (∃ t, setupInternalHash isReq answer addr tableAddr (listFile names) = .ok t ∧ Dispatches sym isReq names t) ↔
      ∀ n ∈ names, n.length ≤ if isReq then 510 else 281 := by
  constructor
  · rintro ⟨t, ht, hd⟩ n hn
    exact length_le_of_dispatches hanswer hsym hnames hlen ht hd hn
  · exact setupInternalHash_dispatches hanswer hnd hnames hlen

/-- A linker that gives every text an address of its own. -/
def symbols (text : Bytes) : Addr := Encodable.encode (text.map UInt8.toNat)

theorem symbols_injective : Function.Injective symbols := by
  intro s s' h
  exact List.map_injective_iff.mpr (fun _ _ => UInt8.toNat_inj.mp) (Encodable.encode_injective h)

theorem setupInternalHash_twoRequests :
    ∃ t, setupInternalHash true id 1 2 (listFile [ascii "add", ascii "list"]) = .ok t ∧
      Dispatches symbols true [ascii "add", ascii "list"] t :=
  (setupInternalHash_iff Function.injective_id symbols_injective (by decide) (by decide) (by decide)).mpr (by decide)

theorem paramName_replicate (k : Nat) : ParamName (List.replicate (k + 1) 97) := by
  refine Bool.and_eq_true_iff.mpr ⟨rfl, List.all_eq_true.mpr fun c hc => ?_⟩
  obtain rfl := (List.mem_replicate.mp hc).2
  rfl

/-- The index of a parameter with a name of 282 letters is written without its last letter. -/
theorem not_setupInternalHash_long : ¬ ∃ t, setupInternalHash false id 1 2 (listFile [List.replicate 282 97]) = .ok t ∧
    Dispatches symbols false [List.replicate 282 97] t := by
  rw [setupInternalHash_iff Function.injective_id symbols_injective (List.nodup_singleton _) ?_ ?_]
  · intro h
    have hlen := h _ (List.mem_singleton_self _)
    rw [List.length_replicate] at hlen
    exact absurd hlen (by decide)
  · intro n hn
    obtain rfl := List.mem_singleton.mp hn
    exact paramName_replicate 281
  · exact Nat.lt_of_sub_pos (by decide)

end Main

end RimStone
