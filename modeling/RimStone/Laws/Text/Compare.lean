import Mathlib.Data.List.Lex
import RimStone.Laws.Hash.Key
import RimStone.Text.Compare

/-!
# Comparisons that agree

All operators but equality go by the sign of one comparison, which ends at the first null byte. So what is less
is a strict order of strings up to their first null byte, and the limited operators answer for the cut
strings. Equality is of all bytes, or, where case is ignored, of lengths and the rest up to a null byte. That is
why the operators agree with equality exactly on strings that a null byte does not make the same.
-/

namespace RimStone

structure CmOps where
  less : RimStr → RimStr → Bool
  eq : RimStr → RimStr → Bool
  gr : RimStr → RimStr → Bool
  lesseq : RimStr → RimStr → Bool
  greq : RimStr → RimStr → Bool

def CmOps.plain : CmOps where
  less a b := rimCmStrLess a (rimMemGetLen a) b (rimMemGetLen b)
  eq a b := rimCmStr a (rimMemGetLen a) b (rimMemGetLen b)
  gr a b := rimCmStrGr a (rimMemGetLen a) b (rimMemGetLen b)
  lesseq a b := rimCmStrLesseq a (rimMemGetLen a) b (rimMemGetLen b)
  greq a b := rimCmStrGreq a (rimMemGetLen a) b (rimMemGetLen b)

def CmOps.noCase : CmOps where
  less a b := rimCmStrLessC a (rimMemGetLen a) b (rimMemGetLen b)
  eq a b := rimCmStrC a (rimMemGetLen a) b (rimMemGetLen b)
  gr a b := rimCmStrGrC a (rimMemGetLen a) b (rimMemGetLen b)
  lesseq a b := rimCmStrLesseqC a (rimMemGetLen a) b (rimMemGetLen b)
  greq a b := rimCmStrGreqC a (rimMemGetLen a) b (rimMemGetLen b)

def CmOps.limited (l : Nat) : CmOps where
  less a b := rimCmStrLessL a (rimMemGetLen a) b (rimMemGetLen b) l
  eq a b := rimCmStrL a (rimMemGetLen a) b (rimMemGetLen b) l
  gr a b := rimCmStrGrL a (rimMemGetLen a) b (rimMemGetLen b) l
  lesseq a b := rimCmStrLesseqL a (rimMemGetLen a) b (rimMemGetLen b) l
  greq a b := rimCmStrGreqL a (rimMemGetLen a) b (rimMemGetLen b) l

def CmOps.noCaseLimited (l : Nat) : CmOps where
  less a b := rimCmStrLessCL a (rimMemGetLen a) b (rimMemGetLen b) l
  eq a b := rimCmStrCL a (rimMemGetLen a) b (rimMemGetLen b) l
  gr a b := rimCmStrGrCL a (rimMemGetLen a) b (rimMemGetLen b) l
  lesseq a b := rimCmStrLesseqCL a (rimMemGetLen a) b (rimMemGetLen b) l
  greq a b := rimCmStrGreqCL a (rimMemGetLen a) b (rimMemGetLen b) l

/-- Exactly one of less, equal and greater holds, and the others are made of them. -/
structure CmOps.Consistent (ops : CmOps) (a b : RimStr) : Prop where
  one : (ops.less a b = true ∧ ops.eq a b = false ∧ ops.gr a b = false) ∨
    (ops.less a b = false ∧ ops.eq a b = true ∧ ops.gr a b = false) ∨
    (ops.less a b = false ∧ ops.eq a b = false ∧ ops.gr a b = true)
  lesseq : ops.lesseq a b = (ops.less a b || ops.eq a b)
  greq : ops.greq a b = (ops.gr a b || ops.eq a b)

/-- Operators answer on `a` and `b` as others do on `a'` and `b'`. -/
structure CmOps.SameOn (ops ops' : CmOps) (a b a' b' : RimStr) : Prop where
  less : ops.less a b = ops'.less a' b'
  eq : ops.eq a b = ops'.eq a' b'
  gr : ops.gr a b = ops'.gr a' b'
  lesseq : ops.lesseq a b = ops'.lesseq a' b'
  greq : ops.greq a b = ops'.greq a' b'

/-- The first `l` bytes of a string. -/
def RimStr.cut (a : RimStr) (l : Nat) : RimStr := { a with bytes := a.bytes.take l }

def cmKinds (l : Nat) : List CmOps := [.plain, .noCase, .limited l, .noCaseLimited l]

/-- All operators agree with each other on three strings and a length. -/
structure ComparesWell (a b c : RimStr) (l : Nat) : Prop where
  consistent : ∀ ops ∈ cmKinds l, ops.Consistent a b
  trans : ∀ ops ∈ cmKinds l, ops.less a b = true → ops.less b c = true → ops.less a c = true
  cut : (CmOps.limited l).SameOn .plain a b (a.cut l) (b.cut l)
  noCaseCut : (CmOps.noCaseLimited l).SameOn .noCase a b (a.cut l) (b.cut l)

/-- The operators other than equality are of one order. -/
structure CmOps.Ordered (ops : CmOps) (a b c : RimStr) : Prop where
  asymm : ops.less a b = true → ops.gr a b = false
  lesseq : ops.lesseq a b = !ops.gr a b
  greq : ops.greq a b = !ops.less a b
  swap : ops.gr a b = ops.less b a
  trans : ops.less a b = true → ops.less b c = true → ops.less a c = true

/-- Strings that are the same up to the first null byte are equal. -/
def TextTells (s t : Bytes) : Prop := cstr s = cstr t → s = t

/-- Strings that are the same up to the first null byte, but for case, are of one length. -/
def TextTellsNoCase (s t : Bytes) : Prop := cstr (s.map tolower) = cstr (t.map tolower) → s.length = t.length

/-- How the operators agree: on text with each other, and on all bytes but for equality. -/
structure ComparesText (a b c : RimStr) (l : Nat) : Prop where
  ordered : ∀ ops ∈ cmKinds l, ops.Ordered a b c
  plain : CmOps.plain.Consistent a b ↔ TextTells a.bytes b.bytes
  noCase : CmOps.noCase.Consistent a b ↔ TextTellsNoCase a.bytes b.bytes
  limited : (CmOps.limited l).Consistent a b ↔ TextTells (a.bytes.take l) (b.bytes.take l)
  noCaseLimited : (CmOps.noCaseLimited l).Consistent a b ↔ TextTellsNoCase (a.bytes.take l) (b.bytes.take l)
  cut : (CmOps.limited l).SameOn .plain a b (a.cut l) (b.cut l)
  noCaseCut : (CmOps.noCaseLimited l).SameOn .noCase a b (a.cut l) (b.cut l)

/-! ## The one comparison -/

theorem ne_zero_of_lt_byte {a b : UInt8} (h : a < b) : b ≠ 0 := by
  rintro rfl
  exact Nat.not_lt_zero _ (UInt8.lt_iff_toNat_lt.mp h)

/-- How `strcmp` compares strings of these bytes. -/
def textCmp (s t : Bytes) : Int := strcmp (s ++ [0]) (t ++ [0])

section TextCmp

variable {s t u : Bytes}

/-- Where a text stands in the order of `strcmp`. -/
def textRank (s : Bytes) : List ℕ := (cstr s).map UInt8.toNat

theorem textCmp_neg : textCmp s t < 0 ↔ textRank s < textRank t := by
  unfold textCmp textRank
  induction s generalizing t with
  | nil =>
    cases t with
    | nil => simp [strcmp]
    | cons b t =>
      rw [cstr_nil, cstr_cons]
      by_cases hb : b = 0
      · simp [strcmp, hb]
      · have hpos : 0 < b := UInt8.pos_iff_ne_zero.mpr hb
        simp [strcmp, hb, hpos]
  | cons a s ih =>
    cases t with
    | nil =>
      rw [cstr_nil, cstr_cons]
      by_cases ha : a = 0
      · simp [strcmp, ha]
      · have hpos : 0 < a := UInt8.pos_iff_ne_zero.mpr ha
        simp [strcmp, ha, hpos]
    | cons b t =>
      have hstep := ih (t := t)
      simp only [List.cons_append, strcmp, cstr_cons]
      obtain hlt | heq | hgt := Nat.lt_trichotomy a.toNat b.toNat
      · have hab : a < b := UInt8.lt_iff_toNat_lt.mpr hlt
        have hb : b ≠ 0 := ne_zero_of_lt_byte hab
        by_cases ha : a = 0
        · subst ha
          simp [hab, hb]
        · simp [hab, ha, hb, List.cons_lt_cons_iff, hlt]
      · obtain rfl := UInt8.toNat_inj.mp heq
        have hirr : ¬ a < a := UInt8.lt_irrefl a
        by_cases ha : a = 0
        · simp [ha]
        · simp [hirr, ha, hstep]
      · have hba : b < a := UInt8.lt_iff_toNat_lt.mpr hgt
        have hab : ¬ a < b := UInt8.lt_asymm hba
        have ha : a ≠ 0 := ne_zero_of_lt_byte hba
        by_cases hb : b = 0
        · subst hb
          simp [hba, hab, ha]
        · have hne : a.toNat ≠ b.toNat := by omega
          simp [hba, hab, ha, hb, List.cons_lt_cons_iff, hne]
          omega

theorem textCmp_eq_zero : textCmp s t = 0 ↔ cstr s = cstr t := strcmp_eq_zero

theorem textCmp_trans (hst : textCmp s t < 0) (htu : textCmp t u < 0) : textCmp s u < 0 :=
  textCmp_neg.mpr (lt_trans (textCmp_neg.mp hst) (textCmp_neg.mp htu))

theorem strncmp_null (n : Nat) (b : UInt8) (t u : Bytes) :
    strncmp (n + 1) [0] (b :: t) = strcmp [0] (b :: u) ∧ strncmp (n + 1) (b :: t) [0] = strcmp (b :: u) [0] := by
  by_cases hb : b = 0
  · simp [strncmp, strcmp, hb]
  · have hpos : 0 < b := UInt8.pos_iff_ne_zero.mpr hb
    simp [strncmp, strcmp, hpos]

/-- `strncmp` of as much as the shorter string has, and its null, is `strcmp`. -/
theorem strncmp_terminated {n : Nat} (h : min s.length t.length < n) :
    strncmp n (s ++ [0]) (t ++ [0]) = textCmp s t := by
  unfold textCmp
  induction n generalizing s t with
  | zero => omega
  | succ n ih =>
    cases s with
    | nil =>
      cases t with
      | nil => rfl
      | cons b t => exact (strncmp_null n b _ _).1
    | cons a s =>
      cases t with
      | nil => exact (strncmp_null n a _ _).2
      | cons b t =>
        rw [List.length_cons, List.length_cons] at h
        rw [List.cons_append, List.cons_append, strncmp, strcmp, ih (by omega)]

/-- `strncmp` of a length is `strcmp` of as much of the strings. -/
theorem strncmp_take (n : Nat) (s t : Bytes) : strncmp n (s ++ [0]) (t ++ [0]) = textCmp (s.take n) (t.take n) := by
  unfold textCmp
  induction n generalizing s t with
  | zero => rfl
  | succ n ih =>
    cases s with
    | nil =>
      cases t with
      | nil => rfl
      | cons b t => exact (strncmp_null n b _ _).1
    | cons a s =>
      cases t with
      | nil => exact (strncmp_null n a _ _).2
      | cons b t =>
        rw [List.take_succ_cons, List.take_succ_cons]
        simp only [List.cons_append, strncmp, strcmp, ih]

theorem textCmp_take {n : Nat} (h : min s.length t.length < n) : textCmp (s.take n) (t.take n) = textCmp s t := by
  rw [← strncmp_take, strncmp_terminated h]

theorem textCmp_swap_neg : 0 < textCmp s t ↔ textCmp t s < 0 := by
  have hzero : textCmp s t = 0 ↔ textCmp t s = 0 := by
    rw [textCmp_eq_zero, textCmp_eq_zero]
    exact eq_comm
  have hst := textCmp_neg (s := s) (t := t)
  have hts := textCmp_neg (s := t) (t := s)
  constructor
  · intro hpos
    apply hts.mpr
    obtain hlt | heq | hgt := lt_trichotomy (textRank t) (textRank s)
    · exact hlt
    · have hcstr : cstr t = cstr s := List.map_injective_iff.mpr (fun _ _ => UInt8.toNat_inj.mp) heq
      have := textCmp_eq_zero.mpr hcstr.symm
      omega
    · have := hst.mpr hgt
      omega
  · intro hneg
    by_contra hle
    have hnonzero : textCmp s t ≠ 0 := fun h => by
      have := hzero.mp h
      omega
    exact lt_asymm (hst.mp (by omega)) (hts.mp hneg)

end TextCmp

/-! ## The operators -/

/-- The operators other than equality go by the comparison of what `key` takes of the strings. -/
structure CmOps.GoBy (ops : CmOps) (key : RimStr → Bytes) : Prop where
  less : ∀ a b, ops.less a b = decide (textCmp (key a) (key b) < 0)
  gr : ∀ a b, ops.gr a b = decide (textCmp (key a) (key b) > 0)
  lesseq : ∀ a b, ops.lesseq a b = decide (textCmp (key a) (key b) ≤ 0)
  greq : ∀ a b, ops.greq a b = decide (textCmp (key a) (key b) ≥ 0)

namespace CmOps.GoBy

variable {ops ops' : CmOps} {key key' : RimStr → Bytes} {a b c a' b' : RimStr}

theorem ordered (h : ops.GoBy key) (a b c : RimStr) : ops.Ordered a b c where
  asymm hless := by
    rw [h.less, decide_eq_true_iff] at hless
    rw [h.gr, decide_eq_false_iff_not]
    omega
  lesseq := by
    rw [h.lesseq, h.gr, ← decide_not]
    exact decide_eq_decide.mpr (by omega)
  greq := by
    rw [h.greq, h.less, ← decide_not]
    exact decide_eq_decide.mpr (by omega)
  swap := by
    rw [h.gr, h.less]
    exact decide_eq_decide.mpr textCmp_swap_neg
  trans hab hbc := by
    rw [h.less, decide_eq_true_iff] at hab hbc ⊢
    exact textCmp_trans hab hbc

/-- The operators agree with equality where it says what the comparison says. -/
theorem consistent_iff (h : ops.GoBy key) : ops.Consistent a b ↔ (ops.eq a b = true ↔ textCmp (key a) (key b) = 0) := by
  constructor
  · intro hc
    obtain ⟨hless, heq, hgr⟩ | ⟨hless, heq, hgr⟩ | ⟨hless, heq, hgr⟩ := hc.one
    all_goals
      rw [h.less] at hless
      rw [h.gr] at hgr
      simp only [decide_eq_true_iff, decide_eq_false_iff_not] at hless hgr
      rw [heq]
      simp
      omega
  · intro heq
    have hdecide : ops.eq a b = decide (textCmp (key a) (key b) = 0) := by
      rw [Bool.eq_iff_iff, decide_eq_true_iff]
      exact heq
    constructor
    · rw [h.less, h.gr, hdecide]
      simp only [decide_eq_true_iff, decide_eq_false_iff_not]
      omega
    · rw [h.lesseq, h.less, hdecide, ← Bool.decide_or]
      exact decide_eq_decide.mpr (by omega)
    · rw [h.greq, h.gr, hdecide, ← Bool.decide_or]
      exact decide_eq_decide.mpr (by omega)

theorem sameOn (h : ops.GoBy key) (h' : ops'.GoBy key') (ha : key a = key' a') (hb : key b = key' b')
    (heq : ops.eq a b = ops'.eq a' b') : ops.SameOn ops' a b a' b' where
  less := by rw [h.less, h'.less, ha, hb]
  eq := heq
  gr := by rw [h.gr, h'.gr, ha, hb]
  lesseq := by rw [h.lesseq, h'.lesseq, ha, hb]
  greq := by rw [h.greq, h'.greq, ha, hb]

end CmOps.GoBy

section Signs

variable (test : Int → Bool) (a b : RimStr) (l : Nat)

theorem memory_lower (a : RimStr) : a.memory.map tolower = a.bytes.map tolower ++ [0] := List.map_append

theorem cmStrSign_eq : cmStrSign strncmp test a (rimMemGetLen a) b (rimMemGetLen b) = test (textCmp a.bytes b.bytes) := by
  exact congrArg test (strncmp_terminated (Nat.lt_succ_self _))

theorem cmStrSign_noCase : cmStrSign strncasecmp test a (rimMemGetLen a) b (rimMemGetLen b) =
    test (textCmp (a.bytes.map tolower) (b.bytes.map tolower)) := by
  unfold cmStrSign strncasecmp rimMemGetLen
  rw [memory_lower, memory_lower]
  exact congrArg test (strncmp_terminated (by simp))

/-- A limit past the shorter string is cut to what takes its null in. -/
theorem strncmp_limit (s t : Bytes) (l : Nat) :
    strncmp (if min s.length t.length < l then min s.length t.length + 1 else l) (s ++ [0]) (t ++ [0]) =
      textCmp (s.take l) (t.take l) := by
  by_cases h : min s.length t.length < l
  · rw [if_pos h, strncmp_terminated (Nat.lt_succ_self _), textCmp_take h]
  · rw [if_neg h, strncmp_take]

theorem cmStrSignL_eq : cmStrSignL strncmp test a (rimMemGetLen a) b (rimMemGetLen b) l =
    test (textCmp (a.bytes.take l) (b.bytes.take l)) := congrArg test (strncmp_limit a.bytes b.bytes l)

theorem cmStrSignL_noCase : cmStrSignL strncasecmp test a (rimMemGetLen a) b (rimMemGetLen b) l =
    test (textCmp ((a.bytes.take l).map tolower) ((b.bytes.take l).map tolower)) := by
  have hlimit := strncmp_limit (a.bytes.map tolower) (b.bytes.map tolower) l
  rw [List.length_map, List.length_map] at hlimit
  rw [List.map_take, List.map_take, ← hlimit, ← memory_lower, ← memory_lower]
  rfl

end Signs

theorem plain_goBy : CmOps.plain.GoBy (fun a => a.bytes) where
  less a b := cmStrSign_eq (fun n => decide (n < 0)) a b
  gr a b := cmStrSign_eq (fun n => decide (n > 0)) a b
  lesseq a b := cmStrSign_eq (fun n => decide (n ≤ 0)) a b
  greq a b := cmStrSign_eq (fun n => decide (n ≥ 0)) a b

theorem noCase_goBy : CmOps.noCase.GoBy (fun a => a.bytes.map tolower) where
  less a b := cmStrSign_noCase (fun n => decide (n < 0)) a b
  gr a b := cmStrSign_noCase (fun n => decide (n > 0)) a b
  lesseq a b := cmStrSign_noCase (fun n => decide (n ≤ 0)) a b
  greq a b := cmStrSign_noCase (fun n => decide (n ≥ 0)) a b

theorem limited_goBy (l : Nat) : (CmOps.limited l).GoBy (fun a => a.bytes.take l) where
  less a b := cmStrSignL_eq (fun n => decide (n < 0)) a b l
  gr a b := cmStrSignL_eq (fun n => decide (n > 0)) a b l
  lesseq a b := cmStrSignL_eq (fun n => decide (n ≤ 0)) a b l
  greq a b := cmStrSignL_eq (fun n => decide (n ≥ 0)) a b l

theorem noCaseLimited_goBy (l : Nat) : (CmOps.noCaseLimited l).GoBy (fun a => (a.bytes.take l).map tolower) where
  less a b := cmStrSignL_noCase (fun n => decide (n < 0)) a b l
  gr a b := cmStrSignL_noCase (fun n => decide (n > 0)) a b l
  lesseq a b := cmStrSignL_noCase (fun n => decide (n ≤ 0)) a b l
  greq a b := cmStrSignL_noCase (fun n => decide (n ≥ 0)) a b l

/-! ## Equality -/

section Equality

variable {a b : RimStr} {l : Nat}

theorem memcmp_take {n : Nat} {s t : Bytes} (hs : n ≤ s.length) (ht : n ≤ t.length) (p q : Bytes) :
    memcmp n (s ++ p) (t ++ q) = 0 ↔ s.take n = t.take n := by
  have hlen : (s.take n).length = (t.take n).length := by
    rw [List.length_take_of_le hs, List.length_take_of_le ht]
  have hiff := memcmp_eq_zero hlen (s.drop n ++ p) (t.drop n ++ q)
  rw [← List.append_assoc, ← List.append_assoc, List.take_append_drop, List.take_append_drop,
    List.length_take_of_le hs] at hiff
  exact hiff

theorem rimCmStrL_iff : rimCmStrL a (rimMemGetLen a) b (rimMemGetLen b) l = true ↔ a.bytes.take l = b.bytes.take l := by
  unfold rimCmStrL rimMemGetLen RimStr.memory
  by_cases hl : l > a.bytes.length ∨ l > b.bytes.length
  · rw [if_pos hl]
    by_cases hlen : a.bytes.length = b.bytes.length
    · rw [if_neg (not_not.mpr hlen), decide_eq_true_iff, memcmp_eq_zero hlen,
        List.take_of_length_le (by omega), List.take_of_length_le (by omega)]
    · rw [if_pos hlen]
      refine iff_of_false Bool.false_ne_true fun he => hlen ?_
      have := congrArg List.length he
      rw [List.length_take, List.length_take] at this
      omega
  · rw [if_neg hl, decide_eq_true_iff, memcmp_take (by omega) (by omega)]

theorem rimCmStrC_iff : rimCmStrC a (rimMemGetLen a) b (rimMemGetLen b) = true ↔
    a.bytes.length = b.bytes.length ∧ textCmp (a.bytes.map tolower) (b.bytes.map tolower) = 0 := by
  unfold rimCmStrC strcasecmp rimMemGetLen textCmp
  rw [memory_lower, memory_lower]
  by_cases hlen : a.bytes.length = b.bytes.length
  · rw [if_neg (not_not.mpr hlen), decide_eq_true_iff]
    exact (and_iff_right hlen).symm
  · rw [if_pos hlen]
    exact iff_of_false Bool.false_ne_true fun h => hlen h.1

theorem rimCmStrCL_iff : rimCmStrCL a (rimMemGetLen a) b (rimMemGetLen b) l = true ↔
    (a.bytes.take l).length = (b.bytes.take l).length ∧
      textCmp ((a.bytes.take l).map tolower) ((b.bytes.take l).map tolower) = 0 := by
  unfold rimCmStrCL strncasecmp rimMemGetLen
  rw [memory_lower, memory_lower, strncmp_take, strncmp_take, List.map_take, List.map_take]
  by_cases hl : l > a.bytes.length ∨ l > b.bytes.length
  · rw [if_pos hl]
    by_cases hlen : a.bytes.length = b.bytes.length
    · have ha : (a.bytes.map tolower).take a.bytes.length = (a.bytes.map tolower).take l := by
        rw [List.take_of_length_le (by simp), List.take_of_length_le (by rw [List.length_map]; omega)]
      have hb : (b.bytes.map tolower).take a.bytes.length = (b.bytes.map tolower).take l := by
        rw [List.take_of_length_le (by rw [List.length_map]; omega),
          List.take_of_length_le (by rw [List.length_map]; omega)]
      have htake : (a.bytes.take l).length = (b.bytes.take l).length := by
        rw [List.length_take, List.length_take, hlen]
      rw [if_neg (not_not.mpr hlen), decide_eq_true_iff, ha, hb]
      exact (and_iff_right htake).symm
    · rw [if_pos hlen]
      refine iff_of_false Bool.false_ne_true fun h => hlen ?_
      have := h.1
      rw [List.length_take, List.length_take] at this
      omega
  · have htake : (a.bytes.take l).length = (b.bytes.take l).length := by
      rw [List.length_take_of_le (by omega), List.length_take_of_le (by omega)]
    rw [if_neg hl, decide_eq_true_iff]
    exact (and_iff_right htake).symm

theorem textTells_iff {s t : Bytes} : (s = t ↔ textCmp s t = 0) ↔ TextTells s t := by
  rw [textCmp_eq_zero]
  exact ⟨fun h => h.mpr, fun h => ⟨congrArg cstr, h⟩⟩

theorem textTellsNoCase_iff {s t : Bytes} :
    ((s.length = t.length ∧ textCmp (s.map tolower) (t.map tolower) = 0) ↔ textCmp (s.map tolower) (t.map tolower) = 0) ↔
      TextTellsNoCase s t := by
  rw [textCmp_eq_zero]
  exact and_iff_right_iff_imp

end Equality

/-- On all strings the operators other than equality are of one order, and what they answer agrees with equality
exactly where a null byte does not hide a difference. -/
theorem rimCmStr_comparesText (a b c : RimStr) (l : Nat) : ComparesText a b c l where
  ordered := by
    unfold cmKinds
    simp only [List.forall_mem_cons, List.not_mem_nil, false_imp_iff, implies_true, and_true]
    exact ⟨plain_goBy.ordered a b c, noCase_goBy.ordered a b c, (limited_goBy l).ordered a b c,
      (noCaseLimited_goBy l).ordered a b c⟩
  plain := by
    rw [plain_goBy.consistent_iff]
    exact (iff_congr rimCmStr_iff Iff.rfl).trans textTells_iff
  noCase := by
    rw [noCase_goBy.consistent_iff]
    exact (iff_congr rimCmStrC_iff Iff.rfl).trans textTellsNoCase_iff
  limited := by
    rw [(limited_goBy l).consistent_iff]
    exact (iff_congr rimCmStrL_iff Iff.rfl).trans textTells_iff
  noCaseLimited := by
    rw [(noCaseLimited_goBy l).consistent_iff]
    exact (iff_congr rimCmStrCL_iff Iff.rfl).trans textTellsNoCase_iff
  cut := by
    apply (limited_goBy l).sameOn plain_goBy rfl rfl
    have hcut : CmOps.plain.eq (a.cut l) (b.cut l) = true ↔ a.bytes.take l = b.bytes.take l := rimCmStr_iff
    exact Bool.eq_iff_iff.mpr (rimCmStrL_iff.trans hcut.symm)
  noCaseCut := by
    apply (noCaseLimited_goBy l).sameOn noCase_goBy rfl rfl
    have hcut : CmOps.noCase.eq (a.cut l) (b.cut l) = true ↔ _ := rimCmStrC_iff
    exact Bool.eq_iff_iff.mpr (rimCmStrCL_iff.trans hcut.symm)

/-- After a null byte, neither string is less and they are not equal. -/
theorem not_comparesWell : ¬ ∀ (a b c : RimStr) (l : Nat), ComparesWell a b c l := by
  intro h
  have hplain := (h ⟨1, [120, 0, 97]⟩ ⟨2, [120, 0, 98]⟩ ⟨2, []⟩ 0).consistent .plain (List.mem_cons_self ..)
  revert hplain
  rw [plain_goBy.consistent_iff]
  decide

end RimStone
